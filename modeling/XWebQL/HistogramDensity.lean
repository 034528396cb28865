import XWebQL.BayesianBinning

/-! What `build_blocks` makes of ordered data, and when the histogram of
`parallel_bayesian_binning` is a density of its input.
The change points always contain the greatest value. They contain the least one
exactly when the first leaf of the split is wider than `dt`; otherwise its end
is the first edge, and the events before it are counted past their block. -/

namespace XWebQL.HistogramDensity

open FortranArray Quicksort RunLength CountBetweenEdges ConquerBinning DivideBinning
  BayesianBinning

variable {K : Type} [Field K] [LinearOrder K]

/-- A histogram of all of `x`, given the `counts` its heights were made from. -/
structure ProperDensity (x : List K) (blocks : BayesHistogram K) (counts : List K) : Prop where
  size : blocks.edges.length = blocks.n + 1
  increasing : blocks.edges.Pairwise (· < ·)
  first : ∃ lo, blocks.edges.head? = some lo ∧ IsLeast {v | v ∈ x} lo
  last : ∃ hi, blocks.edges.getLast? = some hi ∧ IsGreatest {v | v ∈ x} hi
  counted : ∃ owner : K → ℕ, (∀ v ∈ x, InBlock blocks.edges (owner v) v) ∧
    counts = (List.range' 1 blocks.n).map fun j => (x.countP (owner · = j) : K)
  counts_sum : counts.sum = x.length
  heights : blocks.heights = blockHeights counts blocks.widths
  area : (List.zipWith (· * ·) blocks.heights blocks.widths).sum = 1

section Area

omit [LinearOrder K] in
theorem blockHeights_mul_widths (T : K) {counts widths : List K}
    (hlen : counts.length = widths.length) (hne : ∀ w ∈ widths, w ≠ 0) :
    List.zipWith (· * ·) (List.zipWith (fun c w => c / (T * w)) counts widths) widths =
      counts.map (· / T) := by
  induction counts generalizing widths with
  | nil => simp
  | cons c counts ih =>
    cases widths with
    | nil => simp at hlen
    | cons w widths =>
      have hw : w ≠ 0 := hne w (by simp)
      simp only [List.zipWith_cons_cons, List.map_cons]
      rw [ih (by simpa using hlen) fun u hu => hne u (List.mem_cons_of_mem w hu)]
      congr 1
      rw [div_mul_eq_mul_div, mul_div_mul_right c T hw]

omit [LinearOrder K] in
theorem sum_blockHeights {counts widths : List K} (hlen : counts.length = widths.length)
    (hne : ∀ w ∈ widths, w ≠ 0) (hsum : counts.sum ≠ 0) :
    (List.zipWith (· * ·) (blockHeights counts widths) widths).sum = 1 := by
  rw [blockHeights, blockHeights_mul_widths counts.sum hlen hne]
  simp only [div_eq_mul_inv]
  rw [List.sum_map_mul_right, List.map_id', mul_inv_cancel₀ hsum]

theorem blockWidths_pos [IsStrictOrderedRing K] {edges : List K}
    (inc : edges.Pairwise (· < ·)) : ∀ w ∈ blockWidths edges, 0 < w := by
  induction edges with
  | nil => simp [blockWidths]
  | cons a edges ih =>
    cases edges with
    | nil => simp [blockWidths]
    | cons b edges =>
      intro w hw
      rw [blockWidths, List.dropLast_cons_cons, List.tail_cons, List.zipWith_cons_cons] at hw
      obtain rfl | hmem := List.mem_cons.mp hw
      · exact sub_pos.mpr (List.rel_of_pairwise_cons inc (by simp))
      · exact ih inc.of_cons w hmem

omit [LinearOrder K] in
theorem length_blockWidths (edges : List K) :
    (blockWidths edges).length = edges.length - 1 := by
  simp [blockWidths]

end Area

section Blocks

/-- What `build_blocks` makes of an array `x`, its weights and the change points,
given the `counts` its heights were made from. -/
structure CountedBlocks (x changePoints weights : List K) (blocks : BayesHistogram K)
    (counts : List K) : Prop where
  edges : blocks.edges = changePoints
  first_block : ∀ v ∈ x, InBlock changePoints (firstBlock changePoints v) v ∧
    ∀ m < firstBlock changePoints v, ¬ InBlock changePoints m v
  counts_eq : counts = (List.range' 1 (changePoints.length - 1)).map fun j =>
    tally (firstBlock changePoints) j x weights
  counts_sum : counts.sum = weights.sum
  heights : blocks.heights = blockHeights counts blocks.widths
  denominators : ∀ w ∈ blocks.widths, counts.sum * w ≠ 0
  area : (List.zipWith (· * ·) blocks.heights blocks.widths).sum = 1
  heights_nonneg : ∀ h ∈ blocks.heights, 0 ≤ h
  left_edges : List.zipWith (fun c w => c - w / 2) blocks.centers blocks.widths =
    changePoints.dropLast
  right_edges : List.zipWith (fun c w => c + w / 2) blocks.centers blocks.widths =
    changePoints.tail

omit [LinearOrder K] in
theorem zipWith_centers_widths (f : K → K → K) (changePoints : List K) :
    List.zipWith f (blockCenters changePoints) (blockWidths changePoints) =
      (changePoints.dropLast.zip changePoints.tail).map fun p =>
        f (0.5 * (p.1 + p.2)) (p.2 - p.1) := by
  simp only [blockCenters, blockWidths, ← List.map_uncurry_zip_eq_zipWith, List.zip_map',
    List.map_map]
  rfl

theorem centers_sub_widths [IsStrictOrderedRing K] (changePoints : List K) :
    List.zipWith (fun c w => c - w / 2) (blockCenters changePoints) (blockWidths changePoints) =
      changePoints.dropLast := by
  have hedge : ∀ p : K × K, 0.5 * (p.1 + p.2) - (p.2 - p.1) / 2 = p.1 := fun p => by ring
  simp only [zipWith_centers_widths, hedge]
  exact List.map_fst_zip (by rw [List.length_dropLast, List.length_tail])

theorem centers_add_widths [IsStrictOrderedRing K] (changePoints : List K) :
    List.zipWith (fun c w => c + w / 2) (blockCenters changePoints) (blockWidths changePoints) =
      changePoints.tail := by
  have hedge : ∀ p : K × K, 0.5 * (p.1 + p.2) + (p.2 - p.1) / 2 = p.2 := fun p => by ring
  simp only [zipWith_centers_widths, hedge]
  exact List.map_snd_zip (by rw [List.length_dropLast, List.length_tail])

theorem tally_nonneg [IsStrictOrderedRing K] (owner : K → ℕ) (j : ℕ) {x weights : List K}
    (hpos : ∀ w ∈ weights, 0 < w) : 0 ≤ tally owner j x weights := by
  induction x generalizing weights with
  | nil => rfl
  | cons v x ih =>
    cases weights with
    | nil => rfl
    | cons w weights =>
      have hrest := ih fun u hu => hpos u (List.mem_cons_of_mem w hu)
      have hw := (hpos w (by simp)).le
      rw [tally]
      split_ifs
      · exact add_nonneg hw hrest
      · exact add_nonneg le_rfl hrest

omit [Field K] in
theorem between_ends {x : List K} (sorted : x.Pairwise (· ≤ ·)) {lo hi : K}
    (hlo : x.head? = some lo) (hhi : x.getLast? = some hi) : ∀ v ∈ x, lo ≤ v ∧ v ≤ hi := by
  intro v hv
  obtain ⟨i, hi'⟩ := exists_elem_of_mem hv
  have hrange := elem_range hi'
  rw [← elem_one] at hlo
  rw [← elem_length] at hhi
  constructor
  · obtain rfl | hlt := hrange.1.eq_or_lt
    · exact (Option.some.inj (hlo.symm.trans hi')).le
    · exact pairwise_iff_elem.mp sorted 1 i lo v hlt hlo hi'
  · obtain hlast | hlt := hrange.2.eq_or_lt
    · rw [← hlast] at hhi
      exact (Option.some.inj (hi'.symm.trans hhi)).le
    · exact pairwise_iff_elem.mp sorted i x.length v hi hlt hi' hhi

/-- The counting loop on any ordered data between the first and the last edge:
each value goes to the first block that contains it. -/
theorem countBetweenEdges_first_block {x changePoints weights : List K}
    (sorted : x.Pairwise (· ≤ ·)) (hlen : x.length = weights.length)
    (inc : changePoints.Pairwise (· < ·)) (htwo : 2 ≤ changePoints.length)
    (covered : ∀ v ∈ x, ∃ m, InBlock changePoints m v) :
    countBetweenEdges x changePoints weights 0 = some
      ((List.range' 1 (changePoints.length - 1)).map fun j =>
        tally (firstBlock changePoints) j x weights) := by
  obtain ⟨counts, hcounts, hread⟩ :=
    countBetweenEdges_tally 0 (inc.imp le_of_lt) hlen sorted covered
  obtain ⟨counts', hcounts', hsize, _⟩ :=
    countBetweenEdges_total x changePoints weights 0 htwo hlen
  obtain rfl : counts' = counts := Option.some.inj (hcounts'.symm.trans hcounts)
  rw [hcounts, Option.some.injEq]
  apply ext_elem
  intro k
  by_cases hk : 1 ≤ k ∧ k ≤ changePoints.length - 1
  · rw [hread k hk.1 hk.2, elem_map, elem_range' hk.1 hk.2]
    rfl
  · rw [elem_eq_none_iff.mpr (by omega), elem_eq_none_iff.mpr]
    rw [List.length_map, List.length_range']
    omega

/-- `build_blocks` on any ordered array with positive weights and change points
from its first element to its last. -/
theorem buildBlocks_counted [IsStrictOrderedRing K] (x changePoints weights : List K)
    (sorted : x.Pairwise (· ≤ ·)) (hlen : x.length = weights.length)
    (hpos : ∀ w ∈ weights, 0 < w) (inc : changePoints.Pairwise (· < ·))
    (htwo : 2 ≤ changePoints.length) (hfirst : changePoints.head? = x.head?)
    (hlast : changePoints.getLast? = x.getLast?) :
    ∃ blocks counts, countBetweenEdges x changePoints weights 0 = some counts ∧
      buildBlocks x changePoints weights = some blocks ∧
      CountedBlocks x changePoints weights blocks counts := by
  obtain ⟨lo, hlo⟩ := exists_elem (a := changePoints) le_rfl (show 1 ≤ _ by omega)
  obtain ⟨hi, hhi⟩ := exists_elem (a := changePoints) (show 1 ≤ _ by omega) le_rfl
  rw [elem_one] at hlo
  rw [elem_length] at hhi
  have hends := between_ends sorted (hfirst.symm.trans hlo) (hlast.symm.trans hhi)
  have covered : ∀ v ∈ x, ∃ m, InBlock changePoints m v := fun v hv =>
    covered_of_between htwo hlo hhi (hends v hv).1 (hends v hv).2
  obtain ⟨counts, hcounts, hsize, hsum⟩ :=
    countBetweenEdges_total x changePoints weights 0 htwo hlen
  have hcounts_eq : counts = _ := Option.some.inj
    (hcounts.symm.trans (countBetweenEdges_first_block sorted hlen inc htwo covered))
  have hnonempty : weights ≠ [] := by
    rintro rfl
    rw [List.length_eq_zero_iff.mp hlen, hlo] at hfirst
    cases hfirst
  have htotal : 0 < counts.sum := hsum ▸ List.sum_pos weights hpos hnonempty
  have hwidths := blockWidths_pos inc
  refine ⟨_, counts, hcounts, by rw [buildBlocks, hcounts]; rfl, ?_⟩
  exact {
    edges := rfl
    first_block := fun v hv => firstBlock_spec changePoints v (covered v hv)
    counts_eq := hcounts_eq
    counts_sum := hsum
    heights := rfl
    denominators := fun w hw => (mul_pos htotal (hwidths w hw)).ne'
    area := sum_blockHeights (by rw [hsize, length_blockWidths]; rfl)
      (fun w hw => (hwidths w hw).ne') htotal.ne'
    heights_nonneg := by
      intro h hh
      rw [blockHeights, ← List.map_uncurry_zip_eq_zipWith] at hh
      obtain ⟨⟨c, w⟩, hcw, rfl⟩ := List.mem_map.mp hh
      obtain ⟨hc, hw⟩ := List.of_mem_zip hcw
      rw [hcounts_eq] at hc
      obtain ⟨j, _, rfl⟩ := List.mem_map.mp hc
      exact div_nonneg (tally_nonneg _ j hpos) (mul_pos htotal (hwidths w hw)).le
    left_edges := centers_sub_widths changePoints
    right_edges := centers_add_widths changePoints }

/-- Three values, one of them on an inner edge and one block without a value. -/
theorem buildBlocks_counted_three_values :
    ∃ blocks counts, countBetweenEdges [(0 : ℚ), 1, 4] [0, 1, 2, 4] [2, 3, 1] 0 = some counts ∧
      buildBlocks [(0 : ℚ), 1, 4] [0, 1, 2, 4] [2, 3, 1] = some blocks ∧
      CountedBlocks [(0 : ℚ), 1, 4] [0, 1, 2, 4] [2, 3, 1] blocks counts :=
  buildBlocks_counted [0, 1, 4] [0, 1, 2, 4] [2, 3, 1] (by norm_num) rfl (by norm_num)
    (by norm_num) (by simp) rfl rfl

end Blocks

section Counts

variable {x unique weights edges : List K}

theorem countBetweenEdges_owned (runs : Runs x unique weights)
    (inc : edges.Pairwise (· < ·)) (covered : ∀ v ∈ x, ∃ m, InBlock edges m v)
    (htwo : 2 ≤ edges.length) :
    countBetweenEdges unique edges weights 0 = some
      ((List.range' 1 (edges.length - 1)).map fun j =>
        (x.countP (firstBlock edges · = j) : K)) := by
  rw [countBetweenEdges_first_block (runs.increasing.imp le_of_lt) runs.length_eq.symm inc htwo
    fun v hv => covered v ((runs.mem v).mp hv)]
  congr 2
  funext j
  rw [runs.weights_eq, tally_map, runs.sum_filter]

theorem buildBlocks_properDensity [IsStrictOrderedRing K] {sorted : List K} {first last : K}
    (h : Prepared x sorted unique weights first last) (inc : edges.Pairwise (· < ·))
    (hfirst : edges.head? = some first) (hlast : edges.getLast? = some last)
    (htwo : 2 ≤ edges.length) :
    ∃ blocks counts, countBetweenEdges unique edges weights 0 = some counts ∧
      buildBlocks unique edges weights = some blocks ∧ ProperDensity x blocks counts := by
  have covered : ∀ v ∈ x, ∃ m, InBlock edges m v := fun v hv =>
    covered_of_between htwo hfirst hlast (h.isLeast.2 hv) (h.isGreatest.2 hv)
  have hcounts := countBetweenEdges_owned h.runs inc covered htwo
  obtain ⟨counts, hcounts', hsize, hsum⟩ :=
    countBetweenEdges_total unique edges weights 0 htwo h.length_eq
  rw [h.runs.sum_weights] at hsum
  have hx : x.length ≠ 0 := by
    rw [Ne, List.length_eq_zero_iff]
    exact List.ne_nil_of_mem h.isLeast.1
  refine ⟨_, counts, hcounts', by rw [buildBlocks, hcounts']; rfl, ?_⟩
  exact {
    size := by simp only; omega
    increasing := inc
    first := ⟨first, hfirst, h.isLeast⟩
    last := ⟨last, hlast, h.isGreatest⟩
    counted := ⟨firstBlock edges, fun v hv => (firstBlock_spec edges v (covered v hv)).1,
      Option.some.inj (hcounts'.symm.trans hcounts)⟩
    counts_sum := hsum
    heights := rfl
    area := sum_blockHeights (by rw [hsize, length_blockWidths]; rfl)
      (fun w hw => (blockWidths_pos inc w hw).ne') (by rw [hsum]; exact_mod_cast hx) }

end Counts

/-- The first leaf of the split is wider than `dt`. -/
def LeftLeafWide (x : List K) (resolution : ℤ) : Prop :=
  resolutionStep (edgeAt (distinct x) (distinct x).length - edgeAt (distinct x) 1)
      (some resolution) <
    edgeAt (distinct x) (leftLeafSize (distinct x).length) - edgeAt (distinct x) 1

instance (x : List K) (resolution : ℤ) : Decidable (LeftLeafWide x resolution) :=
  inferInstanceAs (Decidable (_ < _))

theorem leftLeafWide_iff {x sorted unique weights : List K} {first last leafEnd : K}
    (h : Prepared x sorted unique weights first last)
    (hleafEnd : elem unique (leftLeafSize unique.length) = some leafEnd) (resolution : ℤ) :
    LeftLeafWide x resolution ↔
      resolutionStep (last - first) (some resolution) < leafEnd - first := by
  rw [LeftLeafWide, ← Runs.unique_eq h.runs, edgeAt_eq hleafEnd,
    edgeAt_eq ((elem_one unique).trans h.head), edgeAt_eq ((elem_length unique).trans h.last)]

theorem leftLeafWide_of_card_le [IsStrictOrderedRing K] {x : List K} {resolution : ℤ}
    (htwo : 2 ≤ x.toFinset.card) (hsmall : x.toFinset.card ≤ WORKSIZE) (hres : 2 ≤ resolution) :
    LeftLeafWide x resolution := by
  have hlen : (distinct x).length = x.toFinset.card := Finset.length_sort _
  have inc : (distinct x).Pairwise (· < ·) := x.toFinset.sortedLT_sort.pairwise
  obtain ⟨first, hfirst⟩ := exists_elem (a := distinct x) (i := 1) le_rfl (by omega)
  obtain ⟨last, hlast⟩ := exists_elem (a := distinct x) (i := (distinct x).length) (by omega) le_rfl
  have hlt := pairwise_iff_elem.mp inc 1 (distinct x).length first last (by omega) hfirst hlast
  rw [LeftLeafWide, leftLeafSize_of_le (hlen.trans_le hsmall), edgeAt_eq hfirst, edgeAt_eq hlast]
  exact resolutionStep_lt hlt hres

section Parallel

variable [IsStrictOrderedRing K] (log : K → K) (schedule : Schedule) {x : List K}
  {resolution : ℤ}

theorem properDensity_of_wide (hn : 20 ≤ x.length) (htwo : 2 ≤ x.toFinset.card)
    (hwide : LeftLeafWide x resolution) :
    ∃ sorted blocks counts,
      parallelBayesianBinning log schedule x (some resolution) = some (sorted, blocks) ∧
      parallelCounts log schedule x (some resolution) = some counts ∧
      ProperDensity x blocks counts := by
  obtain ⟨sorted, unique, weights, first, last, leafEnd, edges, h, hleafEnd, hpoints, inc, hcp⟩ :=
    parallelChangePoints_heavy log schedule (some resolution) hn
  have hfirst := hcp.first_mem ((leftLeafWide_iff h hleafEnd resolution).mp hwide)
  have hhead := head?_of_least inc hfirst fun c hc => (hcp.between c hc).1
  have hlast := getLast?_of_greatest inc hcp.last_mem fun c hc => (hcp.between c hc).2
  have hedges := two_le_length hfirst hcp.last_mem (h.lt_iff.mpr htwo).ne
  obtain ⟨blocks, counts, hcounts, hblocks, hproper⟩ :=
    buildBlocks_properDensity h inc hhead hlast hedges
  have hx : x.length ≠ 0 := by omega
  refine ⟨sorted, blocks, counts, ?_, ?_, hproper⟩
  · rw [parallelBayesianBinning, if_neg hx, hpoints]
    simp only [Option.bind_eq_bind, Option.bind_some, hblocks]
  · rw [parallelCounts, if_neg hx, hpoints]
    simp only [Option.bind_eq_bind, Option.bind_some, hcounts]

omit [IsStrictOrderedRing K] in
theorem buildBlocks_edges {unique edges weights : List K} {blocks : BayesHistogram K}
    (h : buildBlocks unique edges weights = some blocks) : blocks.edges = edges := by
  rw [buildBlocks, Option.bind_eq_bind, Option.bind_eq_some_iff] at h
  obtain ⟨counts, _, hblocks⟩ := h
  rw [← Option.some.inj hblocks]

/-- Without a wide first leaf the first edge lies above the least event. -/
theorem first_edge_of_narrow (hn : 20 ≤ x.length) (htwo : 2 ≤ x.toFinset.card)
    (hnarrow : ¬ LeftLeafWide x resolution) {sorted : List K} {blocks : BayesHistogram K}
    (hblocks : parallelBayesianBinning log schedule x (some resolution) = some (sorted, blocks)) :
    ∃ lo, IsLeast {v | v ∈ x} lo ∧ ∀ e ∈ blocks.edges, lo < e := by
  obtain ⟨sorted', unique, weights, first, last, leafEnd, edges, h, hleafEnd, hpoints, inc, hcp⟩ :=
    parallelChangePoints_heavy log schedule (some resolution) hn
  have hx : x.length ≠ 0 := by omega
  have hedges : blocks.edges = edges := by
    rw [parallelBayesianBinning, if_neg hx, hpoints] at hblocks
    simp only [Option.bind_eq_bind, Option.bind_some, Option.bind_eq_some_iff,
      Option.some.injEq, Prod.mk.injEq] at hblocks
    obtain ⟨built, hbuilt, _, rfl⟩ := hblocks
    exact buildBlocks_edges hbuilt
  have hcard := h.runs.card
  have hleaf := leftLeafSize_two_le (show 2 ≤ unique.length by omega)
  have hlt : first < leafEnd := pairwise_iff_elem.mp h.runs.increasing 1 _ first leafEnd (by omega)
    ((elem_one unique).trans h.head) hleafEnd
  rw [leftLeafWide_iff h hleafEnd] at hnarrow
  refine ⟨first, h.isLeast, fun e he => hlt.trans_le (hcp.leafEnd_le hnarrow e ?_)⟩
  rwa [← hedges]

end Parallel

/-- The result is a proper density exactly when the first leaf is wider than
`dt`, and it always is with at most `WORKSIZE` distinct values. -/
theorem parallelBayesianBinning_properDensity_iff [IsStrictOrderedRing K] (log : K → K)
    (schedule : Schedule) (x : List K) (resolution : ℤ) (hn : 20 ≤ x.length)
    (htwo : 2 ≤ x.toFinset.card) (hres : 2 ≤ resolution) :
    ((∃ sorted blocks counts,
        parallelBayesianBinning log schedule x (some resolution) = some (sorted, blocks) ∧
        parallelCounts log schedule x (some resolution) = some counts ∧
        ProperDensity x blocks counts) ↔ LeftLeafWide x resolution) ∧
      (x.toFinset.card ≤ WORKSIZE → LeftLeafWide x resolution) := by
  refine ⟨⟨?_, properDensity_of_wide log schedule hn htwo⟩,
    fun hsmall => leftLeafWide_of_card_le htwo hsmall hres⟩
  rintro ⟨sorted, blocks, counts, hblocks, _, hproper⟩
  by_contra hnarrow
  obtain ⟨lo, hlo, habove⟩ := first_edge_of_narrow log schedule hn htwo hnarrow hblocks
  obtain ⟨lo', hhead, hlo'⟩ := hproper.first
  exact (habove lo' (List.mem_of_mem_head? hhead)).ne (hlo.unique hlo')

theorem properDensity_twenty_events :
    ∃ sorted blocks counts,
      parallelBayesianBinning Real.log .inOrder (List.replicate 10 0 ++ List.replicate 10 1)
        (some 2) = some (sorted, blocks) ∧
      parallelCounts Real.log .inOrder (List.replicate 10 0 ++ List.replicate 10 1)
        (some 2) = some counts ∧
      ProperDensity (List.replicate 10 0 ++ List.replicate 10 1) blocks counts := by
  have hcard : (List.replicate 10 (0 : ℝ) ++ List.replicate 10 1).toFinset.card = 2 := by simp
  obtain ⟨hiff, hsmall⟩ := parallelBayesianBinning_properDensity_iff Real.log .inOrder
    (List.replicate 10 0 ++ List.replicate 10 1) 2 (by simp) hcard.ge le_rfl
  exact hiff.mpr (hsmall (by rw [hcard]; decide))

/-- 2048 events one apart and a far one: the split cuts off a narrow first leaf. -/
def narrowEvents : List ℝ := (List.range 2048).map (fun i : ℕ => (i : ℝ)) ++ [1000000]

theorem length_narrowEvents : narrowEvents.length = 2049 := by
  simp [narrowEvents]

theorem elem_narrowEvents {i : ℕ} (hi : i < 2048) : elem narrowEvents (i + 1) = some (i : ℝ) := by
  rw [narrowEvents, elem_append_left (by simp; omega), elem_map, elem_succ,
    List.getElem?_range hi, Option.map_some]

theorem narrowEvents_increasing : narrowEvents.Pairwise (· < ·) := by
  refine List.pairwise_append.mpr ⟨List.pairwise_map.mpr ?_, List.pairwise_singleton _ _, ?_⟩
  · exact List.pairwise_lt_range.imp fun h => Nat.cast_lt.mpr h
  · intro a ha b hb
    obtain ⟨i, hi, rfl⟩ := List.mem_map.mp ha
    rw [List.mem_singleton.mp hb]
    exact_mod_cast (List.mem_range.mp hi).trans (by norm_num)

theorem distinct_narrowEvents : distinct narrowEvents = narrowEvents :=
  narrowEvents.toFinset.sortedLT_sort.eq_of_mem_iff narrowEvents_increasing.sortedLT
    fun v => by rw [Finset.mem_sort, List.mem_toFinset]

theorem narrowEvents_narrow : ¬ LeftLeafWide narrowEvents 2 := by
  have hleaf : leftLeafSize 2049 = 1023 + 1 := by
    rw [leftLeafSize_of_lt (by decide), leftLeafSize_of_le (by decide)]
  have hfirst : elem narrowEvents (0 + 1) = some ((0 : ℕ) : ℝ) := elem_narrowEvents (by norm_num)
  have hleafEnd : elem narrowEvents (1023 + 1) = some ((1023 : ℕ) : ℝ) :=
    elem_narrowEvents (by norm_num)
  have hlast : elem narrowEvents 2049 = some 1000000 := by
    rw [← length_narrowEvents, elem_length, narrowEvents, List.getLast?_concat]
  rw [LeftLeafWide, distinct_narrowEvents, length_narrowEvents, hleaf, edgeAt_eq hlast,
    edgeAt_eq hfirst, edgeAt_eq hleafEnd, resolutionStep]
  norm_num

/-- The first edge is 1023, so the histogram misses the first 1023 events. -/
theorem narrowEvents_not_properDensity :
    ¬ ∃ sorted blocks counts,
      parallelBayesianBinning Real.log .inOrder narrowEvents (some 2) = some (sorted, blocks) ∧
      parallelCounts Real.log .inOrder narrowEvents (some 2) = some counts ∧
      ProperDensity narrowEvents blocks counts := by
  rintro ⟨sorted, blocks, counts, hblocks, _, hproper⟩
  have hcard : narrowEvents.toFinset.card = 2049 := by
    rw [List.toFinset_card_of_nodup (narrowEvents_increasing.imp ne_of_lt), length_narrowEvents]
  obtain ⟨lo, hlo, habove⟩ := first_edge_of_narrow Real.log .inOrder
    (by rw [length_narrowEvents]; norm_num) (by rw [hcard]; norm_num) narrowEvents_narrow hblocks
  obtain ⟨lo', hhead, hlo'⟩ := hproper.first
  exact (habove lo' (List.mem_of_mem_head? hhead)).ne (hlo.unique hlo')

end XWebQL.HistogramDensity
