import XWebQL.DivideBinning
import Mathlib.Analysis.SpecialFunctions.Log.Basic
import Mathlib.Data.Finset.Sort

/-! `build_blocks` and the three public binning functions.
A result `some (x, blocks)` holds the array as the call leaves it (sorted) and
the histogram; it says that no index left its array. The counts of the blocks
are local to `build_blocks`; `parallelCounts` runs the same code up to them. -/

namespace XWebQL.BayesianBinning

open FortranArray Quicksort RunLength CountBetweenEdges ConquerBinning DivideBinning

variable {K : Type} [Field K] [LinearOrder K]

/-- `type, bind(c) :: BayesHistogram` -/
structure BayesHistogram (K : Type) where
  edges : List K
  centers : List K
  widths : List K
  heights : List K
  n : ℕ

/-- `BayesHistogram(c_null_ptr, c_null_ptr, c_null_ptr, c_null_ptr, 0)` -/
def BayesHistogram.empty : BayesHistogram K := ⟨[], [], [], [], 0⟩

/-- `change_points(2:len) - change_points(1:len-1)` -/
def blockWidths (changePoints : List K) : List K :=
  List.zipWith (fun a b => b - a) changePoints.dropLast changePoints.tail

/-- `0.5 * (change_points(1:len-1) + change_points(2:len))` -/
def blockCenters (changePoints : List K) : List K :=
  List.zipWith (fun a b => 0.5 * (a + b)) changePoints.dropLast changePoints.tail

/-- `counts / (total * widths)` -/
def blockHeights (counts widths : List K) : List K :=
  List.zipWith (fun c w => c / (counts.sum * w)) counts widths

def buildBlocks (x changePoints weights : List K) : Option (BayesHistogram K) := do
  let counts ← countBetweenEdges x changePoints weights 0
  some {
    edges := changePoints
    centers := blockCenters changePoints
    widths := blockWidths changePoints
    heights := blockHeights counts (blockWidths changePoints)
    n := changePoints.length - 1 }

/-- `dt = abs(extent / resolution)`, or `0.0` without a resolution. -/
def resolutionStep (extent : K) : Option ℤ → K
  | some resolution => |extent / resolution|
  | none => 0

structure Schedule where
  sorting : List Bool → Bool
  binning : List Bool → Bool

def Schedule.inOrder : Schedule := ⟨fun _ => true, fun _ => true⟩

/-- `call quicksort(change_points, ...); change_points = deduplicate(change_points)` -/
def mergeChangePoints (changePoints : List K) : Option (List K) := do
  let changePoints ← quicksort changePoints 1 changePoints.length
  deduplicate changePoints

/-- What `parallel_bayesian_binning` has before `build_blocks`: the sorted array,
`unique`, `change_points` and `weights`. -/
def parallelChangePoints (log : K → K) (schedule : Schedule) (x : List K)
    (resolution : Option ℤ) : Option (List K × List K × List K × List K) := do
  let x ← quicksortOmp schedule.sorting x 1 x.length
  let (unique, weights) ← runLength x
  let last ← elem unique unique.length
  let first ← elem unique 1
  let dt := resolutionStep (last - first) resolution
  let (changePoints, weights) ←
    divideBayesianBinning log schedule.binning dt [] unique weights
  let changePoints ← mergeChangePoints changePoints
  some (x, unique, changePoints, weights)

def parallelBayesianBinning (log : K → K) (schedule : Schedule) (x : List K)
    (resolution : Option ℤ) : Option (List K × BayesHistogram K) :=
  if x.length = 0 then some (x, .empty)
  else do
    let (x, unique, changePoints, weights) ← parallelChangePoints log schedule x resolution
    let blocks ← buildBlocks unique changePoints weights
    some (x, blocks)

/-- The array `counts` of `build_blocks` when `parallel_bayesian_binning` calls it. -/
def parallelCounts (log : K → K) (schedule : Schedule) (x : List K)
    (resolution : Option ℤ) : Option (List K) :=
  if x.length = 0 then some []
  else do
    let (_, unique, changePoints, weights) ← parallelChangePoints log schedule x resolution
    countBetweenEdges unique changePoints weights 0

/-- What `fast_bayesian_binning` has before `build_blocks`. -/
def fastChangePoints (log : K → K) (x : List K) (resolution : Option ℤ) :
    Option (List K × List K × List K × List K) := do
  let (x, unique, weights, edges) ← partition x
  let last ← elem unique unique.length
  let first ← elem unique 1
  let dt := resolutionStep (last - first) resolution
  let changePoints ← optimalChangePoints log unique weights edges dt
  some (x, unique, changePoints, weights)

def fastBayesianBinning (log : K → K) (x : List K) (resolution : Option ℤ) :
    Option (List K × BayesHistogram K) :=
  if x.length = 0 then some (x, .empty)
  else do
    let (x, unique, changePoints, weights) ← fastChangePoints log x resolution
    let blocks ← buildBlocks unique changePoints weights
    some (x, blocks)

/-- `pack(x, (x .gt. emin) .and. (x .le. emax))` -/
def packEnergy (emin emax : K) (x : List K) : List K :=
  x.filter fun e => emin < e ∧ e ≤ emax

/-- `x` is `intent(in)`: only the packed copy is sorted. -/
def fastBayesianBinningEnergyRange (log : K → K) (schedule : Schedule) (x : List K)
    (emin emax : K) (resolution : Option ℤ) : Option (BayesHistogram K) :=
  if x.length = 0 then some .empty
  else
    let energy := packEnergy emin emax x
    if energy.length = 0 then some .empty
    else (parallelBayesianBinning log schedule energy resolution).map Prod.snd

section EndPoints

variable {a : List K} {v w : K}

omit [Field K] in
theorem head?_of_least (inc : a.Pairwise (· < ·)) (hv : v ∈ a) (least : ∀ c ∈ a, v ≤ c) :
    a.head? = some v := by
  obtain ⟨i, hi⟩ := exists_elem_of_mem hv
  have hr := elem_range hi
  obtain ⟨u, hu⟩ := exists_elem (a := a) le_rfl (hr.1.trans hr.2)
  obtain rfl | hlt := hr.1.eq_or_lt
  · rw [← elem_one, hi]
  · exact absurd (pairwise_iff_elem.mp inc 1 i u v hlt hu hi)
      (not_lt.mpr (least u (mem_of_elem hu)))

omit [Field K] in
theorem getLast?_of_greatest (inc : a.Pairwise (· < ·)) (hv : v ∈ a)
    (greatest : ∀ c ∈ a, c ≤ v) : a.getLast? = some v := by
  obtain ⟨i, hi⟩ := exists_elem_of_mem hv
  have hr := elem_range hi
  obtain ⟨u, hu⟩ := exists_elem (a := a) (hr.1.trans hr.2) le_rfl
  obtain rfl | hlt := hr.2.eq_or_lt
  · rw [← elem_length, hi]
  · exact absurd (pairwise_iff_elem.mp inc i a.length v u hlt hi hu)
      (not_lt.mpr (greatest u (mem_of_elem hu)))

omit [Field K] in
theorem le_of_head? (inc : a.Pairwise (· < ·)) (hv : a.head? = some v) : ∀ c ∈ a, v ≤ c := by
  intro c hc
  cases a with
  | nil => cases hc
  | cons b a =>
    obtain rfl : b = v := Option.some.inj hv
    obtain rfl | hmem := List.mem_cons.mp hc
    · exact le_rfl
    · exact (List.rel_of_pairwise_cons inc hmem).le

omit [Field K] in
theorem le_of_getLast? (inc : a.Pairwise (· < ·)) (hv : a.getLast? = some v) :
    ∀ c ∈ a, c ≤ v := by
  intro c hc
  obtain ⟨i, hi⟩ := exists_elem_of_mem hc
  obtain hlast | hlt := (elem_range hi).2.eq_or_lt
  · rw [hlast, elem_length, hv] at hi
    exact (Option.some.inj hi).ge
  · exact (pairwise_iff_elem.mp inc i a.length c v hlt hi ((elem_length a).trans hv)).le

omit [Field K] in
theorem head_lt_last_iff (inc : a.Pairwise (· < ·)) (hv : a.head? = some v)
    (hw : a.getLast? = some w) : v < w ↔ 2 ≤ a.length := by
  rw [← elem_one] at hv
  rw [← elem_length] at hw
  have hr := elem_range hv
  constructor
  · intro hlt
    by_contra hshort
    rw [show a.length = 1 by omega, hv] at hw
    exact hlt.ne (Option.some.inj hw)
  · intro htwo
    exact pairwise_iff_elem.mp inc 1 a.length v w (by omega) hv hw

omit [Field K] [LinearOrder K] in
theorem two_le_length (hv : v ∈ a) (hw : w ∈ a) (hne : v ≠ w) : 2 ≤ a.length := by
  obtain ⟨i, hi⟩ := exists_elem_of_mem hv
  obtain ⟨j, hj⟩ := exists_elem_of_mem hw
  have hi' := elem_range hi
  have hj' := elem_range hj
  by_contra hshort
  obtain rfl : i = j := by omega
  exact hne (Option.some.inj (hi.symm.trans hj))

end EndPoints

def distinct (x : List K) : List K := x.toFinset.sort

theorem Runs.unique_eq {x unique weights : List K} (h : Runs x unique weights) :
    unique = distinct x :=
  h.increasing.sortedLT.eq_of_mem_iff x.toFinset.sortedLT_sort fun v => by
    rw [h.mem, distinct, Finset.mem_sort, List.mem_toFinset]

omit [Field K] in
theorem mergeChangePoints_spec {changePoints : List K} (hne : changePoints ≠ []) :
    ∃ edges, mergeChangePoints changePoints = some edges ∧ edges.Pairwise (· < ·) ∧
      ∀ v, v ∈ edges ↔ v ∈ changePoints := by
  have hlen := List.length_pos_iff.mpr hne
  obtain ⟨sorted, hsort, hperm, hsorted⟩ :=
    (quicksort_sorts changePoints.length 1 changePoints.length le_rfl hlen le_rfl).whole
      changePoints rfl
  have hne' : sorted ≠ [] := by
    rintro rfl
    exact hne (hperm.nil_eq).symm
  obtain ⟨edges, hedges, hinc, hmem⟩ := deduplicate_spec hne' hsorted
  refine ⟨edges, ?_, hinc, fun v => by rw [hmem, hperm.mem_iff]⟩
  rw [mergeChangePoints, hsort]
  exact hedges

omit [Field K] in
theorem mergeChangePoints_singleton (c : K) : mergeChangePoints [c] = some [c] := by
  obtain ⟨edges, hedges, hinc, hmem⟩ := mergeChangePoints_spec (List.cons_ne_nil c [])
  have hperm : edges.Perm [c] :=
    (List.perm_ext_iff_of_nodup (hinc.imp ne_of_lt) (List.nodup_singleton c)).mpr hmem
  rw [hedges, List.perm_singleton.mp hperm]

structure Prepared (x sorted unique weights : List K) (first last : K) : Prop where
  perm : sorted.Perm x
  sorted : sorted.Pairwise (· ≤ ·)
  runs : Runs x unique weights
  head : unique.head? = some first
  last : unique.getLast? = some last

theorem exists_prepared {x sorted : List K} (hne : x ≠ []) (perm : sorted.Perm x)
    (hsorted : sorted.Pairwise (· ≤ ·)) :
    ∃ unique weights first last, runLength sorted = some (unique, weights) ∧
      Prepared x sorted unique weights first last := by
  have hne' : sorted ≠ [] := by
    rintro rfl
    exact hne perm.nil_eq.symm
  obtain ⟨unique, weights, hrun, runs⟩ := runLength_spec hne' hsorted
  have hlen : 1 ≤ unique.length := by
    obtain ⟨v, hv⟩ := List.exists_mem_of_ne_nil sorted hne'
    exact List.length_pos_of_mem ((runs.mem v).mpr hv)
  obtain ⟨first, hfirst⟩ := exists_elem (a := unique) le_rfl hlen
  obtain ⟨last, hlast⟩ := exists_elem (a := unique) hlen le_rfl
  exact ⟨unique, weights, first, last, hrun, perm, hsorted, runs.perm perm,
    (elem_one unique).symm.trans hfirst, (elem_length unique).symm.trans hlast⟩

section Prepared

variable {x sorted unique weights : List K} {first last : K}

theorem Prepared.length_eq (h : Prepared x sorted unique weights first last) :
    unique.length = weights.length :=
  h.runs.length_eq.symm

theorem Prepared.unique_ne_nil (h : Prepared x sorted unique weights first last) :
    unique ≠ [] := by
  rintro rfl
  simpa using h.head

theorem Prepared.isLeast (h : Prepared x sorted unique weights first last) :
    IsLeast {v | v ∈ x} first :=
  ⟨(h.runs.mem first).mp (List.mem_of_mem_head? h.head),
    fun v hv => le_of_head? h.runs.increasing h.head v ((h.runs.mem v).mpr hv)⟩

theorem Prepared.isGreatest (h : Prepared x sorted unique weights first last) :
    IsGreatest {v | v ∈ x} last :=
  ⟨(h.runs.mem last).mp (List.mem_of_mem_getLast? h.last),
    fun v hv => le_of_getLast? h.runs.increasing h.last v ((h.runs.mem v).mpr hv)⟩

theorem Prepared.lt_iff (h : Prepared x sorted unique weights first last) :
    first < last ↔ 2 ≤ x.toFinset.card := by
  rw [head_lt_last_iff h.runs.increasing h.head h.last, h.runs.card]

variable [IsStrictOrderedRing K]

theorem Prepared.positive (h : Prepared x sorted unique weights first last) :
    ∀ w ∈ weights, 0 < w :=
  fun w hw => zero_lt_one.trans_le (h.runs.one_le_weight w hw)

theorem Prepared.leafWeights (h : Prepared x sorted unique weights first last) :
    LeafWeights weights :=
  ⟨h.positive, fun _ w _ _ hw => h.runs.one_le_weight w (mem_of_elem hw)⟩

theorem Prepared.heavy_iff (h : Prepared x sorted unique weights first last) :
    minCounts ≤ weights.sum ↔ 20 ≤ x.length := by
  rw [h.runs.sum_weights, minCounts]
  exact_mod_cast Iff.rfl

end Prepared

theorem resolutionStep_lt_iff [IsStrictOrderedRing K] {extent : K} (hextent : 0 ≤ extent)
    {resolution : ℤ} (hres : 1 ≤ resolution) :
    resolutionStep extent (some resolution) < extent ↔ 0 < extent ∧ 2 ≤ resolution := by
  have hpos : (0 : K) < resolution := by exact_mod_cast (show 0 < resolution by omega)
  rw [resolutionStep, abs_of_nonneg (div_nonneg hextent hpos.le), div_lt_iff₀ hpos]
  obtain rfl | hextent := hextent.eq_or_lt
  · simp
  · rw [lt_mul_iff_one_lt_right hextent, and_iff_right hextent]
    norm_cast

theorem resolutionStep_lt [IsStrictOrderedRing K] {first last : K} {resolution : ℤ}
    (hlt : first < last) (hres : 2 ≤ resolution) :
    resolutionStep (last - first) (some resolution) < last - first :=
  (resolutionStep_lt_iff (sub_pos.mpr hlt).le (by omega)).mpr ⟨sub_pos.mpr hlt, hres⟩

section Stages

variable (log : K → K) (schedule : Schedule) {x : List K} (resolution : Option ℤ)

theorem parallelChangePoints_eq (hne : x ≠ []) :
    ∃ sorted unique weights first last, Prepared x sorted unique weights first last ∧
      parallelChangePoints log schedule x resolution =
        (divideBayesianBinning log schedule.binning (resolutionStep (last - first) resolution) []
          unique weights).bind fun points => (mergeChangePoints points.1).bind fun edges =>
            some (sorted, unique, edges, points.2) := by
  obtain ⟨sorted, hsort, hperm, hsorted⟩ := (quicksortOmp_sorts schedule.sorting x.length 1
    x.length le_rfl (List.length_pos_iff.mpr hne) le_rfl).whole x rfl
  obtain ⟨unique, weights, first, last, hrun, h⟩ := exists_prepared hne hperm hsorted
  refine ⟨sorted, unique, weights, first, last, h, ?_⟩
  have hfirst := (elem_one unique).trans h.head
  have hlast := (elem_length unique).trans h.last
  simp only [parallelChangePoints, hsort, hrun, hfirst, hlast, Option.bind_eq_bind,
    Option.bind_some]

theorem parallelChangePoints_single (hne : x ≠ []) (hsmall : x.toFinset.card ≤ WORKSIZE) :
    ∃ sorted unique weights first last, Prepared x sorted unique weights first last ∧
      parallelChangePoints log schedule x resolution =
        (conquerBayesianBinning log unique weights (resolutionStep (last - first) resolution)).bind
          fun changePoints => (mergeChangePoints changePoints).bind fun edges =>
            some (sorted, unique, edges, weights) := by
  obtain ⟨sorted, unique, weights, first, last, h, heq⟩ :=
    parallelChangePoints_eq log schedule resolution hne
  refine ⟨sorted, unique, weights, first, last, h, ?_⟩
  rw [heq, divideBayesianBinning, dif_neg (by rw [h.runs.card]; exact not_lt.mpr hsmall)]
  simp only [Option.bind_eq_bind, Option.bind_assoc, Option.bind_some]

omit log resolution in
theorem partition_eq (hne : x ≠ []) :
    ∃ sorted unique weights edges first last,
      partition x = some (sorted, unique, weights, edges) ∧
      cellEdges unique = some edges ∧ CellEdges unique edges ∧
      Prepared x sorted unique weights first last := by
  obtain ⟨sorted, hsort, hperm, hsorted⟩ := (quicksort_sorts x.length 1 x.length le_rfl
    (List.length_pos_iff.mpr hne) le_rfl).whole x rfl
  obtain ⟨unique, weights, first, last, hrun, h⟩ := exists_prepared hne hperm hsorted
  obtain ⟨edges, hedges, hcells⟩ := cellEdges_spec h.unique_ne_nil
  refine ⟨sorted, unique, weights, edges, first, last, ?_, hedges, hcells, h⟩
  simp only [partition, hsort, hrun, hedges, Option.bind_eq_bind, Option.bind_some]

theorem fastChangePoints_eq (hne : x ≠ []) :
    ∃ sorted unique weights first last, Prepared x sorted unique weights first last ∧
      fastChangePoints log x resolution =
        (conquerBayesianBinning log unique weights (resolutionStep (last - first) resolution)).map
          fun changePoints => (sorted, unique, changePoints, weights) := by
  obtain ⟨sorted, unique, weights, edges, first, last, hpartition, hedges, _, h⟩ :=
    partition_eq hne
  refine ⟨sorted, unique, weights, first, last, h, ?_⟩
  have hfirst := (elem_one unique).trans h.head
  have hlast := (elem_length unique).trans h.last
  simp only [fastChangePoints, hpartition, hedges, hfirst, hlast, conquerBayesianBinning,
    Option.bind_eq_bind, Option.bind_some, Option.map_eq_bind]
  rfl

theorem buildBlocks_isSome_iff {unique edges weights : List K} (hne : unique ≠ [])
    (hlen : unique.length = weights.length) :
    (buildBlocks unique edges weights).isSome ↔ 2 ≤ edges.length := by
  constructor
  · intro hsome
    by_contra hshort
    rw [buildBlocks, countBetweenEdges_eq_none 0 hne (by omega)] at hsome
    cases hsome
  · intro htwo
    obtain ⟨counts, hcounts, _⟩ := countBetweenEdges_total unique edges weights 0 htwo hlen
    rw [buildBlocks, hcounts]
    rfl

variable [IsStrictOrderedRing K]

theorem parallelChangePoints_heavy (hn : 20 ≤ x.length) :
    ∃ sorted unique weights first last leafEnd edges,
      Prepared x sorted unique weights first last ∧
      elem unique (leftLeafSize unique.length) = some leafEnd ∧
      parallelChangePoints log schedule x resolution = some (sorted, unique, edges, weights) ∧
      edges.Pairwise (· < ·) ∧
      ChangePoints (resolutionStep (last - first) resolution) first leafEnd last edges := by
  have hne : x ≠ [] := List.ne_nil_of_length_pos (by omega)
  obtain ⟨sorted, unique, weights, first, last, h, heq⟩ :=
    parallelChangePoints_eq log schedule resolution hne
  obtain ⟨changePoints, leafEnd, hleafEnd, hdivide, hpoints⟩ :=
    divideBayesianBinning_spec log schedule.binning
      (resolutionStep (last - first) resolution) [] unique weights first last
      h.runs.increasing h.length_eq h.leafWeights h.head h.last (h.heavy_iff.mpr hn)
  obtain ⟨edges, hedges, hinc, hmem⟩ :=
    mergeChangePoints_spec (List.ne_nil_of_mem hpoints.last_mem)
  refine ⟨sorted, unique, weights, first, last, leafEnd, edges, h, hleafEnd, ?_, hinc,
    hpoints.congr hmem⟩
  rw [heq, hdivide, Option.bind_some, hedges, Option.bind_some]

end Stages

section Results

variable [IsStrictOrderedRing K] (log : K → K) (schedule : Schedule) {x : List K}

omit [IsStrictOrderedRing K] in
theorem parallelBayesianBinning_isSome {resolution : Option ℤ}
    {sorted unique edges weights : List K} (hne : x ≠ [])
    (h : parallelChangePoints log schedule x resolution = some (sorted, unique, edges, weights)) :
    (parallelBayesianBinning log schedule x resolution).isSome ↔
      (buildBlocks unique edges weights).isSome := by
  rw [parallelBayesianBinning, if_neg (by simpa using hne), h]
  simp only [Option.bind_eq_bind, Option.bind_some]
  cases buildBlocks unique edges weights <;> rfl

theorem parallelChangePoints_of_isSome {resolution : Option ℤ} (hne : x ≠ [])
    (hsmall : x.toFinset.card ≤ WORKSIZE)
    (hsome : (parallelBayesianBinning log schedule x resolution).isSome) :
    ∃ sorted unique weights first last edges, Prepared x sorted unique weights first last ∧
      parallelChangePoints log schedule x resolution = some (sorted, unique, edges, weights) ∧
      edges.Pairwise (· < ·) ∧ 2 ≤ edges.length ∧ edges.head? = some first ∧
      edges.getLast? = some last ∧ ∀ c ∈ edges, c = first ∨ c = last ∨ c ∉ unique := by
  obtain ⟨sorted, unique, weights, first, last, h, heq⟩ :=
    parallelChangePoints_single log schedule resolution hne hsmall
  by_cases hwide : minCounts ≤ weights.sum ∧
      resolutionStep (last - first) resolution < last - first
  · obtain ⟨changePoints, hconquer, hfirst, hlast, hbetween, hinner⟩ := conquer_wide log
      h.runs.increasing h.length_eq h.positive h.head h.last hwide.1 hwide.2
    obtain ⟨edges, hedges, hinc, hmem⟩ := mergeChangePoints_spec (List.ne_nil_of_mem hfirst)
    rw [hconquer, Option.bind_some, hedges, Option.bind_some] at heq
    rw [parallelBayesianBinning_isSome log schedule hne heq,
      buildBlocks_isSome_iff h.unique_ne_nil h.length_eq] at hsome
    refine ⟨sorted, unique, weights, first, last, edges, h, heq, hinc, hsome, ?_, ?_, ?_⟩
    · exact head?_of_least hinc ((hmem first).mpr hfirst)
        fun c hc => (hbetween c ((hmem c).mp hc)).1
    · exact getLast?_of_greatest hinc ((hmem last).mpr hlast)
        fun c hc => (hbetween c ((hmem c).mp hc)).2
    · exact fun c hc => hinner c ((hmem c).mp hc)
  · rw [conquer_of_not_wide log h.runs.increasing h.length_eq h.positive h.head h.last hwide,
      Option.bind_some, mergeChangePoints_singleton, Option.bind_some] at heq
    rw [parallelBayesianBinning_isSome log schedule hne heq,
      buildBlocks_isSome_iff h.unique_ne_nil h.length_eq] at hsome
    simp at hsome

theorem parallelBayesianBinning_heavy {resolution : ℤ} (hn : 20 ≤ x.length)
    (hres : 1 ≤ resolution) :
    (parallelBayesianBinning log schedule x (some resolution)).isSome ↔
      WORKSIZE < x.toFinset.card ∨ 2 ≤ x.toFinset.card ∧ 2 ≤ resolution := by
  obtain ⟨sorted, unique, weights, first, last, leafEnd, edges, h, hleafEnd, hpoints, hinc, hcp⟩ :=
    parallelChangePoints_heavy log schedule (some resolution) hn
  have hne : x ≠ [] := List.ne_nil_of_length_pos (by omega)
  rw [parallelBayesianBinning_isSome log schedule hne hpoints,
    buildBlocks_isSome_iff h.unique_ne_nil h.length_eq, ← h.runs.card]
  obtain hlarge | hsmall := Nat.lt_or_ge WORKSIZE unique.length
  · -- the first leaf ends before the last value
    have hlt := leftLeafSize_lt hlarge
    have hne' := pairwise_iff_elem.mp h.runs.increasing _ _ leafEnd last hlt hleafEnd
      ((elem_length unique).trans h.last)
    simp [two_le_length hcp.leafEnd_mem hcp.last_mem hne'.ne, hlarge]
  · rw [leftLeafSize_of_le hsmall, elem_length, h.last] at hleafEnd
    obtain rfl : last = leafEnd := Option.some.inj hleafEnd
    have hle := (hcp.between last hcp.last_mem).1
    have hstep := resolutionStep_lt_iff (sub_nonneg.mpr hle) hres
    rw [sub_pos, h.lt_iff, ← h.runs.card] at hstep
    rw [or_iff_right (not_lt.mpr hsmall), ← hstep]
    constructor
    · intro htwo
      by_contra hnarrow
      obtain ⟨u, hu⟩ := exists_elem (a := edges) (i := 1) le_rfl (by omega)
      obtain ⟨v, hv⟩ := exists_elem (a := edges) (i := 2) (by omega) htwo
      have huv := pairwise_iff_elem.mp hinc 1 2 u v (by omega) hu hv
      have hlu := hcp.leafEnd_le hnarrow u (mem_of_elem hu)
      have hvl := (hcp.between v (mem_of_elem hv)).2
      exact absurd huv (not_lt.mpr (hvl.trans hlu))
    · intro hwide
      have hlt := h.lt_iff.mpr (h.runs.card ▸ (hstep.mp hwide).1)
      exact two_le_length (hcp.first_mem hwide) hcp.last_mem hlt.ne

end Results

end XWebQL.BayesianBinning
