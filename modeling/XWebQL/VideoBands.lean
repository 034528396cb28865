import XWebQL.HistogramDensity
import XWebQL.Registration
import Mathlib.Analysis.Complex.ExponentialBounds

/-! Video frames as energy bands.
The client asks for the frame of a spectrum bin by the two ends of the bin, and
the server selects the closed interval between them. Two neighbouring frames
share an event that lies on their common edge; the cells of one leaf have their
inner edges between the data values, but the ends of a leaf are values. -/

namespace XWebQL.VideoBands

open FortranArray Quicksort RunLength CountBetweenEdges DivideBinning BayesianBinning
  HistogramDensity UnitGrid EventSelection Registration

variable {K : Type} [Field K] [LinearOrder K]

/-- `[centre - 0.5 * width, centre + 0.5 * width]` -/
def binBand (bin : SpectrumBin K) : K × K :=
  (bin.center - 0.5 * bin.width, bin.center + 0.5 * bin.width)

/-- The pair `(frame_start, frame_end)`. -/
def getMouseBand (x : K) (spectrum : List (SpectrumBin K)) (cdelt3 : K) : K × K :=
  match spectrum with
  | [] => (x - 0.5 * cdelt3, x + 0.5 * cdelt3)
  | bin :: rest =>
    if (binBand bin).1 ≤ x ∧ x ≤ (binBand bin).2 then binBand bin
    else getMouseBand x rest cdelt3

def videoFrames (spectrum : List (SpectrumBin K)) (cdelt3 : K) : List (K × K) :=
  spectrum.map fun bin => getMouseBand bin.center spectrum cdelt3

/-- The frames split the events of the spectrum, and count what the bins count. -/
structure FramesPartition (r : Rectangle) (events spectrumEvents : List (Event K))
    (frames : List (K × K)) (counts : List K) : Prop where
  once : ∀ e ∈ spectrumEvents,
    ∃! i, ∃ band, elem frames i = some band ∧ e ∈ viewportEvents r band.1 band.2 events
  counts : counts = frames.map fun band =>
    ((viewportEvents r band.1 band.2 events).length : K)

def edgeBands (edges : List K) : List (K × K) := edges.dropLast.zip edges.tail

section Bands

omit [Field K] [LinearOrder K] in
theorem edgeBands_cons (a b : K) (edges : List K) :
    edgeBands (a :: b :: edges) = (a, b) :: edgeBands (b :: edges) := by
  simp [edgeBands]

omit [Field K] [LinearOrder K] in
theorem elem_edgeBands {edges : List K} {i : ℕ} {band : K × K} :
    elem (edgeBands edges) i = some band ↔
      elem edges i = some band.1 ∧ elem edges (i + 1) = some band.2 := by
  cases i with
  | zero => simp
  | succ i =>
    simp only [elem_succ, edgeBands, List.getElem?_zip_eq_some, List.getElem?_tail,
      List.getElem?_dropLast]
    constructor
    · rintro ⟨h₁, h₂⟩
      split at h₁
      · exact ⟨h₁, h₂⟩
      · cases h₁
    · rintro ⟨h₁, h₂⟩
      have hlen := (List.getElem?_eq_some_iff.mp h₂).1
      exact ⟨by rw [if_pos (by omega), h₁], h₂⟩

omit [Field K] in
theorem exists_band_iff {edges : List K} {i : ℕ} {v : K} :
    (∃ band, elem (edgeBands edges) i = some band ∧ band.1 ≤ v ∧ v ≤ band.2) ↔
      InBlock edges i v := by
  constructor
  · rintro ⟨band, hband, h⟩
    obtain ⟨h₁, h₂⟩ := elem_edgeBands.mp hband
    exact ⟨band.1, band.2, h₁, h₂, h⟩
  · rintro ⟨lo, hi, hlo, hhi, h⟩
    exact ⟨(lo, hi), elem_edgeBands.mpr ⟨hlo, hhi⟩, h⟩

variable [IsStrictOrderedRing K]

theorem getMouseBand_center {spectrum : List (SpectrumBin K)} (cdelt3 : K)
    (ordered : (spectrum.map binBand).Pairwise fun p q => p.2 ≤ q.1)
    (hpos : ∀ bin ∈ spectrum, 0 < bin.width) :
    ∀ bin ∈ spectrum, getMouseBand bin.center spectrum cdelt3 = binBand bin := by
  induction spectrum with
  | nil => simp
  | cons head rest ih =>
    intro bin hbin
    have hwidth := hpos bin hbin
    rw [getMouseBand]
    obtain rfl | hmem := List.mem_cons.mp hbin
    · rw [if_pos]
      simp only [binBand]
      constructor <;> linarith
    · have hafter := List.rel_of_pairwise_cons ordered (List.mem_map_of_mem (f := binBand) hmem)
      rw [if_neg, ih ordered.of_cons (fun b hb => hpos b (List.mem_cons_of_mem head hb)) bin hmem]
      rintro ⟨_, hle⟩
      simp only [binBand] at hafter hle
      linarith

theorem videoFrames_eq {spectrum : List (SpectrumBin K)} (cdelt3 : K)
    (ordered : (spectrum.map binBand).Pairwise fun p q => p.2 ≤ q.1)
    (hpos : ∀ bin ∈ spectrum, 0 < bin.width) :
    videoFrames spectrum cdelt3 = spectrum.map binBand :=
  List.map_congr_left fun bin hbin => getMouseBand_center cdelt3 ordered hpos bin hbin

omit [Field K] [IsStrictOrderedRing K] in
theorem edgeBands_ordered {edges : List K} (inc : edges.Pairwise (· < ·)) :
    (edgeBands edges).Pairwise fun p q => p.2 ≤ q.1 := by
  apply pairwise_iff_elem.mpr
  intro i j p q hij hp hq
  obtain ⟨_, hp₂⟩ := elem_edgeBands.mp hp
  obtain ⟨hq₁, _⟩ := elem_edgeBands.mp hq
  obtain rfl | hlt := (Nat.succ_le_of_lt hij).eq_or_lt
  · exact (Option.some.inj (hp₂.symm.trans hq₁)).le
  · exact (pairwise_iff_elem.mp inc (i + 1) j p.2 q.1 hlt hp₂ hq₁).le

omit [LinearOrder K] [IsStrictOrderedRing K] in
theorem binBand_block [CharZero K] (a b h : K) :
    binBand ⟨0.5 * (a + b), h, b - a⟩ = (a, b) := by
  rw [binBand, Prod.mk.injEq]
  constructor <;> simp only <;> ring

omit [LinearOrder K] [IsStrictOrderedRing K] in
theorem blocks_binBand [CharZero K] {edges heights : List K}
    (hlen : heights.length = edges.length - 1) :
    (List.zipWith (fun c hw => (⟨c, hw.1, hw.2⟩ : SpectrumBin K)) (blockCenters edges)
      (heights.zip (blockWidths edges))).map binBand = edgeBands edges := by
  induction edges generalizing heights with
  | nil => simp [blockCenters, edgeBands]
  | cons a edges ih =>
    cases edges with
    | nil => simp [blockCenters, edgeBands]
    | cons b edges =>
      cases heights with
      | nil => simp at hlen
      | cons h heights =>
        have step := @ih heights (by simpa using hlen)
        rw [edgeBands_cons, ← step]
        simp only [blockCenters, blockWidths, List.dropLast_cons_cons, List.tail_cons,
          List.zipWith_cons_cons, List.zip_cons_cons, List.map_cons, binBand_block]

theorem videoFrames_blocks {unique edges weights : List K} {blocks : BayesHistogram K}
    (h : buildBlocks unique edges weights = some blocks) (hne : unique ≠ [])
    (hlen : unique.length = weights.length) (inc : edges.Pairwise (· < ·)) (cdelt3 : K) :
    videoFrames (spectrumBins blocks) cdelt3 = edgeBands edges := by
  have htwo := (buildBlocks_isSome_iff hne hlen).mp (by rw [h]; rfl)
  obtain ⟨counts, hcounts, hsize, _⟩ :=
    countBetweenEdges_total unique edges weights 0 htwo hlen
  rw [buildBlocks, hcounts, Option.bind_eq_bind, Option.bind_some, Option.some.injEq] at h
  have hbands : (spectrumBins blocks).map binBand = edgeBands edges := by
    rw [← h]
    refine blocks_binBand ?_
    rw [blockHeights, List.length_zipWith, hsize, length_blockWidths]
    omega
  rw [videoFrames_eq cdelt3 (hbands ▸ edgeBands_ordered inc), hbands]
  intro bin hbin
  have hmem := List.mem_map_of_mem (f := binBand) hbin
  rw [hbands] at hmem
  obtain ⟨i, hi⟩ := exists_elem_of_mem hmem
  obtain ⟨h₁, h₂⟩ := elem_edgeBands.mp hi
  have hlt := pairwise_iff_elem.mp inc i (i + 1) _ _ (Nat.lt_succ_self i) h₁ h₂
  simp only [binBand] at hlt
  linarith

end Bands

section Edges

variable {edges unique : List K} {first last v : K}

omit [Field K] in
theorem inBlock_disjoint (inc : edges.Pairwise (· < ·)) (hfirst : edges.head? = some first)
    (hlast : edges.getLast? = some last) (inner : ∀ c ∈ edges, c = first ∨ c = last ∨ c ∉ unique)
    (hv : v ∈ unique) {i j : ℕ} (hij : i < j) (hi : InBlock edges i v) : ¬ InBlock edges j v := by
  rintro ⟨lo, hi', hlo, hhi', hlov, _⟩
  obtain ⟨_, hi, hloi, hhi, _, hvhi⟩ := hi
  -- the value lies on the lower edge of the later block
  have hle : hi ≤ lo := by
    obtain rfl | hlt := (Nat.succ_le_of_lt hij).eq_or_lt
    · exact (Option.some.inj (hhi.symm.trans hlo)).le
    · exact (pairwise_iff_elem.mp inc (i + 1) j hi lo hlt hhi hlo).le
  obtain rfl : lo = v := le_antisymm hlov (hvhi.trans hle)
  obtain rfl | rfl | hnot := inner lo (mem_of_elem hlo)
  · have hpos := (elem_range hloi).1
    exact (pairwise_iff_elem.mp inc 1 j lo lo (by omega) ((elem_one edges).trans hfirst) hlo).ne rfl
  · have hlen := (elem_range hhi').2
    exact (pairwise_iff_elem.mp inc j edges.length lo lo (by omega) hlo
      ((elem_length edges).trans hlast)).ne rfl
  · exact hnot hv

omit [Field K] in
theorem inBlock_unique (inc : edges.Pairwise (· < ·)) (hfirst : edges.head? = some first)
    (hlast : edges.getLast? = some last) (inner : ∀ c ∈ edges, c = first ∨ c = last ∨ c ∉ unique)
    (hv : v ∈ unique) {i j : ℕ} (hi : InBlock edges i v) (hj : InBlock edges j v) : i = j := by
  obtain hlt | heq | hgt := lt_trichotomy i j
  · exact absurd hj (inBlock_disjoint inc hfirst hlast inner hv hlt hi)
  · exact heq
  · exact absurd hi (inBlock_disjoint inc hfirst hlast inner hv hgt hj)

end Edges

section Selection

variable {r : Rectangle} {events : List (Event K)}

omit [Field K] in
theorem mem_viewportEvents (inside : ∀ e ∈ events, r.Contains e.pixel) {e : Event K}
    (he : e ∈ events) {lo hi : K} :
    e ∈ viewportEvents r lo hi events ↔ lo ≤ e.energy ∧ e.energy ≤ hi := by
  rw [viewportEvents, List.mem_filter, decide_eq_true_eq]
  exact ⟨fun h => h.2.2, fun h => ⟨he, inside e he, h⟩⟩

omit [Field K] in
theorem band_iff (inside : ∀ e ∈ events, r.Contains e.pixel) {e : Event K} (he : e ∈ events)
    (edges : List K) (i : ℕ) :
    (∃ band, elem (edgeBands edges) i = some band ∧ e ∈ viewportEvents r band.1 band.2 events) ↔
      InBlock edges i e.energy := by
  rw [← exists_band_iff]
  simp only [mem_viewportEvents inside he]

theorem length_viewportEvents (log : K → K) (inside : ∀ e ∈ events, r.Contains e.pixel)
    {lo hi : K} (hcap : hi ≤ log MAXIMUM_ENERGY) :
    (viewportEvents r lo hi events).length =
      ((cappedEvents log events).map Event.energy).countP fun v => lo ≤ v ∧ v ≤ hi := by
  rw [List.countP_map, cappedEvents, List.countP_filter, viewportEvents,
    ← List.countP_eq_length_filter]
  apply List.countP_congr
  intro e he
  simp only [decide_eq_true_eq, Bool.and_eq_true, Function.comp_apply]
  exact ⟨fun h => ⟨h.2, h.2.2.trans hcap⟩, fun h => ⟨inside e he, h.1⟩⟩

end Selection

section Partition

variable [IsStrictOrderedRing K] (log : K → K) (schedule : Schedule) {r : Rectangle}
  {events : List (Event K)} {energies sorted counts : List K} {resolution : Option ℤ}
  {blocks : BayesHistogram K} (cdelt3 : K)

omit [IsStrictOrderedRing K] in
theorem built_of_parallel {unique edges weights sorted' : List K} (hne : energies ≠ [])
    (hpoints : parallelChangePoints log schedule energies resolution =
      some (sorted', unique, edges, weights))
    (hblocks : parallelBayesianBinning log schedule energies resolution = some (sorted, blocks))
    (hcounts : parallelCounts log schedule energies resolution = some counts) :
    buildBlocks unique edges weights = some blocks ∧
      countBetweenEdges unique edges weights 0 = some counts := by
  have hx : energies.length ≠ 0 := by simpa using hne
  rw [parallelBayesianBinning, if_neg hx, hpoints] at hblocks
  rw [parallelCounts, if_neg hx, hpoints] at hcounts
  simp only [Option.bind_eq_bind, Option.bind_some, Option.bind_eq_some_iff, Option.some.injEq,
    Prod.mk.injEq] at hblocks hcounts
  obtain ⟨built, hbuilt, _, rfl⟩ := hblocks
  exact ⟨hbuilt, hcounts⟩

omit [Field K] [IsStrictOrderedRing K] in
theorem countP_firstBlock {x edges : List K} (covered : ∀ v ∈ x, ∃ m, InBlock edges m v)
    (same : ∀ v ∈ x, ∀ i j, InBlock edges i v → InBlock edges j v → i = j) {k : ℕ} {lo hi : K}
    (hlo : elem edges k = some lo) (hhi : elem edges (k + 1) = some hi) :
    x.countP (firstBlock edges · = k) = x.countP fun v => lo ≤ v ∧ v ≤ hi := by
  apply List.countP_congr
  intro v hv
  rw [decide_eq_true_eq, decide_eq_true_eq]
  have hfirstBlock := (firstBlock_spec edges v (covered v hv)).1
  constructor
  · rintro rfl
    obtain ⟨lo', hi', hlo', hhi', hv'⟩ := hfirstBlock
    obtain rfl : lo = lo' := Option.some.inj (hlo.symm.trans hlo')
    obtain rfl : hi = hi' := Option.some.inj (hhi.symm.trans hhi')
    exact hv'
  · intro hv'
    exact same v hv _ k hfirstBlock ⟨lo, hi, hlo, hhi, hv'⟩

theorem framesPartition_of_card_le (inside : ∀ e ∈ events, r.Contains e.pixel)
    (henergies : energies = (cappedEvents log events).map Event.energy)
    (hblocks : parallelBayesianBinning log schedule energies resolution = some (sorted, blocks))
    (hcounts : parallelCounts log schedule energies resolution = some counts)
    (hsmall : energies.toFinset.card ≤ WORKSIZE) :
    FramesPartition r events (cappedEvents log events)
      (videoFrames (spectrumBins blocks) cdelt3) counts := by
  by_cases hne : energies = []
  · have hcapped : cappedEvents log events = [] := by
      rw [hne] at henergies
      exact List.map_eq_nil_iff.mp henergies.symm
    rw [hne, parallelBayesianBinning, if_pos List.length_nil, Option.some.injEq,
      Prod.mk.injEq] at hblocks
    rw [hne, parallelCounts, if_pos List.length_nil, Option.some.injEq] at hcounts
    rw [← hblocks.2, ← hcounts, hcapped]
    exact ⟨fun e he => (List.not_mem_nil he).elim, rfl⟩
  obtain ⟨sorted', unique, weights, first, last, edges, h, hpoints, inc, htwo, hfirst, hlast,
    inner⟩ := parallelChangePoints_of_isSome log schedule hne hsmall (by rw [hblocks]; rfl)
  obtain ⟨hbuilt, hcount⟩ := built_of_parallel log schedule hne hpoints hblocks hcounts
  have covered : ∀ v ∈ energies, ∃ m, InBlock edges m v := fun v hv =>
    covered_of_between htwo hfirst hlast (h.isLeast.2 hv) (h.isGreatest.2 hv)
  have same : ∀ v ∈ energies, ∀ i j, InBlock edges i v → InBlock edges j v → i = j :=
    fun v hv i j => inBlock_unique inc hfirst hlast inner ((h.runs.mem v).mpr hv)
  have hcap : last ≤ log MAXIMUM_ENERGY := by
    have hmem : last ∈ energies := h.isGreatest.1
    rw [henergies] at hmem
    obtain ⟨e, he, rfl⟩ := List.mem_map.mp hmem
    exact of_decide_eq_true (List.mem_filter.mp he).2
  rw [videoFrames_blocks hbuilt h.unique_ne_nil h.length_eq inc]
  constructor
  · intro e he
    have hmem : e.energy ∈ energies := henergies ▸ List.mem_map_of_mem he
    simp only [band_iff inside (List.mem_of_mem_filter he)]
    obtain ⟨m, hm⟩ := covered e.energy hmem
    exact ⟨m, hm, fun i hi => same e.energy hmem i m hi hm⟩
  · rw [countBetweenEdges_owned h.runs inc covered htwo, Option.some.injEq] at hcount
    rw [← hcount]
    apply ext_elem
    intro k
    by_cases hk : 1 ≤ k ∧ k ≤ edges.length - 1
    · obtain ⟨lo, hlo⟩ := exists_elem (a := edges) hk.1 (by omega)
      obtain ⟨hi, hhi⟩ := exists_elem (a := edges) (i := k + 1) (by omega) (by omega)
      have hle := (le_of_getLast? inc hlast hi (mem_of_elem hhi)).trans hcap
      rw [elem_map, elem_map, elem_range' hk.1 hk.2,
        elem_edgeBands.mpr (show elem edges k = some (lo, hi).1 ∧ _ from ⟨hlo, hhi⟩),
        Option.map_some, Option.map_some, length_viewportEvents log inside hle, ← henergies]
      congr 2
      exact countP_firstBlock covered same hlo hhi
    · rw [elem_eq_none_iff.mpr, elem_eq_none_iff.mpr]
      · simp [edgeBands]
        omega
      · simp
        omega

omit [Field K] [IsStrictOrderedRing K] in
theorem inBlock_inner {edges : List K} {first last c : K} (inc : edges.Pairwise (· < ·))
    (hfirst : edges.head? = some first) (hlast : edges.getLast? = some last) (hc : c ∈ edges)
    (hlt : first < c) (hlt' : c < last) : ∃ k, InBlock edges k c ∧ InBlock edges (k + 1) c := by
  obtain ⟨k, hk⟩ := exists_elem_of_mem hc
  have hrange := elem_range hk
  have hne : k ≠ 1 := by
    rintro rfl
    rw [elem_one, hfirst] at hk
    exact hlt.ne (Option.some.inj hk)
  have hne' : k ≠ edges.length := by
    intro heq
    rw [heq, elem_length, hlast] at hk
    exact hlt'.ne' (Option.some.inj hk)
  obtain ⟨k, rfl⟩ := Nat.exists_eq_add_of_le' hrange.1
  obtain ⟨lo, hlo⟩ := exists_elem (a := edges) (i := k) (by omega) (by omega)
  obtain ⟨hi, hhi⟩ := exists_elem (a := edges) (i := k + 1 + 1) (by omega) (by omega)
  have hleft := pairwise_iff_elem.mp inc k (k + 1) lo c (by omega) hlo hk
  have hright := pairwise_iff_elem.mp inc (k + 1) (k + 1 + 1) c hi (by omega) hk hhi
  exact ⟨k, ⟨lo, c, hlo, hk, hleft.le, le_rfl⟩, ⟨c, hi, hk, hhi, le_rfl, hright.le⟩⟩

/-- Beyond `WORKSIZE` distinct energies the end of the first leaf is an edge. The
events there are in two frames, or the events before it are in none. -/
theorem not_framesPartition_of_lt (inside : ∀ e ∈ events, r.Contains e.pixel)
    (henergies : energies = (cappedEvents log events).map Event.energy)
    (hblocks : parallelBayesianBinning log schedule energies resolution = some (sorted, blocks))
    (hcounts : parallelCounts log schedule energies resolution = some counts)
    (hlarge : WORKSIZE < energies.toFinset.card) :
    ¬ FramesPartition r events (cappedEvents log events)
      (videoFrames (spectrumBins blocks) cdelt3) counts := by
  have hcard := energies.toFinset_card_le
  have hsize : 2048 < energies.toFinset.card := hlarge
  have hne : energies ≠ [] := List.ne_nil_of_length_pos (by omega)
  obtain ⟨sorted', unique, weights, first, last, leafEnd, edges, h, hleafEnd, hpoints, inc, hcp⟩ :=
    parallelChangePoints_heavy log schedule resolution (x := energies) (by omega)
  obtain ⟨hbuilt, _⟩ := built_of_parallel log schedule hne hpoints hblocks hcounts
  rw [videoFrames_blocks hbuilt h.unique_ne_nil h.length_eq inc]
  intro hpartition
  rw [← h.runs.card] at hlarge hsize
  have hbefore : first < leafEnd := pairwise_iff_elem.mp h.runs.increasing 1 _ first leafEnd
    (leftLeafSize_two_le (by omega)) ((elem_one unique).trans h.head) hleafEnd
  have hafter : leafEnd < last := pairwise_iff_elem.mp h.runs.increasing _ _ leafEnd last
    (leftLeafSize_lt hlarge) hleafEnd ((elem_length unique).trans h.last)
  have frame : ∀ v ∈ energies, ∃! i, InBlock edges i v := by
    intro v hv
    obtain ⟨e, he, rfl⟩ := List.mem_map.mp (henergies ▸ hv)
    have honce := hpartition.once e he
    simpa only [band_iff inside (List.mem_of_mem_filter he)] using honce
  by_cases hwide : resolutionStep (last - first) resolution < leafEnd - first
  · -- the frames on both sides of the leaf end share its events
    have hhead := head?_of_least inc (hcp.first_mem hwide) fun c hc => (hcp.between c hc).1
    have hlast := getLast?_of_greatest inc hcp.last_mem fun c hc => (hcp.between c hc).2
    obtain ⟨k, hleft, hright⟩ :=
      inBlock_inner inc hhead hlast hcp.leafEnd_mem hbefore hafter
    have hsame := (frame leafEnd ((h.runs.mem leafEnd).mp (mem_of_elem hleafEnd))).unique
      hleft hright
    omega
  · -- every edge lies above the first energy
    obtain ⟨i, ⟨lo, _, hlo, _, hle, _⟩, _⟩ := frame first h.isLeast.1
    exact absurd (hbefore.trans_le (hcp.leafEnd_le hwide lo (mem_of_elem hlo))) (not_lt.mpr hle)

end Partition

theorem exists_spectrum [IsStrictOrderedRing K] (hist : Hist2D) (log : K → K)
    (schedule : Schedule) (events : List (Event K)) {resolution : ℤ} (hres : 2 ≤ resolution)
    (hn : 20 ≤ ((cappedEvents log events).map Event.energy).length)
    (htwo : 2 ≤ ((cappedEvents log events).map Event.energy).toFinset.card) :
    ∃ image energies sorted blocks counts, getImage hist events = some image ∧
      spectrumEnergies log events = some energies ∧
      energies = (cappedEvents log events).map Event.energy ∧
      parallelBayesianBinning log schedule energies (some resolution) = some (sorted, blocks) ∧
      parallelCounts log schedule energies (some resolution) = some counts := by
  have hne : events ≠ [] := by
    rintro rfl
    simp [cappedEvents] at hn
  obtain ⟨image, himage, _⟩ := getImage_eq hist hne
  have hsome := (parallelBayesianBinning_heavy log schedule hn (by omega)).mpr (.inr ⟨htwo, hres⟩)
  obtain ⟨⟨sorted, blocks⟩, hblocks⟩ := Option.isSome_iff_exists.mp hsome
  have hx : ((cappedEvents log events).map Event.energy).length ≠ 0 := by omega
  obtain ⟨sorted', unique, weights, first, last, leafEnd, edges, h, _, hpoints, _⟩ :=
    parallelChangePoints_heavy log schedule (some resolution) hn
  have hx' : (cappedEvents log events).map Event.energy ≠ [] := List.ne_nil_of_length_pos (by omega)
  have hedges := (buildBlocks_isSome_iff h.unique_ne_nil h.length_eq).mp
    ((parallelBayesianBinning_isSome log schedule hx' hpoints).mp hsome)
  obtain ⟨counts, hcounts, _⟩ := countBetweenEdges_total unique edges weights 0 hedges h.length_eq
  refine ⟨image, _, sorted, blocks, counts, himage, spectrumEnergies_eq log hne, rfl, hblocks, ?_⟩
  rw [parallelCounts, if_neg hx, hpoints]
  exact hcounts

theorem three_le_log_MAXIMUM_ENERGY : (3 : ℝ) ≤ Real.log MAXIMUM_ENERGY := by
  have hexp : Real.exp 3 = Real.exp 1 ^ 3 := by
    rw [← Real.exp_nat_mul]
    norm_num
  rw [Real.le_log_iff_exp_le (by norm_num [MAXIMUM_ENERGY]), hexp, MAXIMUM_ENERGY]
  calc Real.exp 1 ^ 3 ≤ 3 ^ 3 :=
        pow_le_pow_left₀ (Real.exp_pos 1).le Real.exp_one_lt_three.le 3
    _ ≤ 20000 := by norm_num

theorem rectangle_image {hist : Hist2D} {events : List (Event K)} {image : Image}
    (hne : events ≠ []) (himage : getImage hist events = some image) :
    (initVideo (initVideoRequest (getHeader image.pixels image.bounds))).rectangle =
      image.bounds ∧ ∀ e ∈ events, image.bounds.Contains e.pixel := by
  obtain ⟨image', himage', hbounds, hpixels, -⟩ := getImage_eq hist hne
  obtain rfl : image = image' := Option.some.inj (himage.symm.trans himage')
  obtain ⟨hwidth, hheight⟩ := imageBounds_pos hne hbounds
  obtain ⟨r, hr, inside⟩ := imageBounds_spec hne
  obtain rfl : image.bounds = r := Option.some.inj (hbounds.symm.trans hr)
  rw [hpixels]
  exact ⟨rectangle_initVideo _ hwidth hheight, inside⟩

def evenEvents (K : Type) [Field K] : List (Event K) :=
  (List.range 2049).map fun i : ℕ => ⟨1, 1, i / 1000⟩

theorem cappedEvents_evenEvents : cappedEvents Real.log (evenEvents ℝ) = evenEvents ℝ := by
  rw [cappedEvents, List.filter_eq_self]
  intro e he
  obtain ⟨i, hi, rfl⟩ := List.mem_map.mp he
  have hi' : (i : ℝ) ≤ 2048 := by exact_mod_cast Nat.lt_succ_iff.mp (List.mem_range.mp hi)
  refine decide_eq_true (le_trans ?_ three_le_log_MAXIMUM_ENERGY)
  show (i : ℝ) / 1000 ≤ 3
  linarith

theorem card_evenEvents : ((evenEvents ℝ).map Event.energy).toFinset.card = 2049 := by
  have hnodup : ((evenEvents ℝ).map Event.energy).Nodup := by
    rw [evenEvents, List.map_map]
    refine (List.nodup_range).map fun i j hij => ?_
    simpa using hij
  rw [List.toFinset_card_of_nodup hnodup]
  simp [evenEvents]

end XWebQL.VideoBands
