import XWebQL.ConquerBinning

/-! The recursive split `divide_bayesian_binning`.
A range of more than `WORKSIZE` values is cut into two halves that share the
middle point, whose weight is halved for the two tasks and restored afterwards.
`leftFirst` tells for each split, named by its path from the root, which task
enters the critical section first. Every leaf returns its last edge; only an
admissible leaf also returns its first. -/

namespace XWebQL.DivideBinning

open FortranArray Quicksort RunLength ConquerBinning OptimalSegmentation

variable {K : Type} [Field K] [LinearOrder K]

/-- `weights(mid) = weights(mid) / 2` -/
def halveAt (weights : List K) (mid : ℕ) : Option (List K) := do
  let w ← elem weights mid
  put weights mid (w / 2)

/-- `weights(mid) = weights(mid) * 2` -/
def restoreAt (weights : List K) (mid : ℕ) : Option (List K) := do
  let w ← elem weights mid
  put weights mid (w * 2)

/-- The change points of all leaves, and `weights` as the call leaves it. -/
def divideBayesianBinning (log : K → K) (leftFirst : List Bool → Bool) (dt : K)
    (path : List Bool) (unique weights : List K) : Option (List K × List K) :=
  if _h : WORKSIZE < unique.length then do
    let mid := unique.length / 2
    let weights ← halveAt weights mid
    let (left, leftWeights) ← divideBayesianBinning log leftFirst dt (true :: path)
      (unique.take mid) (weights.take mid)
    let weights := leftWeights ++ weights.drop mid
    let (right, rightWeights) ← divideBayesianBinning log leftFirst dt (false :: path)
      (unique.drop (mid - 1)) (weights.drop (mid - 1))
    let weights := weights.take (mid - 1) ++ rightWeights
    let weights ← restoreAt weights mid
    some (if leftFirst path then left ++ right else right ++ left, weights)
  else do
    let changePoints ← conquerBayesianBinning log unique weights dt
    some (changePoints, weights)
termination_by unique.length
decreasing_by
  all_goals
    simp only [List.length_take, List.length_drop, WORKSIZE] at *
    omega

def leftLeafSize (L : ℕ) : ℕ :=
  if _h : WORKSIZE < L then leftLeafSize (L / 2) else L
termination_by L
decreasing_by
  simp only [WORKSIZE] at *
  omega

theorem leftLeafSize_of_le {L : ℕ} (h : L ≤ WORKSIZE) : leftLeafSize L = L := by
  rw [leftLeafSize, dif_neg (not_lt.mpr h)]

theorem leftLeafSize_of_lt {L : ℕ} (h : WORKSIZE < L) :
    leftLeafSize L = leftLeafSize (L / 2) := by
  rw [leftLeafSize, dif_pos h]

theorem leftLeafSize_le (L : ℕ) : leftLeafSize L ≤ L := by
  induction L using Nat.strong_induction_on with
  | _ L ih =>
    obtain h | h := Nat.lt_or_ge WORKSIZE L
    · have hhalf : L / 2 < L := by
        simp only [WORKSIZE] at h
        omega
      rw [leftLeafSize_of_lt h]
      exact (ih (L / 2) hhalf).trans hhalf.le
    · exact (leftLeafSize_of_le h).le

theorem leftLeafSize_lt {L : ℕ} (h : WORKSIZE < L) : leftLeafSize L < L := by
  rw [leftLeafSize_of_lt h]
  have hhalf := leftLeafSize_le (L / 2)
  simp only [WORKSIZE] at h
  omega

theorem leftLeafSize_two_le {L : ℕ} (hL : 2 ≤ L) : 2 ≤ leftLeafSize L := by
  induction L using Nat.strong_induction_on with
  | _ L ih =>
    obtain h | h := Nat.lt_or_ge WORKSIZE L
    · rw [leftLeafSize_of_lt h]
      simp only [WORKSIZE] at h
      exact ih (L / 2) (by omega) (by omega)
    · rwa [leftLeafSize_of_le h]

/-- The weights a leaf may see: all positive, and at least one except for the
halved points at the two ends. -/
structure LeafWeights (weights : List K) : Prop where
  positive : ∀ w ∈ weights, 0 < w
  inner : ∀ i w, 1 < i → i < weights.length → elem weights i = some w → 1 ≤ w

/-- What a call returns on a range from `first` to `last` whose leftmost leaf
ends at `leafEnd`. -/
structure ChangePoints (dt first leafEnd last : K) (changePoints : List K) : Prop where
  last_mem : last ∈ changePoints
  leafEnd_mem : leafEnd ∈ changePoints
  between : ∀ c ∈ changePoints, first ≤ c ∧ c ≤ last
  first_mem : dt < leafEnd - first → first ∈ changePoints
  leafEnd_le : ¬ dt < leafEnd - first → ∀ c ∈ changePoints, leafEnd ≤ c

section Leaf

variable [IsStrictOrderedRing K] (log : K → K) {unique weights : List K} {dt first last : K}

theorem conquer_wide (inc : unique.Pairwise (· < ·)) (hlen : unique.length = weights.length)
    (hpos : ∀ w ∈ weights, 0 < w) (hfirst : unique.head? = some first)
    (hlast : unique.getLast? = some last) (hweight : minCounts ≤ weights.sum)
    (hextent : dt < last - first) :
    ∃ changePoints, conquerBayesianBinning log unique weights dt = some changePoints ∧
      first ∈ changePoints ∧ last ∈ changePoints ∧
      (∀ c ∈ changePoints, first ≤ c ∧ c ≤ last) ∧
      ∀ c ∈ changePoints, c = first ∨ c = last ∨ c ∉ unique := by
  obtain ⟨edges, cuts, hedges, hcells, hcuts, hseg, -⟩ :=
    conquer_cuts log inc hlen hpos hfirst hlast hweight hextent
  have hne : unique ≠ [] := by
    rintro rfl
    simp at hfirst
  have hone : elem edges 1 = some first := by rw [hcells.first, elem_one, hfirst]
  have hend : elem edges (unique.length + 1) = some last := by
    rw [hcells.last, elem_length, hlast]
  have hsorted := CellEdges.sorted hcells inc hne
  have inRange : ∀ i ∈ cuts, 1 ≤ i ∧ i ≤ unique.length + 1 :=
    hseg.mem_range (fun i j hok => hok.2.1)
  refine ⟨cuts.map (edgeAt edges), hcuts, ?_, ?_, ?_, ?_⟩
  · exact List.mem_map.mpr ⟨1, List.mem_of_mem_head? hseg.first, edgeAt_eq hone⟩
  · exact List.mem_map.mpr ⟨_, List.mem_of_mem_getLast? hseg.last, edgeAt_eq hend⟩
  · intro c hc
    obtain ⟨i, hi, rfl⟩ := List.mem_map.mp hc
    obtain ⟨h₁, h₂⟩ := inRange i hi
    rw [← edgeAt_eq hone, ← edgeAt_eq hend]
    exact ⟨edgeAt_mono hsorted le_rfl h₁ (by rw [hcells.length]; exact h₂),
      edgeAt_mono hsorted h₁ h₂ hcells.length.ge⟩
  · intro c hc
    obtain ⟨i, hi, rfl⟩ := List.mem_map.mp hc
    obtain ⟨h₁, h₂⟩ := inRange i hi
    obtain rfl | hlt := h₁.eq_or_lt
    · exact .inl (edgeAt_eq hone)
    · obtain rfl | hlt' := h₂.eq_or_lt
      · exact .inr (.inl (edgeAt_eq hend))
      · obtain ⟨e, he⟩ := exists_elem (a := edges) h₁ (by rw [hcells.length]; exact h₂)
        rw [edgeAt_eq he]
        exact .inr (.inr (hcells.inner_not_mem inc hlt (by omega) he))

theorem conquer_of_not_wide (inc : unique.Pairwise (· < ·))
    (hlen : unique.length = weights.length) (hpos : ∀ w ∈ weights, 0 < w)
    (hfirst : unique.head? = some first) (hlast : unique.getLast? = some last)
    (hnot : ¬ (minCounts ≤ weights.sum ∧ dt < last - first)) :
    conquerBayesianBinning log unique weights dt = some [last] := by
  have hne : unique ≠ [] := by
    rintro rfl
    simp at hfirst
  obtain ⟨edges, hedges, hcells⟩ := cellEdges_spec hne
  have hwide := (wide_whole_iff hcells hlen hfirst hlast).not.mpr hnot
  rw [conquerBayesianBinning, hedges]
  exact optimalChangePoints_of_not_wide log hcells inc hlen hpos hwide hlast

end Leaf

section Split

variable {weights : List K} {mid : ℕ} {w : K}

omit [LinearOrder K] in
theorem halveAt_eq (hw : elem weights mid = some w) :
    halveAt weights mid = some (weights.set (mid - 1) (w / 2)) := by
  have hmid := elem_range hw
  simp only [halveAt, hw, Option.bind_eq_bind, Option.bind_some, put_eq_some _ hmid.1 hmid.2]

omit [LinearOrder K] in
theorem elem_halved (hw : elem weights mid = some w) (k : ℕ) :
    elem (weights.set (mid - 1) (w / 2)) k = if k = mid then some (w / 2) else elem weights k := by
  have hmid := elem_range hw
  exact elem_put (put_eq_some _ hmid.1 hmid.2) k

theorem restoreAt_halved [IsStrictOrderedRing K] (hw : elem weights mid = some w) :
    restoreAt (weights.set (mid - 1) (w / 2)) mid = some weights := by
  have hmid := elem_range hw
  have hhalf : elem (weights.set (mid - 1) (w / 2)) mid = some (w / 2) := by
    rw [elem_halved hw, if_pos rfl]
  have hput := put_eq_some (a := weights.set (mid - 1) (w / 2)) (w / 2 * 2) hmid.1
    (by rw [List.length_set]; exact hmid.2)
  simp only [restoreAt, hhalf, Option.bind_eq_bind, Option.bind_some, hput, Option.some.injEq]
  apply ext_elem
  intro k
  rw [elem_put hput, elem_halved hw]
  split_ifs with hk
  · rw [hk, hw, div_mul_cancel₀ w two_ne_zero]
  · rfl

theorem LeafWeights.halved [IsStrictOrderedRing K] (h : LeafWeights weights)
    (hw : elem weights mid = some w) : ∀ v ∈ weights.set (mid - 1) (w / 2), 0 < v := by
  intro v hv
  obtain hv | rfl := List.mem_or_eq_of_mem_set hv
  · exact h.positive v hv
  · exact half_pos (h.positive w (mem_of_elem hw))

theorem LeafWeights.left [IsStrictOrderedRing K] (h : LeafWeights weights)
    (hw : elem weights mid = some w) :
    LeafWeights ((weights.set (mid - 1) (w / 2)).take mid) where
  positive v hv := h.halved hw v (List.mem_of_mem_take hv)
  inner i v h₁ h₂ hv := by
    have hmid := elem_range hw
    rw [List.length_take, List.length_set] at h₂
    rw [elem_take (by omega), elem_halved hw, if_neg (by omega)] at hv
    exact h.inner i v h₁ (by omega) hv

theorem LeafWeights.right [IsStrictOrderedRing K] (h : LeafWeights weights)
    (hw : elem weights mid = some w) :
    LeafWeights ((weights.set (mid - 1) (w / 2)).drop (mid - 1)) where
  positive v hv := h.halved hw v (List.mem_of_mem_drop hv)
  inner i v h₁ h₂ hv := by
    have hmid := elem_range hw
    rw [List.length_drop, List.length_set] at h₂
    rw [elem_drop _ _ h₁.le, elem_halved hw, if_neg (by omega)] at hv
    exact h.inner (mid - 1 + i) v (by omega) (by omega) hv

theorem LeafWeights.heavy [IsStrictOrderedRing K] (h : LeafWeights weights)
    (hlen : 22 ≤ weights.length) : minCounts ≤ weights.sum := by
  obtain ⟨a, rest, rfl⟩ := List.exists_cons_of_length_pos (show 0 < weights.length by omega)
  rw [List.length_cons] at hlen
  have hne : rest ≠ [] := by
    rintro rfl
    simp at hlen
  have hinner : ∀ v ∈ rest.dropLast, 1 ≤ v := by
    intro v hv
    obtain ⟨i, hi⟩ := exists_elem_of_mem hv
    have hr := elem_range hi
    rw [List.length_dropLast] at hr
    rw [List.dropLast_eq_take, elem_take hr.2] at hi
    refine h.inner (i + 1) v (by omega) (by rw [List.length_cons]; omega) ?_
    obtain ⟨i, rfl⟩ := Nat.exists_eq_add_of_le' hr.1
    simpa using hi
  have hcount := List.card_nsmul_le_sum rest.dropLast 1 hinner
  have hfirst := h.positive a (by simp)
  have hlast := h.positive (rest.getLast hne) (List.mem_cons_of_mem a (List.getLast_mem hne))
  have hsum : rest.sum = rest.dropLast.sum + rest.getLast hne := by
    conv_lhs => rw [← List.dropLast_append_getLast hne]
    rw [List.sum_append, List.sum_singleton]
  have hlarge : (20 : K) ≤ rest.dropLast.length • (1 : K) := by
    rw [nsmul_one, List.length_dropLast]
    exact_mod_cast (show 20 ≤ rest.length - 1 by omega)
  rw [List.sum_cons, hsum, minCounts]
  linarith

end Split

section Halves

variable {unique : List K} {mid : ℕ} {first middle last : K}

omit [Field K] [LinearOrder K] in
theorem ends_take (hpos : 1 ≤ mid) (hmid : mid ≤ unique.length)
    (hmiddle : elem unique mid = some middle) (hfirst : unique.head? = some first) :
    (unique.take mid).head? = some first ∧ (unique.take mid).getLast? = some middle := by
  have hlen : (unique.take mid).length = mid := by
    rw [List.length_take]
    omega
  constructor
  · rw [← elem_one, elem_take hpos, elem_one, hfirst]
  · rw [← elem_length, hlen, elem_take le_rfl, hmiddle]

omit [Field K] [LinearOrder K] in
theorem ends_drop (hpos : 1 ≤ mid) (hmid : mid ≤ unique.length)
    (hmiddle : elem unique mid = some middle) (hlast : unique.getLast? = some last) :
    (unique.drop (mid - 1)).head? = some middle ∧
      (unique.drop (mid - 1)).getLast? = some last := by
  have hlen : (unique.drop (mid - 1)).length = unique.length - (mid - 1) := List.length_drop
  constructor
  · rw [← elem_one, elem_drop _ _ le_rfl, Nat.sub_add_cancel hpos, hmiddle]
  · rw [← elem_length, elem_drop _ _ (by omega), hlen,
      show mid - 1 + (unique.length - (mid - 1)) = unique.length by omega, elem_length, hlast]

end Halves

section Divide

variable [IsStrictOrderedRing K] (log : K → K) (leftFirst : List Bool → Bool) {dt : K}

variable (dt) in
/-- A leaf keeps its last edge, and the first one when it is wide. -/
theorem conquer_changePoints {unique weights : List K} {first last : K}
    (inc : unique.Pairwise (· < ·)) (hlen : unique.length = weights.length)
    (hpos : ∀ w ∈ weights, 0 < w) (hfirst : unique.head? = some first)
    (hlast : unique.getLast? = some last) (hle : first ≤ last)
    (hweight : minCounts ≤ weights.sum) :
    ∃ changePoints, conquerBayesianBinning log unique weights dt = some changePoints ∧
      ChangePoints dt first last last changePoints := by
  by_cases hextent : dt < last - first
  · obtain ⟨changePoints, hconquer, hmem, hmem', hrange, _⟩ :=
      conquer_wide log inc hlen hpos hfirst hlast hweight hextent
    exact ⟨changePoints, hconquer, hmem', hmem', hrange, fun _ => hmem,
      fun hnot => absurd hextent hnot⟩
  · refine ⟨[last], conquer_of_not_wide log inc hlen hpos hfirst hlast
      (fun h => hextent h.2), ?_, ?_, ?_, fun h => absurd h hextent, ?_⟩
    · simp
    · simp
    · simpa using hle
    · simp

omit [Field K] [IsStrictOrderedRing K] in
theorem head_le_last {unique : List K} (inc : unique.Pairwise (· < ·)) {first last : K}
    (hfirst : unique.head? = some first) (hlast : unique.getLast? = some last) :
    first ≤ last := by
  have hpos := elem_range ((elem_one unique).trans hfirst)
  obtain h | h := hpos.2.eq_or_lt
  · rw [← elem_one, h, elem_length, hlast] at hfirst
    exact (Option.some.inj hfirst).ge
  · exact (pairwise_iff_elem.mp inc 1 unique.length first last h
      ((elem_one unique).trans hfirst) ((elem_length unique).trans hlast)).le

omit [IsStrictOrderedRing K] in
theorem ChangePoints.congr {first leafEnd last : K} {changePoints edges : List K}
    (h : ChangePoints dt first leafEnd last changePoints)
    (hmem : ∀ v, v ∈ edges ↔ v ∈ changePoints) : ChangePoints dt first leafEnd last edges where
  last_mem := (hmem last).mpr h.last_mem
  leafEnd_mem := (hmem leafEnd).mpr h.leafEnd_mem
  between c hc := h.between c ((hmem c).mp hc)
  first_mem hwide := (hmem first).mpr (h.first_mem hwide)
  leafEnd_le hnarrow c hc := h.leafEnd_le hnarrow c ((hmem c).mp hc)

omit [IsStrictOrderedRing K] in
theorem ChangePoints.merge {first leafEnd middle last : K} {left right : List K}
    (hl : ChangePoints dt first leafEnd middle left) {leafEnd' : K}
    (hr : ChangePoints dt middle leafEnd' last right) (hfm : first ≤ middle)
    (hml : middle ≤ last) {merged : List K} (hperm : merged.Perm (left ++ right)) :
    ChangePoints dt first leafEnd last merged := by
  have hmem : ∀ c, c ∈ merged ↔ c ∈ left ∨ c ∈ right := fun c => by
    rw [hperm.mem_iff, List.mem_append]
  refine ⟨?_, ?_, ?_, ?_, ?_⟩
  · exact (hmem last).mpr (.inr hr.last_mem)
  · exact (hmem leafEnd).mpr (.inl hl.leafEnd_mem)
  · intro c hc
    obtain hc | hc := (hmem c).mp hc
    · exact ⟨(hl.between c hc).1, (hl.between c hc).2.trans hml⟩
    · exact ⟨hfm.trans (hr.between c hc).1, (hr.between c hc).2⟩
  · intro hwide
    exact (hmem first).mpr (.inl (hl.first_mem hwide))
  · intro hnarrow c hc
    obtain hc | hc := (hmem c).mp hc
    · exact hl.leafEnd_le hnarrow c hc
    · exact ((hl.between leafEnd hl.leafEnd_mem).2).trans (hr.between c hc).1

variable (dt) in
/-- Whatever order the two tasks finish in, the call returns the change points
of all its leaves and leaves the weights as they were. -/
theorem divideBayesianBinning_spec (path : List Bool) (unique weights : List K)
    (first last : K) (inc : unique.Pairwise (· < ·)) (hlen : unique.length = weights.length)
    (hw : LeafWeights weights) (hfirst : unique.head? = some first)
    (hlast : unique.getLast? = some last) (hweight : minCounts ≤ weights.sum) :
    ∃ changePoints leafEnd, elem unique (leftLeafSize unique.length) = some leafEnd ∧
      divideBayesianBinning log leftFirst dt path unique weights =
        some (changePoints, weights) ∧
      ChangePoints dt first leafEnd last changePoints := by
  obtain ⟨n, hn⟩ : ∃ n, unique.length = n := ⟨_, rfl⟩
  induction n using Nat.strong_induction_on generalizing path unique weights first last with
  | _ n ih =>
  obtain hsmall | hlarge := Nat.lt_or_ge WORKSIZE unique.length |>.symm
  · obtain ⟨changePoints, hconquer, hpoints⟩ := conquer_changePoints log dt inc hlen
      hw.positive hfirst hlast (head_le_last inc hfirst hlast) hweight
    refine ⟨changePoints, last, ?_, ?_, hpoints⟩
    · rw [leftLeafSize_of_le hsmall, elem_length, hlast]
    · rw [divideBayesianBinning, dif_neg (not_lt.mpr hsmall), hconquer]
      rfl
  · have hsize : 2048 < unique.length := hlarge
    obtain ⟨mid, hmid⟩ : ∃ mid, unique.length / 2 = mid := ⟨_, rfl⟩
    obtain ⟨w, hmw⟩ := exists_elem (a := weights) (i := mid) (by omega) (by omega)
    obtain ⟨middle, hmiddle⟩ := exists_elem (a := unique) (i := mid) (by omega) (by omega)
    obtain ⟨hleftFirst, hleftLast⟩ := ends_take (by omega) (by omega) hmiddle hfirst
    obtain ⟨hrightFirst, hrightLast⟩ := ends_drop (by omega) (by omega) hmiddle hlast
    have hleftLen : (unique.take mid).length = mid := by
      rw [List.length_take]
      omega
    have hrightLen : (unique.drop (mid - 1)).length = unique.length - (mid - 1) :=
      List.length_drop
    obtain ⟨left, leafEnd, hleafEnd, hleft, hleftPoints⟩ := ih mid (by omega) (true :: path)
      (unique.take mid) ((weights.set (mid - 1) (w / 2)).take mid) first middle
      (inc.sublist (List.take_sublist _ _)) (by simp [hlen]) (hw.left hmw) hleftFirst hleftLast
      ((hw.left hmw).heavy (by rw [List.length_take, List.length_set]; omega)) hleftLen
    obtain ⟨right, leafEnd', _, hright, hrightPoints⟩ := ih (unique.length - (mid - 1)) (by omega)
      (false :: path) (unique.drop (mid - 1)) ((weights.set (mid - 1) (w / 2)).drop (mid - 1))
      middle last (inc.sublist (List.drop_sublist _ _)) (by simp [hlen]) (hw.right hmw)
      hrightFirst hrightLast
      ((hw.right hmw).heavy (by rw [List.length_drop, List.length_set]; omega)) hrightLen
    refine ⟨if leftFirst path then left ++ right else right ++ left, leafEnd, ?_, ?_, ?_⟩
    · rw [hleftLen] at hleafEnd
      rw [leftLeafSize_of_lt hlarge, hmid, ← hleafEnd, elem_take (leftLeafSize_le mid)]
    · rw [divideBayesianBinning, dif_pos hlarge]
      simp only [hmid, halveAt_eq hmw, hleft, hright, restoreAt_halved hmw, Option.bind_eq_bind,
        Option.bind_some, List.take_append_drop]
    · refine hleftPoints.merge hrightPoints (hleftPoints.between _ hleftPoints.last_mem).1
        (hrightPoints.between _ hrightPoints.last_mem).1 ?_
      split_ifs
      · exact List.Perm.refl _
      · exact List.perm_append_comm

end Divide

end XWebQL.DivideBinning
