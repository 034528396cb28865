import XWebQL.CountBetweenEdges
import XWebQL.OptimalSegmentation
import Mathlib.Algebra.Order.BigOperators.Group.List
import Mathlib.Analysis.SpecialFunctions.Log.Basic

/-! The dynamic program of `conquer_bayesian_binning` and its optimality.
Real arithmetic is exact, over any ordered field with any function `log`. The
sentinel `-1.0e38 ! -Inf` is `⊥`: it lies below every fitness, and adding the
fitness of a block to it leaves it in place. Segments run between edges, which
are numbered from `1` to `L+1`; cell `k` lies between the edges `k` and `k+1`. -/

namespace XWebQL.ConquerBinning

open FortranArray RunLength CountBetweenEdges OptimalSegmentation

variable {K : Type} [Field K] [LinearOrder K]

/-- `real(kind=c_float), parameter :: min_counts = 20.0` -/
def minCounts : K := 20

/-- `cnt_in_range * log(cnt_in_range / width) - log(wh_in_edge(size(wh_in_edge)))` -/
def fitness (log : K → K) (cntInRange width whTotal : K) : K :=
  cntInRange * log (cntInRange / width) - log whTotal

/-- `if (i .gt. 1) fitness = fitness + best(i-1)` -/
def addBest (best : List (WithBot K)) (i : ℕ) (fitness : WithBot K) : Option (WithBot K) :=
  if i > 1 then (elem best (i - 1)).map (fitness + ·) else some fitness

/-- The loop over `i = 1, ..., Q` with its two exits; the accumulator is
`fit_max` and `i_max`. -/
def innerLoop (log : K → K) (dt : K) (whInEdge edges : List K) (best : List (WithBot K))
    (q : ℕ) : List ℕ → WithBot K × ℕ → Option (WithBot K × ℕ)
  | [], acc => some acc
  | i :: is, (fitMax, iMax) => do
    let whRight ← elem whInEdge (q + 1)
    let whLeft ← elem whInEdge i
    let cntInRange := whRight - whLeft
    if cntInRange < minCounts then some (fitMax, iMax)
    else do
      let right ← elem edges (q + 1)
      let left ← elem edges i
      let width := right - left
      if width ≤ dt then some (fitMax, iMax)
      else do
        let whTotal ← elem whInEdge whInEdge.length
        let own : WithBot K := ((fitness log cntInRange width whTotal : K) : WithBot K)
        let fit ← addBest best i own
        innerLoop log dt whInEdge edges best q is
          (if fitMax < fit then (fit, i) else (fitMax, iMax))

/-- The loop over `Q = 1, ..., L`, filling `best` and `best_idx`. -/
def outerLoop (log : K → K) (dt : K) (whInEdge edges : List K) :
    List ℕ → List (WithBot K) → List ℕ → Option (List (WithBot K) × List ℕ)
  | [], best, bestIdx => some (best, bestIdx)
  | q :: qs, best, bestIdx => do
    let (fitMax, iMax) ← innerLoop log dt whInEdge edges best q (List.range' 1 q) (⊥, 0)
    outerLoop log dt whInEdge edges qs (best ++ [fitMax]) (bestIdx ++ [iMax])

/-- `iteratively peel off the last block`: the edges written to `change_points`,
which has room for `room` more of them. -/
def peel (edges : List K) (bestIdx : List ℕ) : (room L : ℕ) → Option (List K)
  | 0, L => if L > 0 then none else some []
  | room + 1, L =>
    if L > 0 then do
      let e ← elem edges L
      if L = 1 then some [e]
      else do
        let next ← elem bestIdx (L - 1)
        let rest ← peel edges bestIdx room next
        some (e :: rest)
    else some []

/-- Weights in the cells, dynamic program, backward walk and reversal: the body
shared by `conquer_bayesian_binning` and `fast_bayesian_binning`. -/
def optimalChangePoints (log : K → K) (unique weights edges : List K) (dt : K) :
    Option (List K) := do
  let whInEdge ← countBetweenEdges unique edges weights 1
  let whInEdge := cumsum whInEdge
  let L := unique.length
  let (_, bestIdx) ← outerLoop log dt whInEdge edges (List.range' 1 L) [] []
  let changePoints ← peel edges bestIdx (L + 1) (L + 1)
  some changePoints.reverse

def conquerBayesianBinning (log : K → K) (unique weights : List K) (dt : K) :
    Option (List K) := do
  let edges ← cellEdges unique
  optimalChangePoints log unique weights edges dt

/-- The weight of the cells `i, ..., j-1`. -/
def blockWeight (weights : List K) (i j : ℕ) : K :=
  ((weights.drop (i - 1)).take (j - i)).sum

def edgeAt (edges : List K) (i : ℕ) : K := (elem edges i).getD 0

def blockWidth (edges : List K) (i j : ℕ) : K := edgeAt edges j - edgeAt edges i

def blockFitness (log : K → K) (weights edges : List K) (i j : ℕ) : K :=
  fitness log (blockWeight weights i j) (blockWidth edges i j) weights.sum

/-- Heavy and wide enough to be a block. -/
def Wide (weights edges : List K) (dt : K) (i j : ℕ) : Prop :=
  minCounts ≤ blockWeight weights i j ∧ dt < blockWidth edges i j

instance (weights edges : List K) (dt : K) (i j : ℕ) :
    Decidable (Wide weights edges dt i j) :=
  inferInstanceAs (Decidable (_ ∧ _))

def Admissible (weights edges : List K) (dt : K) (i j : ℕ) : Prop :=
  1 ≤ i ∧ i < j ∧ j ≤ edges.length ∧ Wide weights edges dt i j

omit [LinearOrder K] in
theorem elem_whInEdge (weights : List K) (j : ℕ) (h₁ : 1 ≤ j) (h₂ : j ≤ weights.length + 1) :
    elem (cumsum (0 :: weights)) j = some (weights.take (j - 1)).sum := by
  rw [elem_cumsum _ j h₁ (by simpa using h₂)]
  obtain ⟨j, rfl⟩ := Nat.exists_eq_add_of_le' h₁
  simp

omit [LinearOrder K] in
theorem blockWeight_eq (weights : List K) {i j : ℕ} (hi : 1 ≤ i) (hij : i ≤ j) :
    blockWeight weights i j = (weights.take (j - 1)).sum - (weights.take (i - 1)).sum := by
  have hsplit := List.take_add (l := weights) (i := i - 1) (j := j - i)
  rw [show i - 1 + (j - i) = j - 1 by omega] at hsplit
  rw [hsplit, List.sum_append, blockWeight, add_sub_cancel_left]

omit [LinearOrder K] in
theorem edgeAt_eq {edges : List K} {i : ℕ} {e : K} (h : elem edges i = some e) :
    edgeAt edges i = e := by
  rw [edgeAt, h, Option.getD_some]

omit [LinearOrder K] in
theorem map_edgeAt_range' (a : List K) : (List.range' 1 a.length).map (edgeAt a) = a := by
  apply ext_elem
  intro i
  rw [elem_map]
  obtain hi | hi : (1 ≤ i ∧ i ≤ a.length) ∨ (i = 0 ∨ a.length < i) := by omega
  · obtain ⟨v, hv⟩ := exists_elem hi.1 hi.2
    rw [elem_range' hi.1 hi.2, Option.map_some, hv, edgeAt_eq hv]
  · rw [elem_eq_none_iff.mpr hi, elem_eq_none_iff.mpr (by simpa using hi), Option.map_none]

theorem edgeAt_mono {edges : List K} (sorted : edges.Pairwise (· ≤ ·)) {i k : ℕ} (hi : 1 ≤ i)
    (hik : i ≤ k) (hk : k ≤ edges.length) : edgeAt edges i ≤ edgeAt edges k := by
  obtain ⟨u, hu⟩ := exists_elem (a := edges) hi (hik.trans hk)
  obtain ⟨v, hv⟩ := exists_elem (a := edges) (hi.trans hik) hk
  rw [edgeAt_eq hu, edgeAt_eq hv]
  obtain rfl | hlt := hik.eq_or_lt
  · exact (Option.some.inj (hu.symm.trans hv)).le
  · exact pairwise_iff_elem.mp sorted i k u v hlt hu hv

section Weights

variable [IsStrictOrderedRing K] {unique weights edges : List K}

theorem CellEdges.sorted (h : CellEdges unique edges) (inc : unique.Pairwise (· < ·))
    (hne : unique ≠ []) : edges.Pairwise (· ≤ ·) := by
  obtain hone | htwo := Nat.lt_or_ge unique.length 2
  · have hpos := List.length_pos_iff.mpr hne
    have hlen : unique.length = 1 := by omega
    apply pairwise_iff_elem.mpr
    intro i j u v hij hu hv
    have hi := elem_range hu
    have hj := elem_range hv
    rw [h.length] at hi hj
    obtain rfl : i = 1 := by omega
    obtain rfl : j = unique.length + 1 := by omega
    rw [h.first] at hu
    rw [h.last, hlen] at hv
    exact (Option.some.inj (hu.symm.trans hv)).le
  · exact (h.increasing inc htwo).imp le_of_lt

theorem CellEdges.firstBlock_eq (h : CellEdges unique edges) (inc : unique.Pairwise (· < ·))
    {k : ℕ} {v : K} (hv : elem unique k = some v) : firstBlock edges v = k := by
  have hk := elem_range hv
  have hsorted := CellEdges.sorted h inc (List.ne_nil_of_mem (mem_of_elem hv))
  obtain ⟨lo, hi, hlo, hhi, hlv, hvh, hlt, _⟩ := h.cell inc hv
  have hin : InBlock edges k v := ⟨lo, hi, hlo, hhi, hlv, hvh⟩
  obtain ⟨⟨lo', hi', hlo', hhi', hlv', hvh'⟩, hleast⟩ := firstBlock_spec edges v ⟨k, hin⟩
  have hle : firstBlock edges v ≤ k := by
    by_contra hgt
    exact hleast k (not_le.mp hgt) hin
  obtain heq | hless := hle.eq_or_lt
  · exact heq
  · -- an earlier block ends before the value
    have hpos := (elem_range hlo').1
    have hlov := hlt (by omega)
    have hhilo : hi' ≤ lo := by
      obtain heq | hlt' := (Nat.succ_le_of_lt hless).eq_or_lt
      · rw [Nat.succ_eq_add_one] at heq
        rw [heq, hlo] at hhi'
        exact (Option.some.inj hhi').ge
      · exact pairwise_iff_elem.mp hsorted _ _ hi' lo hlt' hhi' hlo
    exact absurd (hvh'.trans hhilo) (not_le.mpr hlov)

theorem CellEdges.weights_in_cells (h : CellEdges unique edges)
    (inc : unique.Pairwise (· < ·)) (hne : unique ≠ [])
    (hw : unique.length = weights.length) :
    countBetweenEdges unique edges weights 1 = some (0 :: weights) := by
  have numbered : ∀ k v, elem unique k = some v → firstBlock edges v + 1 = k + 1 := by
    intro k v hv
    rw [CellEdges.firstBlock_eq h inc hv]
  have covered : ∀ v ∈ unique, ∃ m, InBlock edges m v := by
    intro v hv
    obtain ⟨k, hk⟩ := exists_elem_of_mem hv
    obtain ⟨lo, hi, hlo, hhi, hlv, hvh, _⟩ := h.cell inc hk
    exact ⟨k, lo, hi, hlo, hhi, hlv, hvh⟩
  have hpos := List.length_pos_iff.mpr hne
  obtain ⟨counts, hcounts, hread⟩ := countBetweenEdges_tally 1
    (CellEdges.sorted h inc hne) hw (inc.imp le_of_lt) covered
  obtain ⟨counts', hcounts', hlen, _⟩ := countBetweenEdges_total unique edges weights 1
    (by rw [h.length]; omega) hw
  obtain rfl : counts' = counts := Option.some.inj (hcounts'.symm.trans hcounts)
  rw [h.length] at hlen hread
  rw [hcounts]
  congr 1
  apply ext_elem
  intro k
  obtain hk | hk : (1 ≤ k ∧ k ≤ unique.length + 1) ∨ (k = 0 ∨ unique.length + 1 < k) := by omega
  · rw [hread k hk.1 (by omega), tally_numbered _ 1 k unique weights hw numbered]
    obtain ⟨k, rfl⟩ := Nat.exists_eq_add_of_le' hk.1
    cases k with
    | zero => simp
    | succ k =>
      obtain ⟨w, hw'⟩ := exists_elem (a := weights) (i := k + 1) (by omega) (by omega)
      simp only [elem_succ] at hw'
      simp [hw']
  · rw [elem_eq_none_iff.mpr (by omega), elem_eq_none_iff.mpr (by simp; omega)]

theorem blockWeight_anti {weights : List K} (hpos : ∀ w ∈ weights, 0 ≤ w) {i k j : ℕ}
    (hi : 1 ≤ i) (hik : i ≤ k) (hkj : k ≤ j) :
    blockWeight weights k j ≤ blockWeight weights i j := by
  have hnonneg : 0 ≤ blockWeight weights i k :=
    List.sum_nonneg fun w hw => hpos w (List.mem_of_mem_drop (List.mem_of_mem_take hw))
  rw [blockWeight_eq weights hi hik] at hnonneg
  rw [blockWeight_eq weights (hi.trans hik) hkj, blockWeight_eq weights hi (hik.trans hkj)]
  linarith

/-- The two exits of the inner loop: once a start is inadmissible, so is every
later one. -/
theorem wide_anti {weights edges : List K} {dt : K} (hpos : ∀ w ∈ weights, 0 ≤ w)
    (sorted : edges.Pairwise (· ≤ ·)) {i k j : ℕ} (hi : 1 ≤ i) (hik : i ≤ k) (hkj : k ≤ j)
    (hj : j ≤ edges.length) (h : Wide weights edges dt k j) : Wide weights edges dt i j := by
  refine ⟨h.1.trans (blockWeight_anti hpos hi hik hkj), h.2.trans_le ?_⟩
  have := edgeAt_mono sorted hi hik (hkj.trans hj)
  unfold blockWidth
  linarith

end Weights

/-- The value of `best` that the loop reads for a block starting at edge `i`. -/
def bestAt (best : List (WithBot K)) (i : ℕ) : WithBot K :=
  if i = 1 then 0 else (elem best (i - 1)).getD ⊥

/-- The value the inner loop compares for the block from edge `i` to edge `q+1`. -/
def candidate (log : K → K) (weights edges : List K) (best : List (WithBot K)) (q i : ℕ) :
    WithBot K :=
  bestAt best i + ((blockFitness log weights edges i (q + 1) : K) : WithBot K)

/-- The first strict maximum over the starts of a last block ending at edge `q+1`. -/
def bestBlock (log : K → K) (weights edges : List K) (dt : K) (best : List (WithBot K))
    (q : ℕ) : WithBot K × ℕ :=
  scanBest (fun i => Wide weights edges dt i (q + 1)) (candidate log weights edges best q)
    (List.range' 1 q) (⊥, 0)

section Loops

variable {log : K → K} {dt : K} {weights edges : List K}

omit [LinearOrder K] in
theorem addBest_eq (log : K → K) (weights edges : List K) (best : List (WithBot K))
    (q i : ℕ) (hi : 1 ≤ i) (hbest : i ≤ best.length + 1) :
    addBest best i ((blockFitness log weights edges i (q + 1) : K) : WithBot K) =
      some (candidate log weights edges best q i) := by
  rw [addBest, candidate, bestAt]
  by_cases hone : i = 1
  · rw [if_neg (by omega), if_pos hone, zero_add]
  · obtain ⟨b, hb⟩ := exists_elem (a := best) (i := i - 1) (by omega) (by omega)
    rw [if_pos (by omega), if_neg hone, hb, Option.map_some, Option.getD_some, add_comm]

/-- With its arrays filled in, the inner loop is `scanBest`. -/
theorem innerLoop_eq (best : List (WithBot K)) (q : ℕ) (is : List ℕ) (acc : WithBot K × ℕ)
    (hedges : edges.length = weights.length + 1) (hq : q ≤ weights.length)
    (hbest : q ≤ best.length + 1) (his : ∀ i ∈ is, 1 ≤ i ∧ i ≤ q) :
    innerLoop log dt (cumsum (0 :: weights)) edges best q is acc =
      some (scanBest (fun i => Wide weights edges dt i (q + 1))
        (candidate log weights edges best q) is acc) := by
  induction is generalizing acc with
  | nil => rfl
  | cons i is ih =>
    obtain ⟨hi₁, hi₂⟩ := his i (by simp)
    have hrest := fun k hk => his k (List.mem_cons_of_mem i hk)
    obtain ⟨right, hright⟩ := exists_elem (a := edges) (i := q + 1) (by omega) (by omega)
    obtain ⟨left, hleft⟩ := exists_elem (a := edges) hi₁ (by omega)
    have hcnt : (weights.take (q + 1 - 1)).sum - (weights.take (i - 1)).sum =
        blockWeight weights i (q + 1) :=
      (blockWeight_eq weights hi₁ (by omega)).symm
    have hwidth : right - left = blockWidth edges i (q + 1) := by
      rw [blockWidth, edgeAt_eq hright, edgeAt_eq hleft]
    have htotal : elem (cumsum (0 :: weights)) (cumsum (0 :: weights)).length =
        some weights.sum := by
      rw [length_cumsum, List.length_cons,
        elem_whInEdge weights (weights.length + 1) (by omega) le_rfl]
      simp
    rw [innerLoop, elem_whInEdge weights (q + 1) (by omega) (by omega),
      elem_whInEdge weights i hi₁ (by omega), hright, hleft, htotal, scanBest]
    simp only [Option.bind_eq_bind, Option.bind_some, hcnt, hwidth]
    by_cases hheavy : blockWeight weights i (q + 1) < minCounts
    · rw [if_pos hheavy, if_neg (fun h => absurd h.1 (not_le.mpr hheavy))]
    · rw [if_neg hheavy]
      by_cases hwide : blockWidth edges i (q + 1) ≤ dt
      · rw [if_pos hwide, if_neg (fun h => absurd h.2 (not_lt.mpr hwide))]
      · have hok : Wide weights edges dt i (q + 1) := ⟨not_lt.mp hheavy, not_le.mp hwide⟩
        rw [if_neg hwide, if_pos hok]
        have hfit := addBest_eq log weights edges best q i hi₁ (by omega)
        rw [blockFitness] at hfit
        rw [hfit, Option.bind_some, ih _ hrest]

/-- The arrays after `n` rounds of the outer loop. -/
structure Solved (log : K → K) (dt : K) (weights edges : List K) (n : ℕ)
    (best : List (WithBot K)) (bestIdx : List ℕ) : Prop where
  length_best : best.length = n
  length_idx : bestIdx.length = n
  best_eq : ∀ k, 1 ≤ k → k ≤ n → elem best k = some (bestBlock log weights edges dt best k).1
  idx_eq : ∀ k, 1 ≤ k → k ≤ n → elem bestIdx k = some (bestBlock log weights edges dt best k).2

theorem bestBlock_append (best : List (WithBot K)) (m : WithBot K) (k : ℕ)
    (hk : k ≤ best.length + 1) :
    bestBlock log weights edges dt (best ++ [m]) k = bestBlock log weights edges dt best k := by
  refine scanBest_congr _ _ fun i hi => ?_
  have hik := List.mem_range'_1.mp hi
  rw [candidate, candidate, bestAt, bestAt, elem_append_left (by omega)]

theorem outerLoop_spec (hedges : edges.length = weights.length + 1) (rounds n : ℕ)
    (best : List (WithBot K)) (bestIdx : List ℕ) (hn : n + rounds ≤ weights.length)
    (h : Solved log dt weights edges n best bestIdx) :
    ∃ best' bestIdx', outerLoop log dt (cumsum (0 :: weights)) edges
        (List.range' (n + 1) rounds) best bestIdx = some (best', bestIdx') ∧
      Solved log dt weights edges (n + rounds) best' bestIdx' := by
  induction rounds generalizing n best bestIdx with
  | zero => exact ⟨best, bestIdx, rfl, h⟩
  | succ rounds ih =>
    have hlen := h.length_best
    have hlen' := h.length_idx
    have hinner : innerLoop log dt (cumsum (0 :: weights)) edges best (n + 1)
        (List.range' 1 (n + 1)) (⊥, 0) =
          some (bestBlock log weights edges dt best (n + 1)) :=
      innerLoop_eq best (n + 1) (List.range' 1 (n + 1)) (⊥, 0) hedges (by omega) (by omega)
        (fun i hi => by have := List.mem_range'_1.mp hi; omega)
    have step : Solved log dt weights edges (n + 1)
        (best ++ [(bestBlock log weights edges dt best (n + 1)).1])
        (bestIdx ++ [(bestBlock log weights edges dt best (n + 1)).2]) := by
      refine ⟨by simp [hlen], by simp [hlen'], fun k h₁ h₂ => ?_, fun k h₁ h₂ => ?_⟩
      · rw [bestBlock_append best _ k (by omega)]
        obtain rfl | hlt := h₂.eq_or_lt
        · rw [← hlen, elem_append_right le_rfl]
          rfl
        · rw [elem_append_left (by omega)]
          exact h.best_eq k h₁ (by omega)
      · rw [bestBlock_append best _ k (by omega)]
        obtain rfl | hlt := h₂.eq_or_lt
        · rw [← hlen', elem_append_right le_rfl]
          rfl
        · rw [elem_append_left (by omega)]
          exact h.idx_eq k h₁ (by omega)
    obtain ⟨best', bestIdx', hloop, hsolved⟩ := ih (n + 1) _ _ (by omega) step
    refine ⟨best', bestIdx', ?_, by rwa [show n + (rounds + 1) = n + 1 + rounds by omega]⟩
    rw [List.range'_succ, outerLoop, hinner]
    exact hloop

variable (log dt) in
theorem outerLoop_solves (hedges : edges.length = weights.length + 1) :
    ∃ best bestIdx, outerLoop log dt (cumsum (0 :: weights)) edges
        (List.range' 1 weights.length) [] [] = some (best, bestIdx) ∧
      Solved log dt weights edges weights.length best bestIdx := by
  have start : Solved log dt weights edges 0 [] [] :=
    ⟨rfl, rfl, fun k h₁ h₂ => absurd h₁ (by omega), fun k h₁ h₂ => absurd h₁ (by omega)⟩
  simpa using outerLoop_spec hedges weights.length 0 [] [] (by omega) start

def predAt (bestIdx : List ℕ) (j : ℕ) : ℕ := (elem bestIdx (j - 1)).getD 0

theorem Solved.entry {n : ℕ} {best : List (WithBot K)} {bestIdx : List ℕ}
    (h : Solved log dt weights edges n best bestIdx) {j : ℕ} (hj : 1 < j) (hjn : j ≤ n + 1) :
    bestAt best j = (bestBlock log weights edges dt best (j - 1)).1 ∧
      predAt bestIdx j = (bestBlock log weights edges dt best (j - 1)).2 := by
  have hbest := h.best_eq (j - 1) (by omega) (by omega)
  have hidx := h.idx_eq (j - 1) (by omega) (by omega)
  exact ⟨by rw [bestAt, if_neg (by omega), hbest, Option.getD_some],
    by rw [predAt, hidx, Option.getD_some]⟩

variable (log dt weights edges) in
theorem bestBlock_cases (best : List (WithBot K)) (q : ℕ) :
    bestBlock log weights edges dt best q = (⊥, 0) ∨
      ∃ i, 1 ≤ i ∧ i ≤ q ∧ Wide weights edges dt i (q + 1) ∧
        bestBlock log weights edges dt best q = (candidate log weights edges best q i, i) ∧
        candidate log weights edges best q i ≠ ⊥ := by
  obtain heq | ⟨i, hi, hok, heq, hlt⟩ := scanBest_attained
    (fun i => Wide weights edges dt i (q + 1)) (candidate log weights edges best q)
    (List.range' 1 q) (⊥, 0)
  · exact .inl heq
  · have hik := List.mem_range'_1.mp hi
    exact .inr ⟨i, by omega, by omega, hok, heq, hlt.ne'⟩

/-- The solved arrays are a table of the segmentation problem between edges. -/
theorem Solved.bellman {best : List (WithBot K)} {bestIdx : List ℕ}
    (h : Solved log dt weights edges weights.length best bestIdx)
    (hedges : edges.length = weights.length + 1) (hpos : ∀ w ∈ weights, 0 ≤ w)
    (sorted : edges.Pairwise (· ≤ ·)) [IsStrictOrderedRing K] :
    Bellman (Admissible weights edges dt) (blockFitness log weights edges) 1
      (weights.length + 1) (bestAt best) (predAt bestIdx) where
  source := by simp [bestAt]
  bound i j hi hj hok := by
    obtain ⟨_, hij, hje, hwide⟩ := hok
    obtain ⟨j, rfl⟩ := Nat.exists_eq_add_of_le' (show 1 ≤ j by omega)
    rw [(h.entry (j := j + 1) (by omega) hj).1, Nat.add_sub_cancel]
    refine scanBest_bound (fun i => Wide weights edges dt i (j + 1))
      (candidate log weights edges best j) (List.range' 1 j) (⊥, 0) ?_ i
      (List.mem_range'_1.mpr (by omega)) hwide
    refine List.Pairwise.imp_of_mem ?_ (List.pairwise_lt_range' 1)
    intro a b ha hb hab hw
    have hb' := List.mem_range'_1.mp hb
    exact wide_anti hpos sorted (List.mem_range'_1.mp ha).1 hab.le (by omega) hje hw
  attained j hj hjn hreached := by
    obtain ⟨hbest, hpred⟩ := h.entry hj hjn
    obtain ⟨j, rfl⟩ := Nat.exists_eq_add_of_le' (show 1 ≤ j by omega)
    rw [Nat.add_sub_cancel] at hbest hpred
    obtain heq | ⟨i, hi₁, hi₂, hwide, heq, _⟩ := bestBlock_cases log dt weights edges best j
    · rw [hbest, heq] at hreached
      exact absurd rfl hreached
    · rw [heq] at hbest hpred
      rw [hpred, hbest]
      exact ⟨hi₁, ⟨hi₁, by omega, by omega, hwide⟩, rfl⟩

theorem Solved.exists_backtrace {best : List (WithBot K)} {bestIdx : List ℕ}
    (h : Solved log dt weights edges weights.length best bestIdx)
    (hedges : edges.length = weights.length + 1) (hpos : ∀ w ∈ weights, 0 ≤ w)
    (sorted : edges.Pairwise (· ≤ ·)) [IsStrictOrderedRing K]
    (hwhole : Admissible weights edges dt 1 (weights.length + 1)) :
    ∃ cuts, Backtrace (predAt bestIdx) 1 (weights.length + 1) cuts ∧
      Segmentation (Admissible weights edges dt) 1 (weights.length + 1) cuts ∧
      ((total (blockFitness log weights edges) cuts : K) : WithBot K) =
        bestAt best (weights.length + 1) :=
  have htable := h.bellman hedges hpos sorted
  htable.exists_backtrace (fun _ _ hok => hok.2.1) (weights.length + 1) (by omega) le_rfl
    (htable.reached_of_ok le_rfl hwhole)

theorem Solved.predAt_lt {n : ℕ} {best : List (WithBot K)} {bestIdx : List ℕ}
    (h : Solved log dt weights edges n best bestIdx) {j : ℕ} (hj : 1 < j) (hjn : j ≤ n + 1) :
    predAt bestIdx j < j := by
  rw [(h.entry hj hjn).2]
  obtain heq | ⟨i, hi₁, hi₂, _, heq, _⟩ := bestBlock_cases log dt weights edges best (j - 1)
  · rw [heq]
    omega
  · rw [heq]
    show i < j
    omega

omit [LinearOrder K] in
theorem peel_step {bestIdx : List ℕ} {n j room : ℕ} {rest : List K}
    (hlen : edges.length = n + 1) (hidx : bestIdx.length = n) (hj : 1 < j) (hjn : j ≤ n + 1)
    (hrest : peel edges bestIdx room (predAt bestIdx j) = some rest) :
    peel edges bestIdx (room + 1) j = some (edgeAt edges j :: rest) := by
  obtain ⟨e, he⟩ := exists_elem (a := edges) (i := j) (by omega) (by omega)
  obtain ⟨next, hnext⟩ := exists_elem (a := bestIdx) (i := j - 1) (by omega) (by omega)
  rw [predAt, hnext, Option.getD_some] at hrest
  rw [peel, if_pos (by omega), he]
  simp only [Option.bind_eq_bind, Option.bind_some]
  rw [if_neg (by omega), hnext, Option.bind_some, hrest, Option.bind_some, edgeAt_eq he]

omit [LinearOrder K] in
/-- The backward walk spells out, in reverse, the segmentation that the back
pointers describe; it needs no more room than there are edges. -/
theorem peel_backtrace {bestIdx : List ℕ} {n j : ℕ} {cuts : List ℕ}
    (hlen : edges.length = n + 1) (hidx : bestIdx.length = n)
    (hless : ∀ j, 1 < j → j ≤ n + 1 → predAt bestIdx j < j)
    (h : Backtrace (predAt bestIdx) 1 j cuts) (hjn : j ≤ n + 1) (room : ℕ) (hroom : j ≤ room) :
    peel edges bestIdx room j = some (cuts.map (edgeAt edges)).reverse := by
  induction h generalizing room with
  | source =>
    obtain ⟨room, rfl⟩ := Nat.exists_eq_add_of_le' hroom
    obtain ⟨e, he⟩ := exists_elem (a := edges) (i := 1) le_rfl (by omega)
    rw [peel, if_pos Nat.one_pos, he]
    simp [edgeAt_eq he]
  | step hj _ ih =>
    obtain ⟨room, rfl⟩ := Nat.exists_eq_add_of_le' (hj.le.trans hroom)
    have hp := hless _ hj hjn
    rw [peel_step hlen hidx hj hjn (ih (by omega) room (by omega))]
    simp

omit [LinearOrder K] in
theorem peel_isSome {bestIdx : List ℕ} {n : ℕ} (hlen : edges.length = n + 1)
    (hidx : bestIdx.length = n) (hless : ∀ j, 1 < j → j ≤ n + 1 → predAt bestIdx j < j) (j : ℕ)
    (hjn : j ≤ n + 1) (room : ℕ) (hroom : j ≤ room) : (peel edges bestIdx room j).isSome := by
  induction j using Nat.strong_induction_on generalizing room with
  | _ j ih =>
    obtain rfl | hj := Nat.eq_zero_or_pos j
    · cases room <;> rfl
    obtain ⟨room, rfl⟩ := Nat.exists_eq_add_of_le' (show 1 ≤ room by omega)
    obtain rfl | hj := (Nat.succ_le_of_lt hj).eq_or_lt
    · obtain ⟨e, he⟩ := exists_elem (a := edges) (i := 1) le_rfl (by omega)
      rw [peel, if_pos Nat.one_pos, he]
      rfl
    · have hpred := hless j hj hjn
      obtain ⟨rest, hrest⟩ := Option.isSome_iff_exists.mp
        (ih _ hpred (by omega) room (by omega))
      rw [peel_step hlen hidx hj hjn hrest]
      rfl

end Loops

section Optimal

variable [IsStrictOrderedRing K] (log : K → K) {unique weights edges : List K} {dt : K}

omit [IsStrictOrderedRing K] in
theorem wide_whole_iff (h : CellEdges unique edges) (hlen : unique.length = weights.length)
    {first last : K} (hfirst : unique.head? = some first) (hlast : unique.getLast? = some last) :
    Wide weights edges dt 1 (unique.length + 1) ↔
      minCounts ≤ weights.sum ∧ dt < last - first := by
  have hone : elem edges 1 = some first := by rw [h.first, elem_one, hfirst]
  have hend : elem edges (unique.length + 1) = some last := by rw [h.last, elem_length, hlast]
  have hweight : blockWeight weights 1 (unique.length + 1) = weights.sum := by
    rw [blockWeight, Nat.sub_self, List.drop_zero, Nat.add_sub_cancel, hlen, List.take_length]
  rw [Wide, hweight, blockWidth, edgeAt_eq hend, edgeAt_eq hone]

theorem optimalChangePoints_optimal (h : CellEdges unique edges)
    (inc : unique.Pairwise (· < ·)) (hne : unique ≠ []) (hlen : unique.length = weights.length)
    (hpos : ∀ w ∈ weights, 0 < w) (hwide : Wide weights edges dt 1 (unique.length + 1)) :
    ∃ cuts, optimalChangePoints log unique weights edges dt = some (cuts.map (edgeAt edges)) ∧
      Segmentation (Admissible weights edges dt) 1 (unique.length + 1) cuts ∧
      ∀ cuts', Segmentation (Admissible weights edges dt) 1 (unique.length + 1) cuts' →
        total (blockFitness log weights edges) cuts' ≤
          total (blockFitness log weights edges) cuts := by
  have hedges : edges.length = weights.length + 1 := by rw [h.length, hlen]
  obtain ⟨best, bestIdx, hloop, hsolved⟩ := outerLoop_solves log dt hedges
  have hnonneg : ∀ w ∈ weights, 0 ≤ w := fun w hw => (hpos w hw).le
  have htable := hsolved.bellman hedges hnonneg (CellEdges.sorted h inc hne)
  have increasing : ∀ i j, Admissible weights edges dt i j → i < j := fun i j hok => hok.2.1
  have hwhole : Admissible weights edges dt 1 (weights.length + 1) := by
    rw [hlen] at hwide
    have := List.length_pos_iff.mpr hne
    exact ⟨le_rfl, by omega, hedges.ge, hwide⟩
  obtain ⟨cuts, htrace, hseg, htotal⟩ :=
    hsolved.exists_backtrace hedges hnonneg (CellEdges.sorted h inc hne) hwhole
  have hpeel := peel_backtrace hedges hsolved.length_idx
    (fun j hj hjn => hsolved.predAt_lt hj hjn) htrace le_rfl (weights.length + 1) le_rfl
  refine ⟨cuts, ?_, by rwa [hlen], fun cuts' hseg' => ?_⟩
  · simp only [optimalChangePoints, CellEdges.weights_in_cells h inc hne hlen,
      Option.bind_eq_bind, Option.bind_some, hlen, hloop, hpeel, List.reverse_reverse]
  · rw [hlen] at hseg'
    have hle := htable.total_le increasing hseg' le_rfl
    rw [← htotal] at hle
    exact WithBot.coe_le_coe.mp hle

theorem conquerBayesianBinning_isSome (dt : K) (inc : unique.Pairwise (· < ·))
    (hne : unique ≠ []) (hlen : unique.length = weights.length) :
    (conquerBayesianBinning log unique weights dt).isSome := by
  obtain ⟨edges, hedges, hcells⟩ := cellEdges_spec hne
  have hlength : edges.length = weights.length + 1 := by rw [hcells.length, hlen]
  obtain ⟨best, bestIdx, hloop, hsolved⟩ := outerLoop_solves log dt hlength
  obtain ⟨changePoints, hpeel⟩ := Option.isSome_iff_exists.mp
    (peel_isSome hlength hsolved.length_idx (fun j hj hjn => hsolved.predAt_lt hj hjn)
      (weights.length + 1) le_rfl (weights.length + 1) le_rfl)
  simp only [conquerBayesianBinning, hedges, optimalChangePoints,
    CellEdges.weights_in_cells hcells inc hne hlen, hlen, hloop, hpeel, Option.bind_eq_bind,
    Option.bind_some, Option.isSome_some]

theorem optimalChangePoints_of_not_wide (h : CellEdges unique edges)
    (inc : unique.Pairwise (· < ·)) (hlen : unique.length = weights.length)
    (hpos : ∀ w ∈ weights, 0 < w) (hwide : ¬ Wide weights edges dt 1 (unique.length + 1))
    {last : K} (hlast : unique.getLast? = some last) :
    optimalChangePoints log unique weights edges dt = some [last] := by
  have hne : unique ≠ [] := by
    rintro rfl
    simp at hlast
  have hedges : edges.length = weights.length + 1 := by rw [h.length, hlen]
  have hlength := List.length_pos_iff.mpr hne
  obtain ⟨best, bestIdx, hloop, hsolved⟩ := outerLoop_solves log dt hedges
  have hnone : bestBlock log weights edges dt best weights.length = (⊥, 0) := by
    obtain heq | ⟨i, hi₁, hi₂, hw, _⟩ :=
      bestBlock_cases log dt weights edges best weights.length
    · exact heq
    · rw [hlen] at hwide
      exact absurd (wide_anti (fun w hw => (hpos w hw).le) (CellEdges.sorted h inc hne) le_rfl hi₁
        (by omega) hedges.ge hw) hwide
  have hidx := hsolved.idx_eq weights.length (by omega) le_rfl
  have hend : elem edges (weights.length + 1) = some last := by
    rw [← hlen, h.last, elem_length, hlast]
  have hpeel : peel edges bestIdx (weights.length + 1) (weights.length + 1) = some [last] := by
    rw [peel, if_pos (by omega), hend]
    simp only [Option.bind_eq_bind, Option.bind_some]
    obtain ⟨n, hn⟩ := Nat.exists_eq_add_of_le' (show 1 ≤ weights.length by omega)
    rw [if_neg (by omega), Nat.add_sub_cancel, hidx, hnone, Option.bind_some, hn, peel,
      if_neg (by simp), Option.bind_some]
  simp only [optimalChangePoints, CellEdges.weights_in_cells h inc hne hlen,
    Option.bind_eq_bind, Option.bind_some, hlen, hloop, hpeel, List.reverse_singleton]

end Optimal

theorem conquer_cuts [IsStrictOrderedRing K] (log : K → K) {unique weights : List K}
    {dt first last : K} (inc : unique.Pairwise (· < ·)) (hlen : unique.length = weights.length)
    (hpos : ∀ w ∈ weights, 0 < w) (hfirst : unique.head? = some first)
    (hlast : unique.getLast? = some last) (hweight : minCounts ≤ weights.sum)
    (hextent : dt < last - first) :
    ∃ edges cuts, cellEdges unique = some edges ∧ CellEdges unique edges ∧
      conquerBayesianBinning log unique weights dt = some (cuts.map (edgeAt edges)) ∧
      Segmentation (Admissible weights edges dt) 1 (unique.length + 1) cuts ∧
      ∀ cuts', Segmentation (Admissible weights edges dt) 1 (unique.length + 1) cuts' →
        total (blockFitness log weights edges) cuts' ≤
          total (blockFitness log weights edges) cuts := by
  have hne : unique ≠ [] := by
    rintro rfl
    simp at hfirst
  obtain ⟨edges, hedges, hcells⟩ := cellEdges_spec hne
  have hwide := (wide_whole_iff hcells hlen hfirst hlast).mpr ⟨hweight, hextent⟩
  obtain ⟨cuts, hcuts, hseg, hbest⟩ :=
    optimalChangePoints_optimal log hcells inc hne hlen hpos hwide
  refine ⟨edges, cuts, hedges, hcells, ?_, hseg, hbest⟩
  rw [conquerBayesianBinning, hedges]
  exact hcuts

/-- The blocks of `conquer_bayesian_binning` on an admissible range run from the
first edge to the last, are all admissible, and no other segmentation into
admissible blocks has a larger total fitness. -/
theorem conquerBayesianBinning_optimal [IsStrictOrderedRing K] (log : K → K)
    (unique weights : List K) (dt first last : K) (inc : unique.Pairwise (· < ·))
    (hlen : unique.length = weights.length) (hpos : ∀ w ∈ weights, 0 < w)
    (hfirst : unique.head? = some first) (hlast : unique.getLast? = some last)
    (hweight : minCounts ≤ weights.sum) (hextent : dt < last - first) :
    ∃ edges cuts, cellEdges unique = some edges ∧
      edges.head? = some first ∧ edges.getLast? = some last ∧
      conquerBayesianBinning log unique weights dt = some (cuts.map (edgeAt edges)) ∧
      Segmentation (Admissible weights edges dt) 1 (unique.length + 1) cuts ∧
      ∀ cuts', Segmentation (Admissible weights edges dt) 1 (unique.length + 1) cuts' →
        total (blockFitness log weights edges) cuts' ≤
          total (blockFitness log weights edges) cuts := by
  obtain ⟨edges, cuts, hedges, hcells, hcuts, hseg, hbest⟩ :=
    conquer_cuts log inc hlen hpos hfirst hlast hweight hextent
  refine ⟨edges, cuts, hedges, ?_, ?_, hcuts, hseg, hbest⟩
  · rw [← elem_one, hcells.first, elem_one, hfirst]
  · rw [← elem_length, hcells.length, hcells.last, elem_length, hlast]

theorem conquerBayesianBinning_optimal_two_values :
    ∃ edges cuts, cellEdges [(0 : ℝ), 1] = some edges ∧
      edges.head? = some 0 ∧ edges.getLast? = some 1 ∧
      conquerBayesianBinning Real.log [0, 1] [20, 20] (1 / 2) =
        some (cuts.map (edgeAt edges)) ∧
      Segmentation (Admissible [20, 20] edges (1 / 2)) 1 3 cuts ∧
      ∀ cuts', Segmentation (Admissible [20, 20] edges (1 / 2)) 1 3 cuts' →
        total (blockFitness Real.log [20, 20] edges) cuts' ≤
          total (blockFitness Real.log [20, 20] edges) cuts :=
  conquerBayesianBinning_optimal Real.log [0, 1] [20, 20] (1 / 2) 0 1 (by simp) rfl
    (by simp) rfl rfl (by norm_num [minCounts]) (by norm_num)

end XWebQL.ConquerBinning
