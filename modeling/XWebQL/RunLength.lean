import XWebQL.Quicksort
import Mathlib.Algebra.Order.Field.Basic
import Mathlib.Algebra.BigOperators.Group.List.Lemmas
import Mathlib.Algebra.BigOperators.Ring.Finset
import Mathlib.Data.Finset.Card
import Mathlib.Data.List.Dedup
import Mathlib.Data.Nat.Cast.Order.Ring
import Mathlib.Tactic.Linarith

/-! Distinct values, their weights and the cell edges between them.
The run-length loop of `partition` and of `parallel_bayesian_binning`, the loop
of `deduplicate`, and the mid-point edges of `partition` and
`conquer_bayesian_binning`. The growing arrays `unique` and `weights` are kept
with their tail at the head of a list and reversed where the source truncates
them to `1:tail`. -/

namespace XWebQL.RunLength

open FortranArray Quicksort

variable {K : Type} [Field K] [LinearOrder K]

/-- `weights(tail) = weights(tail) + 1` -/
def bumpHead : List K → List K
  | [] => []
  | w :: ws => (w + 1) :: ws

/-- The loop over `x(2), x(3), ...`; `prev` is `x(i-1)`. -/
def runLengthLoop (prev : K) : List K → List K → List K → List K × List K
  | [], unique, weights => (unique.reverse, weights.reverse)
  | xi :: rest, unique, weights =>
    if xi = prev then runLengthLoop xi rest unique (bumpHead weights)
    else runLengthLoop xi rest (xi :: unique) (1 :: weights)

/-- `unique` and `weights` of a sorted array; an empty one has no `x(1)`. -/
def runLength : List K → Option (List K × List K)
  | [] => none
  | x₁ :: rest => some (runLengthLoop x₁ rest [x₁] [1])

def deduplicateLoop (prev : K) : List K → List K → List K
  | [], unique => unique.reverse
  | xi :: rest, unique =>
    if xi = prev then deduplicateLoop xi rest unique
    else deduplicateLoop xi rest (xi :: unique)

def deduplicate : List K → Option (List K)
  | [] => none
  | x₁ :: rest => some (deduplicateLoop x₁ rest [x₁])

/-- `(/unique(1), 0.5 * (unique(1:L-1) + unique(2:L)), unique(L)/)` -/
def cellEdges (unique : List K) : Option (List K) := do
  let first ← elem unique 1
  let last ← elem unique unique.length
  some ([first] ++
    List.zipWith (fun a b => 0.5 * (a + b)) unique.dropLast unique.tail ++ [last])

/-- `partition`: `x` sorted in place, then `unique`, `weights` and `edges`. -/
def partition (x : List K) : Option (List K × List K × List K × List K) := do
  let x ← quicksort x 1 x.length
  let (unique, weights) ← runLength x
  let edges ← cellEdges unique
  some (x, unique, weights, edges)

/-- `unique` lists the distinct values of `x` in increasing order and `weights`
their multiplicities. -/
structure Runs (x unique weights : List K) : Prop where
  increasing : unique.Pairwise (· < ·)
  mem : ∀ v, v ∈ unique ↔ v ∈ x
  weights_eq : weights = unique.map fun v => (x.count v : K)

section Distinct

omit [Field K]

/-- The distinct values of the processed prefix, the last one in front. -/
structure DistinctRev (done unique : List K) (prev : K) : Prop where
  head : unique.head? = some prev
  decreasing : unique.Pairwise (· > ·)
  mem : ∀ v, v ∈ unique ↔ v ∈ done

variable {done rest unique : List K} {prev next : K}

theorem distinctRev_single (v : K) : DistinctRev [v] [v] v :=
  ⟨rfl, List.pairwise_singleton _ v, fun _ => Iff.rfl⟩

theorem DistinctRev.same (h : DistinctRev done unique prev) :
    DistinctRev (done ++ [prev]) unique prev := by
  have hprev : prev ∈ done := (h.mem prev).mp (List.mem_of_mem_head? h.head)
  refine ⟨h.head, h.decreasing, fun v => ?_⟩
  rw [h.mem, List.mem_append, List.mem_singleton]
  exact ⟨.inl, fun hv => hv.elim id fun heq => heq ▸ hprev⟩

theorem DistinctRev.fresh (h : DistinctRev done unique prev) (hlt : ∀ v ∈ done, v < next) :
    DistinctRev (done ++ [next]) (next :: unique) next := by
  refine ⟨rfl, List.pairwise_cons.mpr ⟨fun v hv => hlt v ((h.mem v).mp hv), h.decreasing⟩,
    fun v => ?_⟩
  rw [List.mem_cons, h.mem, List.mem_append, List.mem_singleton]
  exact or_comm

theorem DistinctRev.lt (h : DistinctRev done unique prev)
    (sorted : (done ++ next :: rest).Pairwise (· ≤ ·)) (hne : next ≠ prev) :
    ∀ v ∈ done, v < next := by
  intro v hv
  have hle := (List.pairwise_append.mp sorted).2.2
  have hprev : prev ∈ done := (h.mem prev).mp (List.mem_of_mem_head? h.head)
  have hlt : prev < next := lt_of_le_of_ne (hle prev hprev next (by simp)) (Ne.symm hne)
  refine lt_of_le_of_lt ?_ hlt
  have hv' := (h.mem v).mpr hv
  have hhead := h.head
  have hdecreasing := h.decreasing
  cases unique with
  | nil => cases hv'
  | cons p u =>
    obtain rfl : p = prev := Option.some.inj hhead
    obtain rfl | hmem := List.mem_cons.mp hv'
    · exact le_rfl
    · exact (List.rel_of_pairwise_cons hdecreasing hmem).le

theorem deduplicateLoop_spec (rest : List K) (h : DistinctRev done unique prev)
    (sorted : (done ++ rest).Pairwise (· ≤ ·)) :
    (deduplicateLoop prev rest unique).Pairwise (· < ·) ∧
      ∀ v, v ∈ deduplicateLoop prev rest unique ↔ v ∈ done ++ rest := by
  induction rest generalizing done unique prev with
  | nil =>
    rw [List.append_nil, deduplicateLoop]
    exact ⟨List.pairwise_reverse.mpr h.decreasing, fun v => by rw [List.mem_reverse, h.mem]⟩
  | cons xi rest ih =>
    have happend : done ++ xi :: rest = (done ++ [xi]) ++ rest := by simp
    have hsorted := happend ▸ sorted
    rw [deduplicateLoop, happend]
    split_ifs with heq
    · rw [heq] at hsorted ⊢
      exact ih h.same hsorted
    · exact ih (h.fresh (h.lt sorted heq)) hsorted

theorem deduplicate_spec {x : List K} (hne : x ≠ []) (sorted : x.Pairwise (· ≤ ·)) :
    ∃ unique, deduplicate x = some unique ∧ unique.Pairwise (· < ·) ∧
      ∀ v, v ∈ unique ↔ v ∈ x := by
  cases x with
  | nil => exact absurd rfl hne
  | cons x₁ rest =>
    obtain ⟨hincreasing, hmem⟩ := deduplicateLoop_spec rest (distinctRev_single x₁) sorted
    exact ⟨_, rfl, hincreasing, hmem⟩

end Distinct

structure RunsRev (done unique weights : List K) (prev : K) : Prop
    extends DistinctRev done unique prev where
  weights_eq : weights = unique.map fun v => (done.count v : K)

theorem RunsRev.same {done unique weights : List K} {prev : K}
    (h : RunsRev done unique weights prev) :
    RunsRev (done ++ [prev]) unique (bumpHead weights) prev := by
  refine ⟨h.toDistinctRev.same, ?_⟩
  obtain ⟨u, rfl⟩ : ∃ u, unique = prev :: u := by
    cases unique with
    | nil => simpa using h.head
    | cons p u => exact ⟨u, by rw [Option.some.inj h.head]⟩
  rw [h.weights_eq, List.map_cons, bumpHead, List.map_cons]
  congr 1
  · simp [List.count_append]
  · apply List.map_congr_left
    intro v hv
    have hlt := List.rel_of_pairwise_cons h.decreasing hv
    simp [List.count_append, ne_of_gt hlt]

theorem RunsRev.fresh {done unique weights : List K} {prev next : K}
    (h : RunsRev done unique weights prev) (hlt : ∀ v ∈ done, v < next) :
    RunsRev (done ++ [next]) (next :: unique) (1 :: weights) next := by
  refine ⟨h.toDistinctRev.fresh hlt, ?_⟩
  have hnew : next ∉ done := fun hmem => lt_irrefl _ (hlt next hmem)
  rw [h.weights_eq, List.map_cons]
  congr 1
  · simp [List.count_append, List.count_eq_zero_of_not_mem hnew]
  · apply List.map_congr_left
    intro v hv
    have hne : next ≠ v := (hlt v ((h.mem v).mp hv)).ne'
    simp [List.count_append, hne]

theorem runLengthLoop_spec (prev : K) (rest done unique weights : List K)
    (h : RunsRev done unique weights prev) (sorted : (done ++ rest).Pairwise (· ≤ ·)) :
    Runs (done ++ rest) (runLengthLoop prev rest unique weights).1
      (runLengthLoop prev rest unique weights).2 := by
  induction rest generalizing prev done unique weights with
  | nil =>
    simp only [runLengthLoop, List.append_nil]
    exact ⟨List.pairwise_reverse.mpr h.decreasing, fun v => by rw [List.mem_reverse, h.mem],
      by rw [h.weights_eq, List.map_reverse]⟩
  | cons xi rest ih =>
    have happ : done ++ xi :: rest = (done ++ [xi]) ++ rest := by simp
    rw [runLengthLoop]
    by_cases heq : xi = prev
    · subst heq
      rw [if_pos rfl, happ]
      exact ih xi (done ++ [xi]) _ _ h.same (happ ▸ sorted)
    · rw [if_neg heq, happ]
      exact ih xi (done ++ [xi]) _ _ (h.fresh (h.lt sorted heq)) (happ ▸ sorted)

theorem runLength_spec {x : List K} (hne : x ≠ []) (sorted : x.Pairwise (· ≤ ·)) :
    ∃ unique weights, runLength x = some (unique, weights) ∧ Runs x unique weights := by
  cases x with
  | nil => exact absurd rfl hne
  | cons x₁ rest =>
    have start : RunsRev [x₁] [x₁] [1] x₁ := ⟨distinctRev_single x₁, by simp⟩
    exact ⟨_, _, rfl, runLengthLoop_spec x₁ rest [x₁] [x₁] [1] start sorted⟩

theorem Runs.perm {x y unique weights : List K} (h : Runs x unique weights) (hp : x.Perm y) :
    Runs y unique weights where
  increasing := h.increasing
  mem v := by rw [h.mem, hp.mem_iff]
  weights_eq := by simp only [h.weights_eq, hp.count_eq]

theorem Runs.length_eq {x unique weights : List K} (h : Runs x unique weights) :
    weights.length = unique.length := by
  rw [h.weights_eq, List.length_map]

theorem Runs.nodup {x unique weights : List K} (h : Runs x unique weights) : unique.Nodup :=
  h.increasing.imp ne_of_lt

theorem Runs.ext {x unique weights unique' weights' : List K} (h : Runs x unique weights)
    (h' : Runs x unique' weights') : unique = unique' ∧ weights = weights' := by
  have hunique : unique = unique' :=
    h.increasing.sortedLT.eq_of_mem_iff h'.increasing.sortedLT fun v => by rw [h.mem, h'.mem]
  exact ⟨hunique, by rw [h.weights_eq, h'.weights_eq, hunique]⟩

theorem Runs.perm_dedup {x unique weights : List K} (h : Runs x unique weights) :
    unique.Perm x.dedup :=
  (List.perm_ext_iff_of_nodup h.nodup x.nodup_dedup).mpr fun v => by
    rw [h.mem, List.mem_dedup]

theorem Runs.card {x unique weights : List K} (h : Runs x unique weights) :
    unique.length = x.toFinset.card := by
  rw [h.perm_dedup.length_eq, List.card_toFinset]

theorem Runs.sum_filter {x unique weights : List K} (h : Runs x unique weights)
    (p : K → Bool) :
    ((unique.filter p).map fun v => (x.count v : K)).sum = (x.countP p : K) := by
  rw [← List.sum_map_count_dedup_filter_eq_countP p x, Nat.cast_list_sum, List.map_map]
  exact ((h.perm_dedup.filter p).map _).sum_eq

theorem Runs.sum_weights {x unique weights : List K} (h : Runs x unique weights) :
    weights.sum = (x.length : K) := by
  have hall := h.sum_filter fun _ => true
  rw [List.filter_true, List.countP_true] at hall
  rw [h.weights_eq, hall]

theorem Runs.one_le_weight [IsStrictOrderedRing K] {x unique weights : List K}
    (h : Runs x unique weights) : ∀ w ∈ weights, 1 ≤ w := by
  rw [h.weights_eq]
  intro w hw
  obtain ⟨v, hv, rfl⟩ := List.mem_map.mp hw
  exact_mod_cast List.count_pos_iff.mpr ((h.mem v).mp hv)

/-- What the source's edge array holds: the end points and, between two
neighbours, their mid-point. -/
structure CellEdges (unique edges : List K) : Prop where
  length : edges.length = unique.length + 1
  first : elem edges 1 = elem unique 1
  last : elem edges (unique.length + 1) = elem unique unique.length
  between : ∀ k a b, elem unique k = some a → elem unique (k + 1) = some b →
    elem edges (k + 1) = some (0.5 * (a + b))

omit [LinearOrder K] in
theorem cellEdges_spec {unique : List K} (hne : unique ≠ []) :
    ∃ edges, cellEdges unique = some edges ∧ CellEdges unique edges := by
  have hpos : 1 ≤ unique.length := List.length_pos_iff.mpr hne
  obtain ⟨u₁, hu₁⟩ := exists_elem (a := unique) (i := 1) le_rfl hpos
  obtain ⟨uL, huL⟩ := exists_elem (a := unique) hpos le_rfl
  have hmid : (List.zipWith (fun a b : K => 0.5 * (a + b)) unique.dropLast unique.tail).length =
      unique.length - 1 := by simp
  have hedges : cellEdges unique = some ([u₁] ++
      List.zipWith (fun a b => 0.5 * (a + b)) unique.dropLast unique.tail ++ [uL]) := by
    simp only [cellEdges, hu₁, huL, Option.bind_eq_bind, Option.bind_some]
  refine ⟨_, hedges, ?_, ?_, ?_, ?_⟩
  · simp
    omega
  · rw [hu₁]
    rfl
  · have hlen : ([u₁] ++ List.zipWith (fun a b : K => 0.5 * (a + b)) unique.dropLast
        unique.tail).length = unique.length := by
      rw [List.length_append, hmid, List.length_singleton]
      omega
    have hlast := elem_append_right (a := [u₁] ++ List.zipWith (fun a b : K => 0.5 * (a + b))
      unique.dropLast unique.tail) (b := [uL]) (i := 1) le_rfl
    rw [hlen] at hlast
    rw [hlast, huL]
    rfl
  · intro k a b ha hb
    have hk := elem_range ha
    have hk' := elem_range hb
    obtain ⟨k, rfl⟩ := Nat.exists_eq_add_of_le' hk.1
    rw [elem_append_left (by rw [List.length_append, hmid, List.length_singleton]; omega)]
    simp only [elem_succ] at ha hb ⊢
    rw [List.singleton_append, List.getElem?_cons_succ, List.getElem?_zipWith,
      List.getElem?_dropLast, if_pos (by omega), ha, List.getElem?_tail, hb]

section Ordered

variable [IsStrictOrderedRing K] {unique edges : List K}

/-- A value lies inside its own cell, and on an edge of it only at the two ends
of the array. -/
theorem CellEdges.cell (h : CellEdges unique edges) (inc : unique.Pairwise (· < ·))
    {k : ℕ} {v : K} (hv : elem unique k = some v) :
    ∃ lo hi, elem edges k = some lo ∧ elem edges (k + 1) = some hi ∧ lo ≤ v ∧ v ≤ hi ∧
      (1 < k → lo < v) ∧ (k < unique.length → v < hi) := by
  have hk := elem_range hv
  have hlower : ∃ lo, elem edges k = some lo ∧ lo ≤ v ∧ (1 < k → lo < v) := by
    obtain rfl | hlt := hk.1.eq_or_lt
    · exact ⟨v, by rw [h.first, hv], le_rfl, fun hlt => absurd hlt (lt_irrefl 1)⟩
    · obtain ⟨k, rfl⟩ := Nat.exists_eq_add_of_le' hk.1
      obtain ⟨w, hw⟩ := exists_elem (a := unique) (i := k) (by omega) (by omega)
      have hwv := pairwise_iff_elem.mp inc k (k + 1) w v (by omega) hw hv
      exact ⟨_, h.between k w v hw hv, by linarith, fun _ => by linarith⟩
  have hupper : ∃ hi, elem edges (k + 1) = some hi ∧ v ≤ hi ∧
      (k < unique.length → v < hi) := by
    obtain rfl | hlt := hk.2.eq_or_lt
    · exact ⟨v, by rw [h.last, hv], le_rfl, fun hlt => absurd hlt (lt_irrefl _)⟩
    · obtain ⟨w, hw⟩ := exists_elem (a := unique) (i := k + 1) (by omega) (by omega)
      have hvw := pairwise_iff_elem.mp inc k (k + 1) v w (by omega) hv hw
      exact ⟨_, h.between k v w hv hw, by linarith, fun _ => by linarith⟩
  obtain ⟨lo, hlo, hlv, hlt⟩ := hlower
  obtain ⟨hi, hhi, hvh, hgt⟩ := hupper
  exact ⟨lo, hi, hlo, hhi, hlv, hvh, hlt, hgt⟩

theorem CellEdges.lt_succ (h : CellEdges unique edges) (inc : unique.Pairwise (· < ·))
    (htwo : 2 ≤ unique.length) {k : ℕ} {lo hi : K} (hlo : elem edges k = some lo)
    (hhi : elem edges (k + 1) = some hi) : lo < hi := by
  have hk := elem_range hlo
  have hk' := elem_range hhi
  rw [h.length] at hk'
  obtain ⟨v, hv⟩ := exists_elem (a := unique) hk.1 (by omega)
  obtain ⟨lo', hi', hlo', hhi', hle, hle', hlt, hlt'⟩ := h.cell inc hv
  obtain rfl : lo' = lo := Option.some.inj (hlo'.symm.trans hlo)
  obtain rfl : hi' = hi := Option.some.inj (hhi'.symm.trans hhi)
  by_cases hone : 1 < k
  · exact (hlt hone).trans_le hle'
  · exact hle.trans_lt (hlt' (by omega))

theorem CellEdges.increasing (h : CellEdges unique edges) (inc : unique.Pairwise (· < ·))
    (htwo : 2 ≤ unique.length) : edges.Pairwise (· < ·) := by
  rw [← List.isChain_iff_pairwise, List.isChain_iff_getElem]
  intro i hi
  exact h.lt_succ inc htwo (k := i + 1)
    (by simp [List.getElem?_eq_getElem (by omega : i < edges.length)])
    (by simp [List.getElem?_eq_getElem hi])

theorem CellEdges.inner_not_mem (h : CellEdges unique edges) (inc : unique.Pairwise (· < ·))
    {k : ℕ} {e : K} (hk : 1 < k) (hk' : k ≤ unique.length) (he : elem edges k = some e) :
    e ∉ unique := by
  intro hmem
  obtain ⟨m, hm⟩ := exists_elem_of_mem hmem
  obtain ⟨v, hv⟩ := exists_elem (a := unique) (i := k) (by omega) hk'
  obtain ⟨w, hw⟩ := exists_elem (a := unique) (i := k - 1) (by omega) (by omega)
  obtain ⟨lo, _, hlo, _, _, _, hlt, _⟩ := h.cell inc hv
  obtain ⟨_, hi, _, hhi, _, _, _, hgt⟩ := h.cell inc hw
  rw [Nat.sub_add_cancel hk.le] at hhi
  obtain rfl : lo = e := Option.some.inj (hlo.symm.trans he)
  obtain rfl : hi = lo := Option.some.inj (hhi.symm.trans hlo)
  have hev := hlt hk
  have hwe := hgt (by omega)
  obtain hle | hge := Nat.lt_or_ge (k - 1) m
  · obtain rfl | hlt' := (show k ≤ m by omega).eq_or_lt
    · exact hev.ne (Option.some.inj (hm.symm.trans hv))
    · exact (hev.trans (pairwise_iff_elem.mp inc k m v hi hlt' hv hm)).ne rfl
  · obtain rfl | hlt' := hge.eq_or_lt
    · exact hwe.ne' (Option.some.inj (hm.symm.trans hw))
    · exact ((pairwise_iff_elem.mp inc m (k - 1) hi w hlt' hm hw).trans hwe).ne rfl

end Ordered

end XWebQL.RunLength
