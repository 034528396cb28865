import Mathlib.Data.List.Basic
import Mathlib.Data.List.Perm.Basic
import Mathlib.Order.Basic

/-! One-based arrays whose accesses are checked.
An array is a list; `elem` reads and `put` writes one element, and both give
`none` outside `1..size`. A program over these operations therefore returns a
value exactly when every index it used lies inside its array. -/

namespace XWebQL.FortranArray

variable {α : Type*}

/-- The element `a(i)`. -/
def elem (a : List α) : ℕ → Option α
  | 0 => none
  | i + 1 => a[i]?

/-- The array after `a(i) = v`. -/
def put (a : List α) (i : ℕ) (v : α) : Option (List α) :=
  if 1 ≤ i ∧ i ≤ a.length then some (a.set (i - 1) v) else none

@[simp] theorem elem_zero (a : List α) : elem a 0 = none := rfl

@[simp] theorem elem_succ (a : List α) (i : ℕ) : elem a (i + 1) = a[i]? := rfl

theorem elem_eq_some_iff {a : List α} {i : ℕ} {v : α} :
    elem a i = some v ↔ ∃ _ : 1 ≤ i ∧ i ≤ a.length, a[i - 1] = v := by
  cases i with
  | zero => simp
  | succ i =>
    simp only [elem_succ, List.getElem?_eq_some_iff, Nat.add_sub_cancel]
    constructor
    · rintro ⟨h, e⟩
      exact ⟨⟨by omega, by omega⟩, e⟩
    · rintro ⟨h, e⟩
      exact ⟨by omega, e⟩

theorem elem_range {a : List α} {i : ℕ} {v : α} (h : elem a i = some v) :
    1 ≤ i ∧ i ≤ a.length :=
  (elem_eq_some_iff.mp h).1

theorem exists_elem {a : List α} {i : ℕ} (h₁ : 1 ≤ i) (h₂ : i ≤ a.length) :
    ∃ v, elem a i = some v :=
  ⟨_, elem_eq_some_iff.mpr ⟨⟨h₁, h₂⟩, rfl⟩⟩

theorem elem_eq_none_iff {a : List α} {i : ℕ} : elem a i = none ↔ i = 0 ∨ a.length < i := by
  cases i with
  | zero => simp
  | succ i =>
    rw [elem_succ, List.getElem?_eq_none_iff]
    omega

theorem mem_of_elem {a : List α} {i : ℕ} {v : α} (h : elem a i = some v) : v ∈ a := by
  obtain ⟨_, rfl⟩ := elem_eq_some_iff.mp h
  exact List.getElem_mem _

theorem exists_elem_of_mem {a : List α} {v : α} (h : v ∈ a) : ∃ i, elem a i = some v := by
  obtain ⟨i, hi, rfl⟩ := List.mem_iff_getElem.mp h
  exact ⟨i + 1, by simp [hi]⟩

theorem elem_one (a : List α) : elem a 1 = a.head? := by
  simp [List.head?_eq_getElem?]

theorem elem_length (a : List α) : elem a a.length = a.getLast? := by
  cases a with
  | nil => rfl
  | cons v a => simp [List.getLast?_eq_getElem?]

theorem elem_append_left {a b : List α} {i : ℕ} (h : i ≤ a.length) :
    elem (a ++ b) i = elem a i := by
  cases i with
  | zero => rfl
  | succ i => simp [List.getElem?_append_left (Nat.lt_of_succ_le h)]

theorem elem_append_right {a b : List α} {i : ℕ} (h : 1 ≤ i) :
    elem (a ++ b) (a.length + i) = elem b i := by
  obtain ⟨i, rfl⟩ := Nat.exists_eq_add_of_le' h
  simp [← Nat.add_assoc, List.getElem?_append_right]

theorem elem_take {a : List α} {i n : ℕ} (h : i ≤ n) : elem (a.take n) i = elem a i := by
  cases i with
  | zero => rfl
  | succ i => simp [Nat.lt_of_succ_le h]

theorem elem_drop (a : List α) {i : ℕ} (n : ℕ) (h : 1 ≤ i) :
    elem (a.drop n) i = elem a (n + i) := by
  obtain ⟨i, rfl⟩ := Nat.exists_eq_add_of_le' h
  simp [← Nat.add_assoc]

theorem elem_map {β : Type*} (f : α → β) (a : List α) (i : ℕ) :
    elem (a.map f) i = (elem a i).map f := by
  cases i <;> simp

theorem elem_range' {n i : ℕ} (h₁ : 1 ≤ i) (h₂ : i ≤ n) :
    elem (List.range' 1 n) i = some i := by
  obtain ⟨i, rfl⟩ := Nat.exists_eq_add_of_le' h₁
  rw [elem_succ, List.getElem?_range' (by omega)]
  simp [Nat.add_comm]

theorem put_eq_some {a : List α} {i : ℕ} (v : α) (h₁ : 1 ≤ i) (h₂ : i ≤ a.length) :
    put a i v = some (a.set (i - 1) v) :=
  if_pos ⟨h₁, h₂⟩

theorem put_range {a b : List α} {i : ℕ} {v : α} (h : put a i v = some b) :
    1 ≤ i ∧ i ≤ a.length := by
  unfold put at h
  split at h
  · assumption
  · cases h

theorem length_put {a b : List α} {i : ℕ} {v : α} (h : put a i v = some b) :
    b.length = a.length := by
  unfold put at h
  split at h
  · simp only [Option.some.injEq] at h
    simp [← h]
  · cases h

theorem elem_put {a b : List α} {i : ℕ} {v : α} (h : put a i v = some b) (k : ℕ) :
    elem b k = if k = i then some v else elem a k := by
  unfold put at h
  split at h
  · next hi =>
    simp only [Option.some.injEq] at h
    subst h
    cases k with
    | zero => simp [show ¬ (0 = i) by omega]
    | succ k =>
      simp only [elem_succ, List.getElem?_set]
      by_cases hk : k + 1 = i
      · simp [← hk, show k < a.length by omega]
      · simp [hk, show ¬ (i - 1 = k) by omega]
  · cases h

theorem ext_elem {a b : List α} (h : ∀ i, elem a i = elem b i) : a = b :=
  List.ext_getElem? fun i => h (i + 1)

theorem mapM_eq_some_map {β : Type*} {f : α → Option β} {g : α → β} {a : List α}
    (h : ∀ v ∈ a, f v = some (g v)) : a.mapM f = some (a.map g) := by
  induction a with
  | nil => rfl
  | cons v a ih =>
    rw [List.mapM_cons, h v (by simp), ih fun u hu => h u (List.mem_cons_of_mem v hu)]
    rfl

theorem pairwise_iff_elem {R : α → α → Prop} {a : List α} :
    a.Pairwise R ↔
      ∀ i j u v, i < j → elem a i = some u → elem a j = some v → R u v := by
  rw [List.pairwise_iff_getElem]
  constructor
  · intro h i j u v hij hu hv
    obtain ⟨hi, rfl⟩ := elem_eq_some_iff.mp hu
    obtain ⟨hj, rfl⟩ := elem_eq_some_iff.mp hv
    exact h (i - 1) (j - 1) (by omega) (by omega) (by omega)
  · intro h i j hi hj hij
    exact h (i + 1) (j + 1) _ _ (by omega) (by simp [hi]) (by simp [hj])

end XWebQL.FortranArray
