import XWebQL.FortranArray
import Mathlib.Algebra.Order.Field.Basic

/-! The in-place sorts `quicksort` and `quicksort_omp`.
Every read and swap is checked against the window `first..last` the subroutine
was called with, so a `some` result says that nothing outside it was touched.
The recursion and the partition loop carry their own step budgets; the budgets
are proved sufficient for every window of the array. -/

namespace XWebQL.Quicksort

open FortranArray

/-- `integer, parameter :: WORKSIZE` -/
def WORKSIZE : ℕ := 2048

variable {K : Type}

/-- A read of `a(i)` by a call on the window `first..last`. -/
def windowElem (a : List K) (first last i : ℕ) : Option K :=
  if first ≤ i ∧ i ≤ last then elem a i else none

/-- `t = a(i); a(i) = a(j); a(j) = t` -/
def swap (a : List K) (first last i j : ℕ) : Option (List K) := do
  let t ← windowElem a first last i
  let u ← windowElem a first last j
  let b ← put a i u
  put b j t

/-- What a call on `first..last` may do to the array: permute the elements of
its window and leave the others where they are. -/
structure Rearranges (first last : ℕ) (a b : List K) : Prop where
  perm : b.Perm a
  frame : ∀ k, k < first ∨ last < k → elem b k = elem a k
  window : ∀ k v, first ≤ k → k ≤ last → elem b k = some v →
    ∃ l, first ≤ l ∧ l ≤ last ∧ elem a l = some v

theorem Rearranges.refl (first last : ℕ) (a : List K) : Rearranges first last a a :=
  ⟨.refl a, fun _ _ => rfl, fun k _ h₁ h₂ hv => ⟨k, h₁, h₂, hv⟩⟩

theorem Rearranges.trans {first last : ℕ} {a b c : List K}
    (hab : Rearranges first last a b) (hbc : Rearranges first last b c) :
    Rearranges first last a c where
  perm := hbc.perm.trans hab.perm
  frame k hk := (hbc.frame k hk).trans (hab.frame k hk)
  window k v h₁ h₂ hv := by
    obtain ⟨l, hl₁, hl₂, hl⟩ := hbc.window k v h₁ h₂ hv
    exact hab.window l v hl₁ hl₂ hl

theorem Rearranges.widen {first last lo hi : ℕ} {a b : List K}
    (h : Rearranges lo hi a b) (hlo : first ≤ lo) (hhi : hi ≤ last) :
    Rearranges first last a b where
  perm := h.perm
  frame k hk := h.frame k (by omega)
  window k v h₁ h₂ hv := by
    by_cases hk : lo ≤ k ∧ k ≤ hi
    · obtain ⟨l, hl₁, hl₂, hl⟩ := h.window k v hk.1 hk.2 hv
      exact ⟨l, by omega, by omega, hl⟩
    · exact ⟨k, h₁, h₂, by rw [← h.frame k (by omega), hv]⟩

theorem Rearranges.length_eq {first last : ℕ} {a b : List K}
    (h : Rearranges first last a b) : b.length = a.length :=
  h.perm.length_eq

theorem windowElem_eq_some {a : List K} {first last i : ℕ} {v : K} :
    windowElem a first last i = some v ↔ first ≤ i ∧ i ≤ last ∧ elem a i = some v := by
  unfold windowElem
  split_ifs with h
  · simp [h]
  · constructor
    · intro hnone
      cases hnone
    · rintro ⟨h₁, h₂, _⟩
      exact absurd ⟨h₁, h₂⟩ h

theorem swap_spec {a : List K} {first last i j : ℕ} {u v : K} (hij : i < j)
    (hfirst : first ≤ i) (hlast : j ≤ last) (hi : elem a i = some u) (hj : elem a j = some v) :
    ∃ b, swap a first last i j = some b ∧ Rearranges first last a b ∧
      elem b i = some v ∧ elem b j = some u ∧
      ∀ k, k ≠ i → k ≠ j → elem b k = elem a k := by
  have ri := elem_range hi
  have rj := elem_range hj
  have hb := put_eq_some v ri.1 ri.2
  have hblen := length_put hb
  have hc := put_eq_some (a := a.set (i - 1) v) u rj.1 (by rw [hblen]; exact rj.2)
  have hwi := windowElem_eq_some.mpr ⟨hfirst, (show i ≤ last by omega), hi⟩
  have hwj := windowElem_eq_some.mpr ⟨(show first ≤ j by omega), hlast, hj⟩
  have read : ∀ k, elem ((a.set (i - 1) v).set (j - 1) u) k =
      if k = j then some u else if k = i then some v else elem a k := by
    intro k
    rw [elem_put hc k, elem_put hb k]
  have hswap : swap a first last i j = some ((a.set (i - 1) v).set (j - 1) u) := by
    simp only [swap, hwi, hwj, hb, Option.bind_eq_bind, Option.bind_some, hc]
  refine ⟨_, hswap, ⟨?_, ?_, ?_⟩, ?_, ?_, ?_⟩
  · obtain ⟨_, hu⟩ := elem_eq_some_iff.mp hi
    obtain ⟨_, hv⟩ := elem_eq_some_iff.mp hj
    subst hu hv
    exact List.set_set_perm (by omega) (by omega)
  · intro k hk
    rw [read, if_neg (by omega), if_neg (by omega)]
  · intro k w h₁ h₂ hk
    rw [read] at hk
    split_ifs at hk with hkj hki
    · exact ⟨i, hfirst, by omega, by rw [hi, hk]⟩
    · exact ⟨j, by omega, hlast, by rw [hj, hk]⟩
    · exact ⟨k, h₁, h₂, hk⟩
  · rw [read, if_neg (by omega), if_pos rfl]
  · rw [read, if_pos rfl]
  · intro k hki hkj
    rw [read, if_neg hkj, if_neg hki]

variable [LinearOrder K]

/-- `do while (a(i) < x); i = i + 1; end do` -/
def scanUp (a : List K) (x : K) (first last i : ℕ) : Option ℕ :=
  if first ≤ i ∧ i ≤ last then do
    let v ← elem a i
    if v < x then scanUp a x first last (i + 1) else some i
  else none
termination_by last + 1 - i

/-- `do while (x < a(j)); j = j - 1; end do` -/
def scanDown (a : List K) (x : K) (first last : ℕ) : ℕ → Option ℕ
  | 0 => none
  | j + 1 =>
    if first ≤ j + 1 ∧ j + 1 ≤ last then do
      let v ← elem a (j + 1)
      if x < v then scanDown a x first last j else some (j + 1)
    else none

/-- The outer `do` loop: scan from both ends, exit when the scans meet, else
swap and step over the swapped pair. -/
def partitionLoop (x : K) (first last : ℕ) : ℕ → List K → ℕ → ℕ → Option (List K × ℕ × ℕ)
  | 0, _, _, _ => none
  | steps + 1, a, i, j => do
    let i ← scanUp a x first last i
    let j ← scanDown a x first last j
    if i ≥ j then some (a, i, j)
    else do
      let a ← swap a first last i j
      partitionLoop x first last steps a (i + 1) (j - 1)

/-- `if (lo < hi) call sort(a, lo, hi)` -/
def callIf (lo hi : ℕ) (sort : List K → ℕ → ℕ → Option (List K)) (a : List K) :
    Option (List K) :=
  if lo < hi then sort a lo hi else some a

/-- `quicksort` with a bound on the recursion depth. -/
def quicksortDepth : ℕ → List K → ℕ → ℕ → Option (List K)
  | 0, _, _, _ => none
  | depth + 1, a, first, last => do
    let x ← windowElem a first last ((first + last) / 2)
    let (a, i, j) ← partitionLoop x first last (last + 1 - first) a first last
    let a ← callIf first (i - 1) (quicksortDepth depth) a
    callIf (j + 1) last (quicksortDepth depth) a

def quicksort (a : List K) (first last : ℕ) : Option (List K) :=
  quicksortDepth (last + 1 - first) a first last

/-- `quicksort_omp` with a bound on the recursion depth. Both halves are tasks;
`leftFirst` tells for each task, named by its path from the root, which half
runs first. -/
def quicksortOmpDepth (leftFirst : List Bool → Bool) :
    ℕ → List Bool → List K → ℕ → ℕ → Option (List K)
  | 0, _, _, _, _ => none
  | depth + 1, path, a, first, last =>
    if last - first + 1 ≤ WORKSIZE then quicksort a first last
    else do
      let x ← windowElem a first last ((first + last) / 2)
      let (a, i, j) ← partitionLoop x first last (last + 1 - first) a first last
      let left := callIf first (i - 1) (quicksortOmpDepth leftFirst depth (true :: path))
      let right := callIf (j + 1) last (quicksortOmpDepth leftFirst depth (false :: path))
      if leftFirst path then (left a).bind right else (right a).bind left

def quicksortOmp (leftFirst : List Bool → Bool) (a : List K) (first last : ℕ) :
    Option (List K) :=
  quicksortOmpDepth leftFirst (last + 1 - first) [] a first last

theorem scanUp_eq (a : List K) (x : K) {first last i : ℕ} {v : K} (hfirst : first ≤ i)
    (hlast : i ≤ last) (hv : elem a i = some v) :
    scanUp a x first last i = if v < x then scanUp a x first last (i + 1) else some i := by
  rw [scanUp, if_pos ⟨hfirst, hlast⟩, hv]
  rfl

theorem scanDown_eq (a : List K) (x : K) {first last j : ℕ} {v : K} (hfirst : first ≤ j + 1)
    (hlast : j + 1 ≤ last) (hv : elem a (j + 1) = some v) :
    scanDown a x first last (j + 1) =
      if x < v then scanDown a x first last j else some (j + 1) := by
  rw [scanDown, if_pos ⟨hfirst, hlast⟩, hv]
  rfl

theorem scanUp_spec (a : List K) (x : K) {first last i k : ℕ} {w : K} (hfirst : first ≤ i)
    (hlen : last ≤ a.length) (hpos : 1 ≤ i) (hik : i ≤ k) (hk : k ≤ last)
    (hw : elem a k = some w) (hxw : x ≤ w) :
    ∃ m v, scanUp a x first last i = some m ∧ i ≤ m ∧ m ≤ k ∧ elem a m = some v ∧ x ≤ v ∧
      ∀ l u, i ≤ l → l < m → elem a l = some u → u < x := by
  obtain ⟨d, rfl⟩ := Nat.exists_eq_add_of_le hik
  induction d generalizing i with
  | zero =>
    refine ⟨i, w, ?_, le_rfl, le_rfl, hw, hxw, fun l u h₁ h₂ => absurd h₁ (by omega)⟩
    rw [scanUp_eq a x hfirst hk hw, if_neg (not_lt.mpr hxw)]
  | succ d ih =>
    obtain ⟨v, hv⟩ := exists_elem (a := a) hpos (by omega)
    rw [scanUp_eq a x hfirst (by omega) hv]
    by_cases hvx : v < x
    · have hnext : i + 1 + d = i + (d + 1) := by omega
      obtain ⟨m, v', hm, h₁, h₂, hv', hxv, below⟩ :=
        ih (i := i + 1) (by omega) (by omega) (by omega) (by omega) (by rwa [hnext])
      rw [hnext] at h₂
      refine ⟨m, v', by rw [if_pos hvx, hm], by omega, h₂, hv', hxv, ?_⟩
      intro l u hl hlm hu
      obtain rfl | hlt := hl.eq_or_lt
      · rw [hv] at hu
        exact Option.some.inj hu ▸ hvx
      · exact below l u hlt hlm hu
    · exact ⟨i, v, by rw [if_neg hvx], le_rfl, by omega, hv, not_lt.mp hvx,
        fun l u h₁ h₂ => absurd h₁ (by omega)⟩

theorem scanDown_spec (a : List K) (x : K) {first last j k : ℕ} {w : K} (hlast : j ≤ last)
    (hlen : last ≤ a.length) (hpos : 1 ≤ k) (hk : first ≤ k) (hkj : k ≤ j)
    (hw : elem a k = some w) (hwx : w ≤ x) :
    ∃ m v, scanDown a x first last j = some m ∧ k ≤ m ∧ m ≤ j ∧ elem a m = some v ∧ v ≤ x ∧
      ∀ l u, m < l → l ≤ j → elem a l = some u → x < u := by
  induction j with
  | zero => omega
  | succ j ih =>
    obtain ⟨v, hv⟩ := exists_elem (a := a) (i := j + 1) (by omega) (by omega)
    rw [scanDown_eq a x (by omega) hlast hv]
    by_cases hxv : x < v
    · have hne : k ≠ j + 1 := by
        rintro rfl
        rw [hv] at hw
        exact absurd (Option.some.inj hw ▸ hxv) (not_lt.mpr hwx)
      obtain ⟨m, v', hm, h₁, h₂, hv', hvx, above⟩ := ih (by omega) (by omega)
      refine ⟨m, v', by rw [if_pos hxv, hm], h₁, by omega, hv', hvx, ?_⟩
      intro l u hml hl hu
      obtain rfl | hlt := hl.eq_or_lt
      · rw [hv] at hu
        exact Option.some.inj hu ▸ hxv
      · exact above l u hml (by omega) hu
    · exact ⟨j + 1, v, by rw [if_neg hxv], hkj, le_rfl, hv, not_lt.mp hxv,
        fun l u h₁ h₂ => absurd h₁ (by omega)⟩

/-- The state of the partition loop: what lies left of `i` is at most the
pivot, what lies right of `j` is at least the pivot, and both scans still have
an element that stops them. -/
structure Scanning (x : K) (first last : ℕ) (a₀ a : List K) (i j : ℕ) : Prop where
  rearranged : Rearranges first last a₀ a
  first_le : first ≤ i
  le_last : j ≤ last
  meet : i ≤ j + 1
  low : ∀ k v, first ≤ k → k < i → elem a k = some v → v ≤ x
  high : ∀ k v, j < k → k ≤ last → elem a k = some v → x ≤ v
  upStop : ∃ k v, i ≤ k ∧ k ≤ last ∧ elem a k = some v ∧ x ≤ v
  downStop : ∃ k v, first ≤ k ∧ k ≤ j ∧ elem a k = some v ∧ v ≤ x

/-- The window after the loop: `first..i-1` below, `j+1..last` above, and a
single pivot between them where the scans met. -/
structure Split (x : K) (first last : ℕ) (a₀ a : List K) (i j : ℕ) : Prop where
  rearranged : Rearranges first last a₀ a
  first_le : first ≤ j
  le_last : i ≤ last
  crossed : j ≤ i
  meet : i ≤ j + 1
  low : ∀ k v, first ≤ k → k < i → elem a k = some v → v ≤ x
  high : ∀ k v, j < k → k ≤ last → elem a k = some v → x ≤ v
  middle : ∀ v, i = j → elem a i = some v → v = x

/-- Both scans have stopped, the upward one at `u` and the downward one at `v`. -/
structure Stopped (x : K) (first last : ℕ) (a₀ a : List K) (i j : ℕ) (u v : K) : Prop where
  rearranged : Rearranges first last a₀ a
  left : elem a i = some u
  right : elem a j = some v
  first_le : first ≤ i
  i_le : i ≤ last
  j_ge : first ≤ j
  le_last : j ≤ last
  meet : i ≤ j + 1
  above : x ≤ u
  below : v ≤ x
  low : ∀ k v, first ≤ k → k < i → elem a k = some v → v ≤ x
  high : ∀ k v, j < k → k ≤ last → elem a k = some v → x ≤ v

theorem Scanning.scan {x : K} {first last : ℕ} {a₀ a : List K} {i j : ℕ}
    (inv : Scanning x first last a₀ a i j) (hpos : 1 ≤ first) (hlen : last ≤ a.length) :
    ∃ i' j' u v, scanUp a x first last i = some i' ∧ scanDown a x first last j = some j' ∧
      i ≤ i' ∧ j' ≤ j ∧ Stopped x first last a₀ a i' j' u v := by
  have hfirst := inv.first_le
  have hlast := inv.le_last
  have hmeet := inv.meet
  obtain ⟨p, w, hip, hp, hw, hxw⟩ := inv.upStop
  obtain ⟨q, z, hq, hqj, hz, hzx⟩ := inv.downStop
  obtain ⟨i', u, hup, hii, hi'p, hu, hxu, below⟩ :=
    scanUp_spec a x hfirst hlen (by omega) hip hp hw hxw
  obtain ⟨j', v, hdown, hqj', hjj, hv, hvx, above⟩ :=
    scanDown_spec a x hlast hlen (by omega) hq hqj hz hzx
  have low : ∀ k t, first ≤ k → k < i' → elem a k = some t → t ≤ x := by
    intro k t hk hki ht
    by_cases hlt : k < i
    · exact inv.low k t hk hlt ht
    · exact (below k t (by omega) hki ht).le
  have high : ∀ k t, j' < k → k ≤ last → elem a k = some t → x ≤ t := by
    intro k t hjk hk ht
    by_cases hlt : j < k
    · exact inv.high k t hlt hk ht
    · exact (above k t hjk (by omega) ht).le
  refine ⟨i', j', u, v, hup, hdown, hii, hjj, inv.rearranged, hu, hv, by omega, by omega,
    by omega, by omega, ?_, hxu, hvx, low, high⟩
  -- an element strictly between the scans would be both below and above the pivot
  by_contra hgap
  obtain ⟨t, ht⟩ := exists_elem (a := a) (i := j' + 1) (by omega) (by omega)
  by_cases hjl : j' + 1 ≤ j
  · have hxt := above (j' + 1) t (by omega) hjl ht
    exact absurd hxt (not_lt.mpr (low (j' + 1) t (by omega) (by omega) ht))
  · have htx := below (j' + 1) t (by omega) (by omega) ht
    exact absurd htx (not_lt.mpr (inv.high (j' + 1) t (by omega) (by omega) ht))

section Stopped

variable {x u v : K} {first last : ℕ} {a₀ a : List K} {i j : ℕ}

theorem Stopped.split (h : Stopped x first last a₀ a i j u v) (hcross : j ≤ i) :
    Split x first last a₀ a i j := by
  refine ⟨h.rearranged, h.j_ge, h.i_le, hcross, h.meet, h.low, h.high, ?_⟩
  rintro t rfl ht
  obtain rfl := Option.some.inj (h.left.symm.trans ht)
  obtain rfl := Option.some.inj (h.left.symm.trans h.right)
  exact le_antisymm h.below h.above

/-- The exchanged elements stop the scans of the next round. -/
theorem Stopped.exchanged (h : Stopped x first last a₀ a i j u v) (hij : i < j) :
    ∃ b, swap a first last i j = some b ∧ Scanning x first last a₀ b (i + 1) (j - 1) := by
  have hfirst := h.first_le
  have hlast := h.le_last
  obtain ⟨b, hb, hre, hbi, hbj, hrest⟩ := swap_spec hij hfirst hlast h.left h.right
  refine ⟨b, hb, h.rearranged.trans hre, by omega, by omega, by omega, ?_, ?_,
    ⟨j, u, by omega, by omega, hbj, h.above⟩, ⟨i, v, by omega, by omega, hbi, h.below⟩⟩
  · intro k t hk hki ht
    by_cases hkeq : k = i
    · subst hkeq
      rw [hbi] at ht
      exact Option.some.inj ht ▸ h.below
    · rw [hrest k hkeq (by omega)] at ht
      exact h.low k t hk (by omega) ht
  · intro k t hjk hk ht
    by_cases hkeq : k = j
    · subst hkeq
      rw [hbj] at ht
      exact Option.some.inj ht ▸ h.above
    · rw [hrest k (by omega) hkeq] at ht
      exact h.high k t (by omega) hk ht

end Stopped

theorem partitionLoop_spec {x : K} {first last : ℕ} {a₀ : List K} (hpos : 1 ≤ first)
    (hlen : last ≤ a₀.length) (steps : ℕ) (a : List K) (i j : ℕ) (hsteps : j < steps + i)
    (inv : Scanning x first last a₀ a i j) (hstart : 0 < steps) :
    ∃ b i' j', partitionLoop x first last steps a i j = some (b, i', j') ∧
      Split x first last a₀ b i' j' := by
  induction steps generalizing a i j with
  | zero => omega
  | succ steps ih =>
    obtain ⟨i', j', u, v, hup, hdown, hii, hjj, stopped⟩ :=
      inv.scan hpos (inv.rearranged.length_eq ▸ hlen)
    rw [partitionLoop, hup, hdown]
    simp only [Option.bind_eq_bind, Option.bind_some]
    by_cases hexit : i' ≥ j'
    · exact ⟨a, i', j', by rw [if_pos hexit], stopped.split hexit⟩
    · obtain ⟨b, hb, inv'⟩ := stopped.exchanged (by omega)
      rw [if_neg hexit, hb, Option.bind_some]
      exact ih b (i' + 1) (j' - 1) (by omega) inv' (by omega)

def SortedOn (first last : ℕ) (a : List K) : Prop :=
  ∀ k l u v, first ≤ k → k < l → l ≤ last → elem a k = some u → elem a l = some v → u ≤ v

/-- A routine that sorts the window `first..last` of every array of length `n`. -/
def Sorts (n first last : ℕ) (f : List K → Option (List K)) : Prop :=
  ∀ a : List K, a.length = n →
    ∃ b, f a = some b ∧ Rearranges first last a b ∧ SortedOn first last b

theorem sortedOn_frame {first last lo hi : ℕ} {a b : List K} (h : Rearranges lo hi a b)
    (hdisjoint : last < lo ∨ hi < first) (hs : SortedOn first last a) :
    SortedOn first last b := by
  intro k l u v hk hkl hl hu hv
  rw [h.frame k (by omega)] at hu
  rw [h.frame l (by omega)] at hv
  exact hs k l u v hk hkl hl hu hv

theorem callIf_sorts {n lo hi : ℕ} {sort : List K → ℕ → ℕ → Option (List K)}
    (h : lo < hi → Sorts n lo hi (fun a => sort a lo hi)) :
    Sorts n lo hi (callIf lo hi sort) := by
  intro a ha
  by_cases hlt : lo < hi
  · simpa only [callIf, if_pos hlt] using h hlt a ha
  · exact ⟨a, if_neg hlt, .refl lo hi a,
      fun k l u v hk hkl hl _ _ => absurd hkl (by omega)⟩

theorem Split.sortedOn {x : K} {first last i j : ℕ} {a₀ a c : List K}
    (split : Split x first last a₀ a i j)
    (hlow : ∀ k v, first ≤ k → k < i → elem c k = some v → v ≤ x)
    (hhigh : ∀ k v, j < k → k ≤ last → elem c k = some v → x ≤ v)
    (hmiddle : i = j → elem c i = elem a i)
    (hleft : SortedOn first (i - 1) c) (hright : SortedOn (j + 1) last c) :
    SortedOn first last c := by
  have hcrossed := split.crossed
  have hmeet := split.meet
  intro k l u v hk hkl hl hu hv
  by_cases hki : k < i
  · by_cases hli : l < i
    · exact hleft k l u v hk hkl (by omega) hu hv
    · have hux := hlow k u hk hki hu
      by_cases hlj : j < l
      · exact hux.trans (hhigh l v hlj hl hv)
      · have hij : i = j := by omega
        have hlv : elem a i = some v := by rw [← hmiddle hij, ← hv, show l = i by omega]
        exact split.middle v hij hlv ▸ hux
  · by_cases hkj : j < k
    · exact hright k l u v (by omega) hkl hl hu hv
    · have hij : i = j := by omega
      have hku : elem a i = some u := by rw [← hmiddle hij, ← hu, show k = i by omega]
      exact split.middle u hij hku ▸ hhigh l v (by omega) hl hv

theorem Split.left_then_right {x : K} {first last i j : ℕ} {a₀ a : List K} (hpos : 1 ≤ first)
    (split : Split x first last a₀ a i j) {f g : List K → Option (List K)}
    (hf : Sorts a.length first (i - 1) f) (hg : Sorts a.length (j + 1) last g) :
    ∃ c, (f a).bind g = some c ∧ Rearranges first last a₀ c ∧ SortedOn first last c := by
  have hmeet := split.meet
  have hcrossed := split.crossed
  have hfirst := split.first_le
  have hlast := split.le_last
  obtain ⟨b, hb, hab, hbs⟩ := hf a rfl
  obtain ⟨c, hc, hbc, hcs⟩ := hg b hab.length_eq
  have hac : Rearranges first last a c :=
    (hab.widen le_rfl (by omega)).trans (hbc.widen (by omega) le_rfl)
  refine ⟨c, by rw [hb, Option.bind_some, hc], split.rearranged.trans hac, ?_⟩
  refine split.sortedOn ?_ ?_ ?_ (sortedOn_frame hbc (by omega) hbs) hcs
  · intro k v hk hki hv
    rw [hbc.frame k (by omega)] at hv
    obtain ⟨l, h₁, h₂, hl⟩ := hab.window k v hk (by omega) hv
    exact split.low l v h₁ (by omega) hl
  · intro k v hjk hk hv
    obtain ⟨l, h₁, h₂, hl⟩ := hbc.window k v (by omega) hk hv
    rw [hab.frame l (by omega)] at hl
    exact split.high l v (by omega) h₂ hl
  · intro hij
    rw [hbc.frame i (by omega), hab.frame i (by omega)]

theorem Split.right_then_left {x : K} {first last i j : ℕ} {a₀ a : List K} (hpos : 1 ≤ first)
    (split : Split x first last a₀ a i j) {f g : List K → Option (List K)}
    (hf : Sorts a.length first (i - 1) f) (hg : Sorts a.length (j + 1) last g) :
    ∃ c, (g a).bind f = some c ∧ Rearranges first last a₀ c ∧ SortedOn first last c := by
  have hmeet := split.meet
  have hcrossed := split.crossed
  have hfirst := split.first_le
  have hlast := split.le_last
  obtain ⟨b, hb, hab, hbs⟩ := hg a rfl
  obtain ⟨c, hc, hbc, hcs⟩ := hf b hab.length_eq
  have hac : Rearranges first last a c :=
    (hab.widen (by omega) le_rfl).trans (hbc.widen le_rfl (by omega))
  refine ⟨c, by rw [hb, Option.bind_some, hc], split.rearranged.trans hac, ?_⟩
  refine split.sortedOn ?_ ?_ ?_ hcs (sortedOn_frame hbc (by omega) hbs)
  · intro k v hk hki hv
    obtain ⟨l, h₁, h₂, hl⟩ := hbc.window k v hk (by omega) hv
    rw [hab.frame l (by omega)] at hl
    exact split.low l v h₁ (by omega) hl
  · intro k v hjk hk hv
    rw [hbc.frame k (by omega)] at hv
    obtain ⟨l, h₁, h₂, hl⟩ := hab.window k v (by omega) hk hv
    exact split.high l v (by omega) h₂ hl
  · intro hij
    rw [hbc.frame i (by omega), hab.frame i (by omega)]

theorem partition_window {a : List K} {first last : ℕ} (hpos : 1 ≤ first) (hle : first ≤ last)
    (hlen : last ≤ a.length) :
    ∃ x b i j, windowElem a first last ((first + last) / 2) = some x ∧
      partitionLoop x first last (last + 1 - first) a first last = some (b, i, j) ∧
      Split x first last a b i j := by
  obtain ⟨x, hx⟩ := exists_elem (a := a) (i := (first + last) / 2) (by omega) (by omega)
  have hwindow := windowElem_eq_some.mpr
    ⟨(show first ≤ (first + last) / 2 by omega), (show (first + last) / 2 ≤ last by omega), hx⟩
  have start : Scanning x first last a a first last :=
    { rearranged := .refl first last a
      first_le := le_rfl
      le_last := le_rfl
      meet := by omega
      low := fun k v h₁ h₂ _ => absurd h₁ (by omega)
      high := fun k v h₁ h₂ _ => absurd h₁ (by omega)
      upStop := ⟨(first + last) / 2, x, by omega, by omega, hx, le_rfl⟩
      downStop := ⟨(first + last) / 2, x, by omega, by omega, hx, le_rfl⟩ }
  obtain ⟨b, i, j, hloop, hsplit⟩ :=
    partitionLoop_spec hpos hlen (last + 1 - first) a first last (by omega) start (by omega)
  exact ⟨x, b, i, j, hwindow, hloop, hsplit⟩

theorem quicksortDepth_sorts (depth n first last : ℕ) (hpos : 1 ≤ first) (hle : first ≤ last)
    (hlen : last ≤ n) (hdepth : last < depth + first) :
    Sorts n first last (fun a : List K => quicksortDepth depth a first last) := by
  induction depth generalizing first last with
  | zero => omega
  | succ depth ih =>
    rintro a rfl
    obtain ⟨x, b, i, j, hx, hloop, split⟩ := partition_window hpos hle hlen
    have hblen := split.rearranged.length_eq
    have hfirst := split.first_le
    have hlast := split.le_last
    simp only [quicksortDepth, hx, hloop, Option.bind_eq_bind, Option.bind_some]
    refine split.left_then_right hpos (callIf_sorts fun hlt => ?_) (callIf_sorts fun hlt => ?_)
    · rw [hblen]
      exact ih first (i - 1) hpos hlt.le (by omega) (by omega)
    · rw [hblen]
      exact ih (j + 1) last (by omega) hlt.le hlen (by omega)

/-- `quicksort` terminates, stays inside its window and sorts it. -/
theorem quicksort_sorts (n first last : ℕ) (hpos : 1 ≤ first) (hle : first ≤ last)
    (hlen : last ≤ n) : Sorts n first last (fun a : List K => quicksort a first last) :=
  quicksortDepth_sorts (last + 1 - first) n first last hpos hle hlen (by omega)

theorem quicksortOmpDepth_sorts (leftFirst : List Bool → Bool) (depth n first last : ℕ)
    (path : List Bool) (hpos : 1 ≤ first) (hle : first ≤ last) (hlen : last ≤ n)
    (hdepth : last < depth + first) :
    Sorts n first last
      (fun a : List K => quicksortOmpDepth leftFirst depth path a first last) := by
  induction depth generalizing first last path with
  | zero => omega
  | succ depth ih =>
    rintro a rfl
    simp only [quicksortOmpDepth]
    split_ifs with hsmall horder
    · exact quicksort_sorts a.length first last hpos hle hlen a rfl
    all_goals
      obtain ⟨x, b, i, j, hx, hloop, split⟩ := partition_window hpos hle hlen
      have hblen := split.rearranged.length_eq
      have hfirst := split.first_le
      have hlast := split.le_last
      have hleft : Sorts (K := K) b.length first (i - 1)
          (callIf first (i - 1) (quicksortOmpDepth leftFirst depth (true :: path))) := by
        apply callIf_sorts
        intro hlt
        rw [hblen]
        exact ih first (i - 1) _ hpos hlt.le (by omega) (by omega)
      have hright : Sorts (K := K) b.length (j + 1) last
          (callIf (j + 1) last (quicksortOmpDepth leftFirst depth (false :: path))) := by
        apply callIf_sorts
        intro hlt
        rw [hblen]
        exact ih (j + 1) last _ (by omega) hlt.le hlen (by omega)
      simp only [hx, hloop, Option.bind_eq_bind, Option.bind_some]
    · exact split.left_then_right hpos hleft hright
    · exact split.right_then_left hpos hleft hright

theorem quicksortOmp_sorts (leftFirst : List Bool → Bool) (n first last : ℕ) (hpos : 1 ≤ first)
    (hle : first ≤ last) (hlen : last ≤ n) :
    Sorts n first last (fun a : List K => quicksortOmp leftFirst a first last) :=
  quicksortOmpDepth_sorts leftFirst (last + 1 - first) n first last [] hpos hle hlen (by omega)

theorem Sorts.whole {n : ℕ} {f : List K → Option (List K)} (h : Sorts n 1 n f) (a : List K)
    (ha : a.length = n) : ∃ b, f a = some b ∧ b.Perm a ∧ b.Pairwise (· ≤ ·) := by
  obtain ⟨b, hb, hre, hs⟩ := h a ha
  refine ⟨b, hb, hre.perm, pairwise_iff_elem.mpr ?_⟩
  intro k l u v hkl hu hv
  have hk := elem_range hu
  have hl := elem_range hv
  exact hs k l u v hk.1 hkl (by rw [← ha, ← hre.length_eq]; exact hl.2) hu hv

end XWebQL.Quicksort
