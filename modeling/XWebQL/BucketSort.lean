import Mathlib.Data.List.Basic
import Mathlib.Data.List.Range
import Mathlib.Tactic.Ring

/-! Stable sorting by a small key: the elements of each key in turn, in the order
of the list. An element goes to the place that the smaller keys and the equal ones
before it leave. -/

namespace XWebQL.BucketSort

variable {α : Type*} {key : α → ℕ} {l : List α} {lo n i : ℕ} {x : α}

/-- The elements with keys from `lo` on, `n` keys in all. -/
def buckets (key : α → ℕ) (l : List α) (lo n : ℕ) : List α :=
  (List.range' lo n).flatMap fun k => l.filter fun x => key x = k

/-- The place of an element `x` with the elements of `before` ahead of it. -/
def place (key : α → ℕ) (l before : List α) (x : α) : ℕ :=
  l.countP (fun y => key y < key x) + before.countP fun y => key y = key x

theorem place_map {β : Type*} (f : β → α) (l before : List β) (x : β) :
    place key (l.map f) (before.map f) (f x) = place (fun y => key (f y)) l before x := by
  simp only [place, List.countP_map, Function.comp_def]

theorem buckets_succ (key : α → ℕ) (l : List α) (lo n : ℕ) :
    buckets key l lo (n + 1) = buckets key l lo n ++ l.filter fun x => key x = lo + n := by
  rw [buckets, List.range'_concat, List.flatMap_append, ← buckets, List.flatMap_singleton,
    Nat.one_mul]

theorem buckets_perm (key : α → ℕ) (l : List α) (lo n : ℕ) :
    (buckets key l lo n).Perm (l.filter fun x => lo ≤ key x ∧ key x < lo + n) := by
  induction n with
  | zero =>
    have hnone : l.filter (fun x => decide (lo ≤ key x ∧ key x < lo + 0)) = [] := by
      refine List.filter_eq_nil_iff.mpr fun x _ => ?_
      simp
    rw [hnone]
    exact List.Perm.refl _
  | succ n ih =>
    rw [buckets_succ]
    let both := l.filter fun x => lo ≤ key x ∧ key x < lo + (n + 1)
    have hlow : both.filter (fun x => key x < lo + n) =
        l.filter fun x => lo ≤ key x ∧ key x < lo + n := by
      rw [List.filter_filter]
      refine List.filter_congr fun x _ => ?_
      grind
    have hhigh : both.filter (fun x => !decide (key x < lo + n)) =
        l.filter fun x => key x = lo + n := by
      rw [List.filter_filter]
      refine List.filter_congr fun x _ => ?_
      grind
    have hsplit := List.filter_append_perm (fun x => decide (key x < lo + n)) both
    rw [hlow, hhigh] at hsplit
    exact (ih.append_right _).trans hsplit

theorem length_buckets (key : α → ℕ) (l : List α) (lo n : ℕ) :
    (buckets key l lo n).length = l.countP fun x => lo ≤ key x ∧ key x < lo + n := by
  rw [(buckets_perm key l lo n).length_eq, List.countP_eq_length_filter]

theorem buckets_place (key : α → ℕ) (lo n : ℕ) (hl : l = before ++ x :: after)
    (hkeys : ∀ y ∈ l, lo ≤ key y) (hx : key x < lo + n) :
    (buckets key l lo n)[place key l before x]? = some x := by
  have hlo : lo ≤ key x := hkeys x (by simp [hl])
  obtain ⟨k, hk⟩ := Nat.exists_eq_add_of_le hlo
  obtain ⟨m, rfl⟩ := Nat.exists_eq_add_of_lt (show k < n by omega)
  have hrange : List.range' lo (k + m + 1) =
      List.range' lo k ++ (lo + k) :: List.range' (lo + k + 1) m := by
    rw [Nat.add_assoc, ← List.range'_append_1, List.range'_succ]
  have hfirst : (buckets key l lo k).length = l.countP fun y => key y < key x := by
    rw [length_buckets]
    refine List.countP_congr fun y hy => ?_
    have := hkeys y hy
    simp only [decide_eq_true_eq]
    omega
  have hfilter : l.filter (fun y => key y = lo + k) =
      before.filter (fun y => key y = lo + k) ++ x :: after.filter fun y => key y = lo + k := by
    rw [hl, List.filter_append, List.filter_cons_of_pos (by simp [hk])]
  rw [buckets, hrange, List.flatMap_append, List.flatMap_cons, ← buckets, place, ← hfirst,
    List.getElem?_append_right (Nat.le_add_right _ _), Nat.add_sub_cancel_left, hfilter, hk,
    List.append_assoc, List.getElem?_append_right (by rw [List.countP_eq_length_filter]),
    List.countP_eq_length_filter, Nat.sub_self]
  rfl

theorem place_lt (hl : l = before ++ x :: after) : place key l before x < l.length := by
  have hsome := buckets_place key 0 (key x + 1) hl (fun _ _ => Nat.zero_le _) (by omega)
  have hlt := (List.getElem?_eq_some_iff.mp hsome).1
  rw [length_buckets] at hlt
  exact hlt.trans_le List.countP_le_length

theorem place_lt_countP (hl : l = before ++ x :: after) :
    place key l before x < l.countP fun y => key y ≤ key x := by
  have hsplit : l.countP (fun y => key y ≤ key x) =
      l.countP (fun y => key y < key x) + l.countP fun y => key y = key x := by
    clear hl
    induction l with
    | nil => rfl
    | cons y l ih =>
      simp only [List.countP_cons, decide_eq_true_eq, ih]
      split_ifs <;> omega
  have hbefore : before.countP (fun y => key y = key x) < l.countP fun y => key y = key x := by
    rw [hl, List.countP_append, List.countP_cons_of_pos (by simp)]
    omega
  rw [place, hsplit]
  exact Nat.add_lt_add_left hbefore _

theorem place_lt_place (hl : l = before ++ x :: after) (hkey : key x < key x') :
    place key l before x < place key l before' x' := by
  have hle : l.countP (fun y => key y ≤ key x) ≤ l.countP fun y => key y < key x' := by
    refine List.countP_mono_left fun y _ hy => ?_
    simp only [decide_eq_true_eq] at hy ⊢
    omega
  exact ((place_lt_countP hl).trans_le hle).trans_le (Nat.le_add_right _ _)

theorem place_lt_place_of_length (hl : l = before ++ x :: after) (hl' : l = before' ++ x' :: after')
    (hkey : key x = key x') (hlen : before.length < before'.length) :
    place key l before x < place key l before' x' := by
  have hprefix : before ++ [x] <+: before' := by
    have hwhole : before ++ [x] <+: l :=
      ⟨after, by rw [hl, List.append_assoc, List.singleton_append]⟩
    have hother : before' <+: l := ⟨x' :: after', hl'.symm⟩
    refine List.prefix_of_prefix_length_le hwhole hother ?_
    · rw [List.length_append, List.length_singleton]
      exact hlen
  have hcount : before.countP (fun y => key y = key x) <
      before'.countP fun y => key y = key x' := by
    rw [← hkey]
    refine Nat.lt_of_lt_of_le ?_ hprefix.sublist.countP_le
    rw [List.countP_append, List.countP_singleton]
    simp
  rw [place, place, hkey]
  rw [hkey] at hcount
  exact Nat.add_lt_add_left hcount _

theorem place_injective (hl : l = before ++ x :: after) (hl' : l = before' ++ x' :: after')
    (h : place key l before x = place key l before' x') : before.length = before'.length := by
  rcases Nat.lt_trichotomy (key x) (key x') with hlt | heq | hgt
  · exact absurd h (place_lt_place hl hlt).ne
  · rcases Nat.lt_trichotomy before.length before'.length with hlen | hlen | hlen
    · exact absurd h (place_lt_place_of_length hl hl' heq hlen).ne
    · exact hlen
    · exact absurd h (place_lt_place_of_length hl' hl heq.symm hlen).ne'
  · exact absurd h (place_lt_place hl' hgt).ne'

/-- Sorting keeps an order that the keys agree with and that the elements of one
key have already. -/
theorem buckets_pairwise {R : α → α → Prop} (hsame : l.Pairwise fun x y => key x = key y → R x y)
    (hless : ∀ x ∈ l, ∀ y ∈ l, key x < key y → R x y) : (buckets key l lo n).Pairwise R := by
  induction n with
  | zero => exact List.Pairwise.nil
  | succ n ih =>
    rw [buckets_succ, List.pairwise_append]
    refine ⟨ih, ?_, ?_⟩
    · rw [List.pairwise_filter]
      refine hsame.imp fun h hx hy => h ?_
      simp only [decide_eq_true_eq] at hx hy
      rw [hx, hy]
    · intro x hx y hy
      have hx' := (buckets_perm key l lo n).subset hx
      simp only [List.mem_filter, decide_eq_true_eq] at hx' hy
      exact hless x hx'.1 y hy.1 (by omega)

end XWebQL.BucketSort
