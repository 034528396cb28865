import XWebQL.BucketSort
import Mathlib.Data.List.GetD
import Mathlib.Data.List.Lex
import Mathlib.Data.List.Rotate
import Mathlib.Data.List.Sort
import Mathlib.Data.Fintype.EquivFin
import Mathlib.Order.Monotone.Defs

/-! The Burrows-Wheeler transform. The rotations of a list are sorted and their
last letters kept. Sorting the last letters again, equal ones in their order, leads
from each row to the one that is rotated by one letter more. -/

namespace XWebQL.BurrowsWheeler

open BucketSort

section Rotations

variable {α : Type*} {l row u : List α}

def rotations (l : List α) : List (List α) := (List.range l.length).map fun k => l.rotate k

def turn (row : List α) : List α := row.rotate (row.length - 1)

theorem turn_append (u : List α) (c : α) : turn (u ++ [c]) = c :: u := by
  rw [turn, List.length_append, List.length_singleton, Nat.add_sub_cancel,
    List.rotate_append_length_eq, List.singleton_append]

theorem rotate_turn (hrow : row ≠ []) : (turn row).rotate 1 = row := by
  have hpos := List.length_pos_iff.mpr hrow
  rw [turn, List.rotate_rotate, Nat.sub_add_cancel hpos, List.rotate_length]

theorem turn_rotations (l : List α) : ((rotations l).map turn).Perm (rotations l) := by
  cases hn : l.length with
  | zero =>
    rw [rotations, hn]
    exact List.Perm.refl _
  | succ n =>
    have hturn : (rotations l).map turn = l.rotate n :: (List.range n).map fun k => l.rotate k := by
      rw [rotations, hn, List.range_succ_eq_map, List.map_cons, List.map_map, List.map_cons,
        List.map_map]
      congr 1
      · rw [turn, List.length_rotate, List.rotate_rotate, hn, Nat.zero_add, Nat.add_sub_cancel]
      · refine List.map_congr_left fun k _ => ?_
        rw [Function.comp_apply, Function.comp_apply, turn, List.length_rotate, List.rotate_rotate,
          hn, Nat.succ_add, Nat.add_sub_cancel, ← Nat.add_succ, ← List.rotate_rotate,
          show n.succ = (l.rotate k).length by rw [List.length_rotate, hn], List.rotate_length]
    have hrotations : rotations l = (List.range n).map (fun k => l.rotate k) ++ [l.rotate n] := by
      rw [rotations, hn, List.range_succ, List.map_append, List.map_singleton]
    rw [hturn, hrotations]
    exact (List.perm_append_singleton _ _).symm

end Rotations

section Rows

variable {α : Type*} [LinearOrder α] {l row u v : List α} {c : α}

def rows (l : List α) : List (List α) := (rotations l).mergeSort fun u v => u ≤ v

theorem rows_perm (l : List α) : (rows l).Perm (rotations l) := List.mergeSort_perm _ _

@[simp] theorem length_rows (l : List α) : (rows l).length = l.length := by
  rw [(rows_perm l).length_eq, rotations, List.length_map, List.length_range]

theorem rows_sorted (l : List α) : (rows l).Pairwise (· ≤ ·) := by
  have h : (rows l).Pairwise fun u v => decide (u ≤ v) = true := List.pairwise_mergeSort
    (by simpa using fun _ _ _ => le_trans) (by simpa using fun _ _ => le_total _ _) (rotations l)
  exact h.imp fun h => of_decide_eq_true h

theorem exists_rotate (hrow : row ∈ rows l) : ∃ k < l.length, row = l.rotate k := by
  have hmem := (rows_perm l).subset hrow
  simp only [rotations, List.mem_map, List.mem_range] at hmem
  obtain ⟨k, hk, rfl⟩ := hmem
  exact ⟨k, hk, rfl⟩

theorem length_row (hrow : row ∈ rows l) : row.length = l.length := by
  obtain ⟨k, -, rfl⟩ := exists_rotate hrow
  exact List.length_rotate l k

theorem row_ne_nil (hrow : row ∈ rows l) : row ≠ [] := by
  obtain ⟨k, hk, rfl⟩ := exists_rotate hrow
  rw [← List.length_pos_iff, List.length_rotate]
  omega

theorem append_lt_append (w : List α) (hlen : v.length = u.length) (h : v < u) :
    v ++ w < u ++ w := by
  induction v generalizing u with
  | nil =>
    rw [List.length_eq_zero_iff.mp hlen.symm] at h
    exact absurd h (lt_irrefl _)
  | cons a v ih =>
    cases u with
    | nil => exact absurd hlen (Nat.succ_ne_zero _)
    | cons b u =>
      rw [List.cons_append, List.cons_append, List.cons_lt_cons_iff]
      rcases List.cons_lt_cons_iff.mp h with hab | ⟨hab, hvu⟩
      · exact Or.inl hab
      · exact Or.inr ⟨hab, ih (Nat.succ.inj hlen) hvu⟩

theorem cons_le_cons (hlen : u.length = v.length) (h : u ++ [c] ≤ v ++ [c]) :
    c :: u ≤ c :: v := by
  refine List.cons_le_cons c (not_lt.mp fun hvu => ?_)
  exact not_lt.mpr h (append_lt_append [c] hlen.symm hvu)

end Rows

section Key

variable {α : Type*} [LinearOrder α] [Inhabited α] {key : α → ℕ} {l row u v : List α} {n : ℕ}

def lastColumn (l : List α) : List α := (rows l).map fun row => row.getLastD default

@[simp] theorem length_lastColumn (l : List α) : (lastColumn l).length = l.length := by
  rw [lastColumn, List.length_map, length_rows]

def headKey (key : α → ℕ) (row : List α) : ℕ := key (row.headD default)

omit [LinearOrder α] in
theorem turn_cons (hrow : row ≠ []) : turn row = row.getLastD default :: row.dropLast := by
  conv_lhs => rw [← List.dropLast_append_getLast hrow, turn_append]
  rw [List.getLastD_eq_getLast?, List.getLast?_eq_some_getLast hrow, Option.getD_some]

omit [LinearOrder α] in
theorem headKey_turn (hrow : row ≠ []) : headKey key (turn row) = key (row.getLastD default) := by
  rw [turn_cons hrow]
  rfl

theorem turn_le_turn (hkey : Function.Injective key) (hlen : u.length = v.length) (hu : u ≠ [])
    (hv : v ≠ []) (hle : u ≤ v) (hsame : headKey key (turn u) = headKey key (turn v)) :
    turn u ≤ turn v := by
  rw [← List.dropLast_append_getLast hu, ← List.dropLast_append_getLast hv] at hle hsame ⊢
  rw [turn_append, turn_append] at hsame ⊢
  have hletter : u.getLast hu = v.getLast hv := hkey hsame
  rw [hletter] at hle ⊢
  refine cons_le_cons ?_ hle
  rw [List.length_dropLast, List.length_dropLast, hlen]

theorem le_of_headKey_lt (hkey : StrictMono key) (hu : u ≠ []) (hv : v ≠ [])
    (h : headKey key u < headKey key v) : u ≤ v := by
  cases u with
  | nil => exact absurd rfl hu
  | cons a u =>
    cases v with
    | nil => exact absurd rfl hv
    | cons b v => exact (List.cons_lt_cons_iff.mpr (Or.inl (hkey.lt_iff_lt.mp h))).le

/-- The rows come from the turned rows by a stable sort for the first letter. -/
theorem rows_eq_buckets (hkey : StrictMono key) (hn : ∀ a ∈ l, key a < n) :
    rows l = buckets (headKey key) ((rows l).map turn) 0 n := by
  have hturned : ((rows l).map turn).Perm (rows l) :=
    (((rows_perm l).map turn).trans (turn_rotations l)).trans (rows_perm l).symm
  have hne : ∀ row ∈ (rows l).map turn, row ≠ [] := fun row hrow =>
    row_ne_nil (hturned.subset hrow)
  have hall : ((rows l).map turn).filter
      (fun row => 0 ≤ headKey key row ∧ headKey key row < 0 + n) = (rows l).map turn := by
    refine List.filter_eq_self.mpr fun row hrow => ?_
    have hhead := List.head_mem (hne row hrow)
    obtain ⟨k, hk, rfl⟩ := exists_rotate (hturned.subset hrow)
    have hlt := hn _ (List.mem_rotate.mp hhead)
    rw [headKey, List.headD_eq_head?_getD, List.head?_eq_some_head (hne _ hrow), Option.getD_some]
    simpa using hlt
  have hperm := buckets_perm (headKey key) ((rows l).map turn) 0 n
  rw [hall] at hperm
  have hsorted : (buckets (headKey key) ((rows l).map turn) 0 n).Pairwise (· ≤ ·) := by
    refine buckets_pairwise ?_ fun u hu v hv hlt =>
      le_of_headKey_lt hkey (hne u hu) (hne v hv) hlt
    rw [List.pairwise_map]
    refine (rows_sorted l).imp_of_mem fun hu hv hle hsame => ?_
    exact turn_le_turn hkey.injective (by rw [length_row hu, length_row hv]) (row_ne_nil hu)
      (row_ne_nil hv) hle hsame
  exact (hperm.trans hturned).symm.eq_of_pairwise' (rows_sorted l) hsorted

theorem lastColumn_eq (l : List α) :
    lastColumn l = ((rows l).map turn).map fun row => row.headD default := by
  rw [lastColumn, List.map_map]
  refine List.map_congr_left fun row hrow => ?_
  rw [Function.comp_apply, turn_cons (row_ne_nil hrow), List.headD_cons]

/-- The place of the `i`-th letter of the column among all of them. -/
def next (key : α → ℕ) (column : List α) (i : ℕ) : ℕ :=
  place key column (column.take i) (column.getD i default)

omit [LinearOrder α] in
theorem split_getD {column : List α} {i : ℕ} (hi : i < column.length) :
    column = column.take i ++ column.getD i default :: column.drop (i + 1) := by
  rw [List.getD_eq_getElem _ _ hi, ← List.drop_eq_getElem_cons hi, List.take_append_drop]

omit [LinearOrder α] in
theorem next_lt {column : List α} {i : ℕ} (hi : i < column.length) :
    next key column i < column.length := place_lt (split_getD hi)

omit [LinearOrder α] in
theorem next_injective {column : List α} {i j : ℕ} (hi : i < column.length)
    (hj : j < column.length) (h : next key column i = next key column j) : i = j := by
  have hlen := place_injective (split_getD hi) (split_getD hj) h
  rwa [List.length_take_of_le hi.le, List.length_take_of_le hj.le] at hlen

omit [LinearOrder α] in
theorem exists_next (key : α → ℕ) {column : List α} {p : ℕ} (hp : p < column.length) :
    ∃ i < column.length, next key column i = p := by
  have hinjective : Function.Injective fun i : Fin column.length =>
      (⟨next key column i, next_lt i.isLt⟩ : Fin column.length) := by
    intro i j hij
    exact Fin.ext (next_injective i.isLt j.isLt (congrArg Fin.val hij))
  obtain ⟨i, hi⟩ := Finite.surjective_of_injective hinjective ⟨p, hp⟩
  exact ⟨i, i.isLt, congrArg Fin.val hi⟩

theorem rows_next (hkey : StrictMono key) (hn : ∀ a ∈ l, key a < n) {i : ℕ} (hi : i < l.length) :
    (rows l)[next key (lastColumn l) i]? = (rows l)[i]?.map turn := by
  let turned := (rows l).map turn
  have hlen : i < turned.length := by rwa [List.length_map, length_rows]
  have hsplit : turned = turned.take i ++ turned[i] :: turned.drop (i + 1) := by
    rw [← List.drop_eq_getElem_cons hlen, List.take_append_drop]
  have hplace : next key (lastColumn l) i =
      place (headKey key) turned (turned.take i) turned[i] := by
    rw [next, lastColumn_eq, List.getD_eq_getElem _ _ (by rwa [List.length_map]), List.getElem_map,
      ← List.map_take, place_map]
    rfl
  have hbound : headKey key turned[i] < 0 + n := by
    have hrow := List.getElem_mem (l := rows l) (n := i) (by rwa [length_rows])
    have hne := row_ne_nil hrow
    obtain ⟨k, -, hk⟩ := exists_rotate hrow
    rw [List.getElem_map, headKey_turn hne, List.getLastD_eq_getLast?,
      List.getLast?_eq_some_getLast hne, Option.getD_some, Nat.zero_add]
    refine hn _ (List.mem_rotate.mp (?_ : _ ∈ l.rotate k))
    rw [← hk]
    exact List.getLast_mem hne
  calc (rows l)[next key (lastColumn l) i]? =
        (buckets (headKey key) turned 0 n)[place (headKey key) turned (turned.take i)
          turned[i]]? := by rw [← rows_eq_buckets hkey hn, hplace]
    _ = some turned[i] := buckets_place (headKey key) 0 n hsplit (fun _ _ => Nat.zero_le _) hbound
    _ = (rows l)[i]?.map turn := by rw [← List.getElem?_map, List.getElem?_eq_getElem hlen]

/-- A table that leads from each place back to its letter leads from each row to
the one that is rotated by one letter more. -/
theorem rows_link (hkey : StrictMono key) (hn : ∀ a ∈ l, key a < n) {T : ℕ → ℕ}
    (hT : ∀ i < l.length, T (next key (lastColumn l) i) = i) {p : ℕ}
    (hp : (rows l)[p]? = some row) : (rows l)[T p]? = some (row.rotate 1) := by
  have hlt : p < l.length := by
    have h := (List.getElem?_eq_some_iff.mp hp).1
    rwa [length_rows] at h
  obtain ⟨i, hi, rfl⟩ := exists_next key (hlt.trans_eq (length_lastColumn l).symm)
  rw [length_lastColumn] at hi
  have hi' : i < (rows l).length := by rwa [length_rows]
  rw [rows_next hkey hn hi, List.getElem?_eq_getElem hi', Option.map_some] at hp
  rw [hT i hi, List.getElem?_eq_getElem hi', ← Option.some.inj hp,
    rotate_turn (row_ne_nil (List.getElem_mem hi'))]

theorem rows_iterate (hkey : StrictMono key) (hn : ∀ a ∈ l, key a < n) {T : ℕ → ℕ}
    (hT : ∀ i < l.length, T (next key (lastColumn l) i) = i) {p : ℕ} (hp : (rows l)[p]? = some l)
    (k : ℕ) : (rows l)[T^[k] p]? = some (l.rotate k) := by
  induction k with
  | zero => rw [Function.iterate_zero, id, List.rotate_zero, hp]
  | succ k ih =>
    rw [Function.iterate_succ_apply', rows_link hkey hn hT ih, List.rotate_rotate]

theorem lastColumn_iterate (hkey : StrictMono key) (hn : ∀ a ∈ l, key a < n) {T : ℕ → ℕ}
    (hT : ∀ i < l.length, T (next key (lastColumn l) i) = i) {p : ℕ} (hp : (rows l)[p]? = some l)
    {k : ℕ} (hk : k < l.length) : (lastColumn l)[T^[k + 1] p]? = l[k]? := by
  have hindex : (l.length - 1 + (k + 1)) % l.length = k := by
    rw [show l.length - 1 + (k + 1) = k + l.length by omega, Nat.add_mod_right, Nat.mod_eq_of_lt hk]
  rw [lastColumn, List.getElem?_map, rows_iterate hkey hn hT hp, Option.map_some,
    List.getLastD_eq_getLast?, List.getLast?_eq_getElem?, List.length_rotate,
    List.getElem?_rotate (by omega), hindex, List.getElem?_eq_getElem hk, Option.getD_some]

end Key

end XWebQL.BurrowsWheeler
