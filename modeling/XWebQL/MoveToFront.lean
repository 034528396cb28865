import Mathlib.Data.List.Basic
import Mathlib.Data.Nat.Bits
import Mathlib.Tactic.Ring

/-! Moving letters to the front of a table and writing down their places.
A run of the letter at the front is written as its length, in base two with the
digits one and two, so that no run has two codes. -/

namespace XWebQL.MoveToFront

variable {α : Type*} [DecidableEq α]

def digits : ℕ → List ℕ
  | 0 => []
  | n + 1 => n % 2 :: digits (n / 2)

theorem digits_lt {n d : ℕ} (h : d ∈ digits n) : d < 2 := by
  induction n using digits.induct with
  | case1 =>
    rw [digits] at h
    exact absurd h List.not_mem_nil
  | case2 n ih =>
    rw [digits, List.mem_cons] at h
    rcases h with rfl | h
    · exact Nat.mod_lt n Nat.two_pos
    · exact ih h

def weigh (s : ℕ × ℕ) (d : ℕ) : ℕ × ℕ := (s.1 + s.2 * (d + 1), 2 * s.2)

theorem foldl_weigh (n t p : ℕ) :
    (digits n).foldl weigh (t, p) = (t + p * n, p * 2 ^ (digits n).length) := by
  induction n using digits.induct generalizing t p with
  | case1 => simp [digits]
  | case2 n ih =>
    have hsplit : n.succ = n % 2 + 1 + 2 * (n / 2) := by omega
    rw [digits, List.foldl_cons, weigh, ih, List.length_cons, pow_succ, Prod.mk.injEq]
    refine ⟨?_, by ring⟩
    rw [hsplit]
    ring

theorem two_pow_digits_le (n : ℕ) : 2 ^ (digits n).length ≤ n + 1 := by
  induction n using digits.induct with
  | case1 => rw [digits, List.length_nil, pow_zero, Nat.zero_add]
  | case2 n ih =>
    rw [digits, List.length_cons, pow_succ]
    omega

/-- The symbols of the letters behind a run of `z` letters from the front: the
digits of a run, and a letter's place plus one. -/
def symbols (table : List α) (z : ℕ) : List α → List ℕ
  | [] => digits z
  | x :: l =>
    if table.head? = some x then symbols table (z + 1) l
    else digits z ++
      (table.idxOf x + 1) :: symbols (x :: table.eraseIdx (table.idxOf x)) 0 l

theorem mem_toFront {table : List α} {x y : α} (hy : y ∈ table) :
    y ∈ x :: table.eraseIdx (table.idxOf x) := by
  rw [← List.erase_eq_eraseIdx_of_idxOf rfl]
  by_cases hyx : y = x
  · rw [hyx]
    exact List.mem_cons_self
  · exact List.mem_cons_of_mem x ((List.mem_erase_of_ne hyx).mpr hy)

theorem length_toFront {table : List α} {x : α} (hx : x ∈ table) :
    (x :: table.eraseIdx (table.idxOf x)).length = table.length := by
  have hlt := List.idxOf_lt_length_of_mem hx
  rw [List.length_cons, List.length_eraseIdx_of_lt hlt]
  omega

theorem symbols_lt {table : List α} {z : ℕ} {l : List α} (hl : ∀ x ∈ l, x ∈ table) {d : ℕ}
    (hd : d ∈ symbols table z l) : d < 2 ∨ d ≤ table.length := by
  induction l generalizing table z with
  | nil => exact Or.inl (digits_lt hd)
  | cons x l ih =>
    rw [symbols] at hd
    split_ifs at hd with hfront
    · exact ih (fun y hy => hl y (List.mem_cons_of_mem x hy)) hd
    · have hx := hl x List.mem_cons_self
      rcases List.mem_append.mp hd with hd | hd
      · exact Or.inl (digits_lt hd)
      · rcases List.mem_cons.mp hd with rfl | hd
        · exact Or.inr (List.idxOf_lt_length_of_mem hx)
        · rw [← length_toFront hx]
          exact ih (fun y hy => mem_toFront (hl y (List.mem_cons_of_mem x hy))) hd

end XWebQL.MoveToFront
