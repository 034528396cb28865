import Mathlib.Data.List.Basic

/-! A buffer that is filled from the front, one cell after the other.
The buffer keeps a log of its stores, so that what was written and how often can
be told from what the cells hold. -/

namespace XWebQL.FrontFill

variable {β : Type}

structure Buffer (β : Type) where
  cells : List β
  written : List ℕ
deriving DecidableEq, Repr

/-- There is no store outside the cells. -/
def Buffer.store (b : Buffer β) (k : ℕ) (v : β) : Option (Buffer β) :=
  if k < b.cells.length then some ⟨b.cells.set k v, b.written ++ [k]⟩ else none

/-- The first `n` cells of `start` have got their value, each by one store. -/
structure Filled (start : List β) (value : ℕ → Option β) (n : ℕ) (b : Buffer β) : Prop where
  written : b.written = List.range n
  length : b.cells.length = start.length
  filled : ∀ k < n, b.cells[k]? = value k
  rest : ∀ k, n ≤ k → b.cells[k]? = start[k]?

variable {start : List β} {value : ℕ → Option β} {n : ℕ} {b : Buffer β}

theorem filled_zero : Filled start value 0 ⟨start, []⟩ :=
  ⟨rfl, rfl, fun k hk => absurd hk (Nat.not_lt_zero k), fun _ _ => rfl⟩

theorem filled_store (h : Filled start value n b) (hn : n < start.length) {v : β}
    (hv : value n = some v) : ∃ b', b.store n v = some b' ∧ Filled start value (n + 1) b' := by
  have hlength : n < b.cells.length := by rw [h.length]; exact hn
  refine ⟨⟨b.cells.set n v, b.written ++ [n]⟩, if_pos hlength, ?_, ?_, ?_, ?_⟩
  · rw [h.written, List.range_succ]
  · exact List.length_set.trans h.length
  · intro k hk
    rcases Nat.lt_succ_iff_lt_or_eq.mp hk with hk | rfl
    · exact (List.getElem?_set_ne (Nat.ne_of_gt hk)).trans (h.filled k hk)
    · exact (List.getElem?_set_self hlength).trans hv.symm
  · intro k hk
    exact (List.getElem?_set_ne (Nat.ne_of_lt hk)).trans (h.rest k (Nat.le_of_succ_le hk))

end XWebQL.FrontFill
