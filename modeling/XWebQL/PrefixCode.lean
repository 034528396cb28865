import XWebQL.BitStream
import Mathlib.Algebra.BigOperators.Group.Finset.Basic
import Mathlib.Algebra.Order.BigOperators.Group.Finset

/-! Canonical prefix codes. The codes of one length are consecutive numbers in the
order of the symbols, and the codes of the next length go on from them with a zero
behind. The lengths satisfy Kraft's inequality exactly when there is room for all. -/

namespace XWebQL.PrefixCode

open BitStream

section Counts

variable {count : ℕ → ℕ}

/-- The first code of `i` bits, where `count` says how many codes there are of each
length. -/
def first (count : ℕ → ℕ) : ℕ → ℕ
  | 0 => 0
  | i + 1 => 2 * (first count i + count i)

/-- The number of codes of fewer than `i` bits. -/
def below (count : ℕ → ℕ) : ℕ → ℕ
  | 0 => 0
  | i + 1 => below count i + count i

theorem below_le_first (count : ℕ → ℕ) (i : ℕ) : below count i ≤ first count i := by
  induction i with
  | zero => exact le_rfl
  | succ i ih =>
    rw [below, first]
    omega

theorem first_add_le (count : ℕ → ℕ) {i l : ℕ} (h : i < l) :
    (first count i + count i) * 2 ^ (l - i) ≤ first count l := by
  induction l, h using Nat.le_induction with
  | base =>
    rw [first, show i.succ - i = 1 by omega, pow_one, Nat.mul_comm]
  | succ l hl ih =>
    rw [first, show l + 1 - i = l - i + 1 by omega, pow_succ, ← Nat.mul_assoc]
    omega

theorem first_eq_zero {i : ℕ} (h : ∀ j < i, count j = 0) : first count i = 0 := by
  induction i with
  | zero => rfl
  | succ i ih => rw [first, ih fun j hj => h j (by omega), h i (Nat.lt_succ_self i)]

theorem below_eq_zero {i : ℕ} (h : ∀ j < i, count j = 0) : below count i = 0 := by
  induction i with
  | zero => rfl
  | succ i ih => rw [below, ih fun j hj => h j (by omega), h i (Nat.lt_succ_self i)]

theorem first_congr {count' : ℕ → ℕ} {i : ℕ} (h : ∀ j < i, count j = count' j) :
    first count i = first count' i := by
  induction i with
  | zero => rfl
  | succ i ih => rw [first, first, ih fun j hj => h j (by omega), h i (Nat.lt_succ_self i)]

theorem below_congr {count' : ℕ → ℕ} {i : ℕ} (h : ∀ j < i, count j = count' j) :
    below count i = below count' i := by
  induction i with
  | zero => rfl
  | succ i ih => rw [below, below, ih fun j hj => h j (by omega), h i (Nat.lt_succ_self i)]

theorem first_mul_pow {i m : ℕ} (hi : i ≤ m) :
    first count i * 2 ^ (m - i) = ∑ j ∈ Finset.range i, count j * 2 ^ (m - j) := by
  induction i with
  | zero => rw [first, Nat.zero_mul, Finset.sum_range_zero]
  | succ i ih =>
    obtain ⟨k, rfl⟩ := Nat.exists_eq_add_of_le hi
    rw [Finset.sum_range_succ, ← ih (by omega), first, show i + 1 + k - (i + 1) = k by omega,
      show i + 1 + k - i = k + 1 by omega, pow_succ]
    ring

end Counts

variable {lengths : List ℕ} {m : ℕ}

/-- Kraft's inequality for lengths up to `m`. -/
def Kraft (m : ℕ) (lengths : List ℕ) : Prop :=
  (∀ l ∈ lengths, l ≤ m) ∧ (lengths.map fun l => 2 ^ (m - l)).sum ≤ 2 ^ m

theorem sum_count (hm : ∀ l ∈ lengths, l ≤ m) :
    (lengths.map fun l => 2 ^ (m - l)).sum =
      ∑ j ∈ Finset.range (m + 1), lengths.count j * 2 ^ (m - j) := by
  rw [Finset.sum_list_map_count]
  refine Finset.sum_subset (fun l hl => ?_) fun l _ hl => ?_
  · exact Finset.mem_range.mpr (Nat.lt_succ_of_le (hm l (List.mem_toFinset.mp hl)))
  · rw [List.mem_toFinset] at hl
    rw [List.count_eq_zero_of_not_mem hl, zero_nsmul]

theorem Kraft.first_add_count_le (h : Kraft m lengths) {i : ℕ} (hi : i ≤ m) :
    first lengths.count i + lengths.count i ≤ 2 ^ i := by
  have hsum : (first lengths.count i + lengths.count i) * 2 ^ (m - i) ≤ 2 ^ i * 2 ^ (m - i) := by
    calc (first lengths.count i + lengths.count i) * 2 ^ (m - i)
        = ∑ j ∈ Finset.range (i + 1), lengths.count j * 2 ^ (m - j) := by
          rw [Nat.add_mul, first_mul_pow hi, Finset.sum_range_succ]
      _ ≤ ∑ j ∈ Finset.range (m + 1), lengths.count j * 2 ^ (m - j) :=
          Finset.sum_le_sum_of_subset (Finset.range_subset_range.mpr (by omega))
      _ ≤ 2 ^ m := by
          rw [← sum_count h.1]
          exact h.2
      _ = 2 ^ i * 2 ^ (m - i) := by rw [← pow_add, Nat.add_sub_cancel' hi]
  exact Nat.le_of_mul_le_mul_right hsum (Nat.two_pow_pos _)

theorem countP_lt (lengths : List ℕ) (i : ℕ) :
    lengths.countP (fun l => l < i) = below lengths.count i := by
  induction i with
  | zero =>
    rw [below, List.countP_eq_zero]
    simp
  | succ i ih =>
    rw [below, ← ih]
    clear ih
    induction lengths with
    | nil => rfl
    | cons l lengths ih =>
      simp only [List.countP_cons, List.count_cons, decide_eq_true_eq, beq_iff_eq, ih]
      split_ifs <;> omega

theorem below_le_length (lengths : List ℕ) (i : ℕ) : below lengths.count i ≤ lengths.length := by
  rw [← countP_lt]
  exact List.countP_le_length

def code (lengths : List ℕ) (s : ℕ) : ℕ :=
  first lengths.count (lengths.getD s 0) + (lengths.take s).count (lengths.getD s 0)

def codeword (lengths : List ℕ) (s : ℕ) : List Bool :=
  bigEndian (lengths.getD s 0) (code lengths s)

theorem code_lt {s : ℕ} (hs : s < lengths.length) :
    code lengths s <
      first lengths.count (lengths.getD s 0) + lengths.count (lengths.getD s 0) := by
  have hsplit : lengths.count (lengths.getD s 0) =
      (lengths.take s).count (lengths.getD s 0) +
        (lengths.drop s).count (lengths.getD s 0) := by
    rw [← List.count_append, List.take_append_drop]
  have hmem : lengths.getD s 0 ∈ lengths.drop s := by
    rw [List.getD_eq_getElem _ _ hs, List.drop_eq_getElem_cons hs]
    exact List.mem_cons_self
  have hpos := List.count_pos_iff.mpr hmem
  rw [code, hsplit]
  omega

theorem exists_last_code {l : ℕ} (hl : l ∈ lengths) : ∃ s < lengths.length,
    lengths.getD s 0 = l ∧ code lengths s + 1 = first lengths.count l + lengths.count l := by
  obtain ⟨after, before, hsplit, hafter⟩ :=
    List.eq_append_cons_of_mem (List.mem_reverse.mpr hl)
  have hlengths : lengths = before.reverse ++ l :: after.reverse := by
    have h := congrArg List.reverse hsplit
    rwa [List.reverse_reverse, List.reverse_append, List.reverse_cons, List.append_assoc,
      List.singleton_append] at h
  have hget : lengths.getD before.reverse.length 0 = l := by
    rw [hlengths, List.getD_append_right _ _ _ _ le_rfl, Nat.sub_self, List.getD_cons_zero]
  refine ⟨before.reverse.length, ?_, hget, ?_⟩
  · rw [hlengths, List.length_append, List.length_cons]
    omega
  · have htake : lengths.take before.reverse.length = before.reverse := by
      rw [hlengths, List.take_left']
      rfl
    have hcount : lengths.count l = before.reverse.count l + 1 := by
      have hnone : l ∉ after.reverse := fun h => hafter (List.mem_reverse.mp h)
      conv_lhs => rw [hlengths]
      rw [List.count_append, List.count_cons_self, List.count_eq_zero_of_not_mem hnone]
    rw [code, hget, htake, hcount, Nat.add_assoc]

theorem le_code_prefix {s i : ℕ} (hi : i < lengths.getD s 0) :
    first lengths.count i + lengths.count i ≤
      code lengths s / 2 ^ (lengths.getD s 0 - i) := by
  rw [Nat.le_div_iff_mul_le (Nat.two_pow_pos _)]
  exact (first_add_le lengths.count hi).trans (Nat.le_add_right _ _)

end XWebQL.PrefixCode
