import XWebQL.FloatFormat
import Mathlib.Order.Monotone.Basic
import Mathlib.Tactic.NormNum
import Mathlib.Tactic.Ring

/-! Computing with floats.
The rounding to the nearest float keeps the order and the sign, its error is small beside
the number that is rounded, and it leads to no finer numbers than it was given: the
multiples of a power of two are rounded to multiples of it. An arithmetic is a set of
numbers with such a rounding, of which the exact numbers are one. -/

namespace XWebQL.FloatArithmetic

open FloatFormat FloatFormat.Format

section Rounding

variable {F : Format} {q : ℚ} {k : ℤ}

theorem round_mono (F : Format) : Monotone F.round := by
  intro q q' hle
  refine not_lt.mp fun hlt => ?_
  have hq := round_near (round_isFloat F q') q
  have hq' := round_near (round_isFloat F q) q'
  -- a number above the middle of the two and one below it
  have hmiddle : F.round q + F.round q' ≤ 2 * q := by
    rcases le_or_gt (F.round q') q with h | h
    · rw [abs_of_nonpos (by linarith : F.round q' - q ≤ 0)] at hq
      linarith [le_abs_self (F.round q - q)]
    · rw [abs_of_nonneg (by linarith : 0 ≤ F.round q' - q)] at hq
      linarith [le_abs_self (F.round q - q)]
  have hmiddle' : 2 * q' ≤ F.round q + F.round q' := by
    rcases le_or_gt q' (F.round q) with h | h
    · rw [abs_of_nonneg (by linarith : 0 ≤ F.round q - q')] at hq'
      linarith [neg_abs_le (F.round q' - q')]
    · rw [abs_of_nonpos (by linarith : F.round q - q' ≤ 0)] at hq'
      linarith [neg_abs_le (F.round q' - q')]
  obtain rfl : q = q' := le_antisymm hle (by linarith)
  exact lt_irrefl _ hlt

theorem isFloat_zpow (hk : F.minExponent ≤ k) : F.IsFloat (2 ^ k) :=
  ⟨1, k, by rw [abs_one]; exact one_lt_pow₀ one_lt_two F.precision_pos.ne', hk,
    by rw [Int.cast_one, one_mul]⟩

theorem isFloat_neg_zpow (hk : F.minExponent ≤ k) : F.IsFloat (-2 ^ k) :=
  ⟨-1, k, by rw [abs_neg, abs_one]; exact one_lt_pow₀ one_lt_two F.precision_pos.ne', hk,
    by rw [Int.cast_neg, Int.cast_one, neg_one_mul]⟩

theorem zpow_le_round (hk : F.minExponent ≤ k) (hq : 2 ^ k ≤ q) : 2 ^ k ≤ F.round q := by
  rw [← round_of_isFloat (isFloat_zpow hk)]
  exact round_mono F hq

theorem round_le_zpow (hk : F.minExponent ≤ k) (hq : q ≤ 2 ^ k) : F.round q ≤ 2 ^ k := by
  rw [← round_of_isFloat (isFloat_zpow hk)]
  exact round_mono F hq

theorem round_le_neg_zpow (hk : F.minExponent ≤ k) (hq : q ≤ -2 ^ k) :
    F.round q ≤ -2 ^ k := by
  rw [← round_of_isFloat (isFloat_neg_zpow hk)]
  exact round_mono F hq

theorem abs_round_le_zpow (hk : F.minExponent ≤ k) (hq : |q| ≤ 2 ^ k) : |F.round q| ≤ 2 ^ k := by
  rw [abs_le] at hq ⊢
  have hneg : F.round (-2 ^ k) ≤ F.round q := round_mono F hq.1
  rw [round_of_isFloat (isFloat_neg_zpow hk)] at hneg
  exact ⟨hneg, round_le_zpow hk hq.2⟩

theorem round_nonneg (hq : 0 ≤ q) : 0 ≤ F.round q := by
  rw [← round_zero F]
  exact round_mono F hq

theorem round_relative (hk : F.minExponent + F.precision ≤ k + 1) (hq : 2 ^ k ≤ |q|) :
    |F.round q - q| ≤ |q| / 2 ^ (F.precision - 1) := by
  have hne : |q| ≠ 0 := ((zpow_pos two_pos k).trans_le hq).ne'
  have hlog : k ≤ Int.log 2 |q| :=
    (Int.zpow_le_iff_le_log one_lt_two (abs_pos.mpr (abs_ne_zero.mp hne))).mp hq
  have hbinade : (2 : ℚ) ^ Int.log 2 |q| ≤ |q| :=
    Int.zpow_log_le_self one_lt_two (abs_pos.mpr (abs_ne_zero.mp hne))
  have herror := round_error (F := F) (k := Int.log 2 |q| + 1) (by omega)
    (Int.lt_zpow_succ_log_self one_lt_two |q|)
  refine herror.trans ?_
  have hpower : (2 : ℚ) ^ (Int.log 2 |q| + 1 - F.precision) =
      2 ^ Int.log 2 |q| / 2 ^ (F.precision - 1) := by
    have hpos := F.precision_pos
    rw [← zpow_natCast, ← zpow_sub₀ two_ne_zero]
    congr 1
    omega
  rw [hpower]
  exact div_le_div_of_nonneg_right hbinade (pow_pos two_pos _).le

end Rounding

section Grid

/-- The multiples of `2 ^ k`. -/
def OnGrid (k : ℤ) (q : ℚ) : Prop := ∃ n : ℤ, q = n * 2 ^ k

variable {F : Format} {p q : ℚ} {k l : ℤ}

theorem OnGrid.add (hp : OnGrid k p) (hq : OnGrid k q) : OnGrid k (p + q) := by
  obtain ⟨m, rfl⟩ := hp
  obtain ⟨n, rfl⟩ := hq
  exact ⟨m + n, by push_cast; ring⟩

theorem OnGrid.neg (hq : OnGrid k q) : OnGrid k (-q) := by
  obtain ⟨n, rfl⟩ := hq
  exact ⟨-n, by push_cast; ring⟩

theorem OnGrid.sub (hp : OnGrid k p) (hq : OnGrid k q) : OnGrid k (p - q) := by
  rw [sub_eq_add_neg]
  exact hp.add hq.neg

theorem OnGrid.finer (hq : OnGrid k q) (hl : l ≤ k) : OnGrid l q := by
  obtain ⟨n, rfl⟩ := hq
  refine ⟨n * 2 ^ (k - l).toNat, ?_⟩
  have hsplit : k = (k - l).toNat + l := by omega
  conv_lhs => rw [hsplit, zpow_add₀ two_ne_zero, zpow_natCast]
  push_cast
  ring

theorem OnGrid.zpow_le_abs (hq : OnGrid k q) (hne : q ≠ 0) : 2 ^ k ≤ |q| := by
  obtain ⟨n, rfl⟩ := hq
  have hn : n ≠ 0 := by
    rintro rfl
    exact hne (by rw [Int.cast_zero, zero_mul])
  have hone : (1 : ℚ) ≤ |(n : ℚ)| := by exact_mod_cast Int.one_le_abs hn
  rw [abs_mul, abs_of_pos (zpow_pos two_pos k : (0 : ℚ) < 2 ^ k)]
  exact le_mul_of_one_le_left (zpow_pos two_pos k).le hone

theorem OnGrid.mul (hp : OnGrid k p) (hq : OnGrid l q) : OnGrid (k + l) (p * q) := by
  obtain ⟨m, rfl⟩ := hp
  obtain ⟨n, rfl⟩ := hq
  refine ⟨m * n, ?_⟩
  rw [zpow_add₀ two_ne_zero]
  push_cast
  ring

theorem onGrid_natCast (n : ℕ) : OnGrid 0 n := ⟨n, by simp⟩

/-- A number is rounded to a multiple of the last place. A coarser grid than that has the
number itself, which is a float then. -/
theorem OnGrid.round (hq : OnGrid k q) : OnGrid k (F.round q) := by
  rcases le_or_gt k (F.exponent q) with h | h
  · exact OnGrid.finer ⟨_, rfl⟩ h
  · obtain ⟨n, hn⟩ := hq.finer h.le
    have hnear := round_near_multiple F q n
    rw [← hn, sub_self, abs_zero] at hnear
    rw [sub_eq_zero.mp (abs_eq_zero.mp (le_antisymm hnear (abs_nonneg _)))]
    exact hq

theorem onGrid_of_isFloat (hq : F.IsFloat q) (hk : 2 ^ k ≤ |q|) : OnGrid (k - F.precision) q := by
  obtain ⟨m, e, hm, -, rfl⟩ := hq
  refine OnGrid.finer ⟨m, rfl⟩ ?_
  have hm' : |(m : ℚ)| < 2 ^ F.precision := by exact_mod_cast hm
  have hlt : (2 : ℚ) ^ k < 2 ^ ((F.precision : ℤ) + e) := by
    refine hk.trans_lt ?_
    rw [abs_mul, abs_of_pos (zpow_pos two_pos e : (0 : ℚ) < 2 ^ e), zpow_add₀ two_ne_zero,
      zpow_natCast]
    exact mul_lt_mul_of_pos_right hm' (zpow_pos two_pos e)
  have := (zpow_lt_zpow_iff_right₀ (one_lt_two : (1 : ℚ) < 2)).mp hlt
  omega

theorem isFloat_onGrid (hq : F.IsFloat q) : OnGrid F.minExponent q := by
  obtain ⟨m, e, -, he, rfl⟩ := hq
  exact OnGrid.finer ⟨m, rfl⟩ he

end Grid

section Difference

variable {F : Format} {p q : ℚ}

theorem zpow_le_sub (hp : F.IsFloat p) (hq : F.IsFloat q) (hlt : p < q) :
    2 ^ F.minExponent ≤ q - p := by
  have habs := ((isFloat_onGrid hq).sub (isFloat_onGrid hp)).zpow_le_abs (sub_ne_zero.mpr hlt.ne')
  rwa [abs_of_pos (sub_pos.mpr hlt)] at habs

theorem round_sub_pos (hp : F.IsFloat p) (hq : F.IsFloat q) (hlt : p < q) :
    0 < F.round (q - p) :=
  (zpow_pos two_pos _).trans_le (zpow_le_round le_rfl (zpow_le_sub hp hq hlt))

theorem round_sub_neg (hp : F.IsFloat p) (hq : F.IsFloat q) (hlt : q < p) :
    F.round (q - p) < 0 := by
  have hle : q - p ≤ -2 ^ F.minExponent := by linarith [zpow_le_sub hq hp hlt]
  exact (round_le_neg_zpow le_rfl hle).trans_lt (neg_lt_zero.mpr (zpow_pos two_pos _))

end Difference

structure Arithmetic where
  IsNumber : ℚ → Prop
  rnd : ℚ → ℚ
  isNumber_rnd : ∀ q, IsNumber (rnd q)
  rnd_of_isNumber : ∀ {q}, IsNumber q → rnd q = q
  rnd_mono : Monotone rnd
  isNumber_zero : IsNumber 0
  rnd_sub_pos : ∀ {p q}, IsNumber p → IsNumber q → p < q → 0 < rnd (q - p)
  rnd_sub_neg : ∀ {p q}, IsNumber p → IsNumber q → q < p → rnd (q - p) < 0

def rationals : Arithmetic where
  IsNumber _ := True
  rnd q := q
  isNumber_rnd _ := trivial
  rnd_of_isNumber _ := rfl
  rnd_mono := monotone_id
  isNumber_zero := trivial
  rnd_sub_pos _ _ := sub_pos.mpr
  rnd_sub_neg _ _ := sub_neg.mpr

theorem isFloat_zero (F : Format) : F.IsFloat 0 :=
  ⟨0, F.minExponent, by rw [abs_zero]; exact pow_pos two_pos _, le_rfl, by simp⟩

def floats (F : Format) : Arithmetic where
  IsNumber := F.IsFloat
  rnd := F.round
  isNumber_rnd := round_isFloat F
  rnd_of_isNumber := round_of_isFloat
  rnd_mono := round_mono F
  isNumber_zero := isFloat_zero F
  rnd_sub_pos := round_sub_pos
  rnd_sub_neg := round_sub_neg

namespace Arithmetic

variable {A : Arithmetic} {q : ℚ}

theorem rnd_nonneg (hq : 0 ≤ q) : 0 ≤ A.rnd q := by
  rw [← A.rnd_of_isNumber A.isNumber_zero]
  exact A.rnd_mono hq

theorem rnd_nonpos (hq : q ≤ 0) : A.rnd q ≤ 0 := by
  rw [← A.rnd_of_isNumber A.isNumber_zero]
  exact A.rnd_mono hq

end Arithmetic

end XWebQL.FloatArithmetic
