import Mathlib.Data.Int.Log
import Mathlib.Data.Rat.Floor
import Mathlib.Tactic.Linarith
import Mathlib.Tactic.Positivity

/-! Binary floating-point formats.
A float is a rational number with a bounded significand, and the result of an
operation is the float nearest to the exact one. Exponents have no upper bound
here: no number comes near the largest float. -/

namespace XWebQL.FloatFormat

structure Format where
  precision : ℕ
  minExponent : ℤ
  precision_pos : 0 < precision

def single : Format := ⟨24, -149, by decide⟩

def double : Format := ⟨53, -1074, by decide⟩

/-- The nearest whole number, a tie going to the even one. -/
def roundEven (q : ℚ) : ℤ :=
  if q - ⌊q⌋ < 1 / 2 ∨ (q - ⌊q⌋ = 1 / 2 ∧ ⌊q⌋ % 2 = 0) then ⌊q⌋ else ⌊q⌋ + 1

theorem roundEven_near (q : ℚ) (n : ℤ) : |(roundEven q : ℚ) - q| ≤ |(n : ℚ) - q| := by
  have hlow := Int.floor_le q
  have hhigh := Int.lt_floor_add_one q
  have hbelow := neg_le_abs ((n : ℚ) - q)
  have habove := le_abs_self ((n : ℚ) - q)
  have hhalf : roundEven q = ⌊q⌋ ∧ q - ⌊q⌋ ≤ 1 / 2 ∨
      roundEven q = ⌊q⌋ + 1 ∧ 1 / 2 ≤ q - ⌊q⌋ := by
    unfold roundEven
    split_ifs with h
    · exact .inl ⟨rfl, h.elim le_of_lt fun h => h.1.le⟩
    · exact .inr ⟨rfl, not_lt.mp fun hlt => h (.inl hlt)⟩
  -- a whole number is at most the floor or at least the next one
  have hn : (n : ℚ) ≤ ⌊q⌋ ∨ (⌊q⌋ : ℚ) + 1 ≤ n := by
    rcases lt_or_ge ⌊q⌋ n with h | h
    · exact .inr (by exact_mod_cast h)
    · exact .inl (by exact_mod_cast h)
  rcases hhalf with ⟨hround, hhalf⟩ | ⟨hround, hhalf⟩ <;> rw [hround, abs_le]
  · rcases hn with hn | hn
    · constructor <;> linarith
    · constructor <;> linarith
  · rw [Int.cast_add, Int.cast_one]
    rcases hn with hn | hn
    · constructor <;> linarith
    · constructor <;> linarith

theorem roundEven_mem {q : ℚ} {a b : ℤ} (hq : (a : ℚ) ≤ q ∧ q ≤ b) :
    a ≤ roundEven q ∧ roundEven q ≤ b := by
  have hlow := (abs_le.mp (roundEven_near q a)).1
  have hhigh := (abs_le.mp (roundEven_near q b)).2
  rw [abs_of_nonpos (by linarith)] at hlow
  rw [abs_of_nonneg (by linarith)] at hhigh
  have ha : (a : ℚ) ≤ roundEven q := by linarith
  have hb : (roundEven q : ℚ) ≤ b := by linarith
  exact ⟨by exact_mod_cast ha, by exact_mod_cast hb⟩

namespace Format

variable {F : Format} {q f : ℚ}

def IsFloat (F : Format) (q : ℚ) : Prop :=
  ∃ m e : ℤ, |m| < 2 ^ F.precision ∧ F.minExponent ≤ e ∧ q = m * 2 ^ e

/-- The exponent of the last place. -/
def exponent (F : Format) (q : ℚ) : ℤ :=
  max (Int.log 2 |q| + 1 - F.precision) F.minExponent

/-- The float that is nearest to `q`. -/
def round (F : Format) (q : ℚ) : ℚ := roundEven (q / 2 ^ F.exponent q) * 2 ^ F.exponent q

theorem round_zero (F : Format) : F.round 0 = 0 := by
  have hzero : roundEven 0 = 0 := by decide +kernel
  rw [round, zero_div, hzero, Int.cast_zero, zero_mul]

theorem round_eq_scaled (F : Format) (q x : ℚ) : |x * 2 ^ F.exponent q - q| =
    |x - q / 2 ^ F.exponent q| * 2 ^ F.exponent q := by
  have hunit : (0 : ℚ) < 2 ^ F.exponent q := zpow_pos two_pos _
  rw [← abs_of_pos hunit, ← abs_mul, abs_of_pos hunit, sub_mul, div_mul_cancel₀ _ hunit.ne']

theorem round_near_multiple (F : Format) (q : ℚ) (n : ℤ) :
    |F.round q - q| ≤ |n * 2 ^ F.exponent q - q| := by
  rw [round, round_eq_scaled, round_eq_scaled]
  exact mul_le_mul_of_nonneg_right (roundEven_near _ n) (zpow_pos two_pos _).le

theorem exists_binade (hq : q ≠ 0) (hexponent : F.exponent q = Int.log 2 |q| + 1 - F.precision) :
    ∃ n : ℤ, |n * 2 ^ F.exponent q - q| = |q| - 2 ^ Int.log 2 |q| := by
  have hbinade : (2 : ℚ) ^ Int.log 2 |q| ≤ |q| :=
    Int.zpow_log_le_self (by norm_num) (abs_pos.mpr hq)
  have hbegin : (2 : ℚ) ^ Int.log 2 |q| = (2 ^ (F.precision - 1) : ℤ) * 2 ^ F.exponent q := by
    have hpos := F.precision_pos
    have hsplit : Int.log 2 |q| = (F.precision - 1 : ℕ) + F.exponent q := by omega
    conv_lhs => rw [hsplit, zpow_add₀ two_ne_zero, zpow_natCast]
    push_cast
    rfl
  rcases lt_or_gt_of_ne hq with hneg | hpos
  · refine ⟨-2 ^ (F.precision - 1), ?_⟩
    rw [Int.cast_neg, neg_mul, ← hbegin]
    rw [abs_of_neg hneg] at hbinade ⊢
    rw [abs_of_nonneg (by linarith)]
    ring
  · refine ⟨2 ^ (F.precision - 1), ?_⟩
    rw [← hbegin]
    rw [abs_of_pos hpos] at hbinade ⊢
    rw [abs_of_nonpos (by linarith)]
    ring

theorem round_near (hf : F.IsFloat f) (q : ℚ) : |F.round q - q| ≤ |f - q| := by
  obtain ⟨m, e, hm, he, rfl⟩ := hf
  rcases eq_or_ne q 0 with rfl | hq
  · rw [round_zero, sub_zero, abs_zero]
    exact abs_nonneg _
  rcases le_or_gt (F.exponent q) e with hle | hlt
  · have hmultiple : (m : ℚ) * 2 ^ e =
        (m * 2 ^ (e - F.exponent q).toNat : ℤ) * 2 ^ F.exponent q := by
      have hsplit : e = (e - F.exponent q).toNat + F.exponent q := by omega
      conv_lhs => rw [hsplit, zpow_add₀ two_ne_zero, zpow_natCast]
      push_cast
      ring
    rw [hmultiple]
    exact round_near_multiple F q _
  · -- such a float is smaller than every number of this binade
    have hexponent : F.exponent q = Int.log 2 |q| + 1 - F.precision := by
      rw [exponent] at hlt ⊢
      omega
    have hsmall : |(m : ℚ) * 2 ^ e| ≤ 2 ^ Int.log 2 |q| := by
      have hcast : |(m : ℚ)| ≤ 2 ^ F.precision := by exact_mod_cast hm.le
      have hpower : (0 : ℚ) < 2 ^ e := zpow_pos two_pos e
      calc |(m : ℚ) * 2 ^ e| = |(m : ℚ)| * 2 ^ e := by rw [abs_mul, abs_of_pos hpower]
        _ ≤ 2 ^ F.precision * 2 ^ e := mul_le_mul_of_nonneg_right hcast hpower.le
        _ = 2 ^ ((F.precision : ℤ) + e) := by rw [zpow_add₀ two_ne_zero, zpow_natCast]
        _ ≤ 2 ^ Int.log 2 |q| := zpow_le_zpow_right₀ (by norm_num) (by omega)
    obtain ⟨n, hn⟩ := exists_binade hq hexponent
    calc |F.round q - q| ≤ |n * 2 ^ F.exponent q - q| := round_near_multiple F q n
      _ = |q| - 2 ^ Int.log 2 |q| := hn
      _ ≤ |q| - |(m : ℚ) * 2 ^ e| := by linarith
      _ ≤ |(m : ℚ) * 2 ^ e - q| := by
          rw [abs_sub_comm]
          exact abs_sub_abs_le_abs_sub q _

theorem round_of_isFloat (hq : F.IsFloat q) : F.round q = q := by
  have hnear := round_near hq q
  rw [sub_self, abs_zero] at hnear
  exact sub_eq_zero.mp (abs_eq_zero.mp (le_antisymm hnear (abs_nonneg _)))

theorem round_mem {a b : ℚ} (ha : F.IsFloat a) (hb : F.IsFloat b) (hq : a ≤ q ∧ q ≤ b) :
    a ≤ F.round q ∧ F.round q ≤ b := by
  have hlow := (abs_le.mp (round_near ha q)).1
  have hhigh := (abs_le.mp (round_near hb q)).2
  rw [abs_of_nonpos (by linarith)] at hlow
  rw [abs_of_nonneg (by linarith)] at hhigh
  constructor <;> linarith

theorem abs_lt_exponent (F : Format) (q : ℚ) : |q| < 2 ^ (F.exponent q + F.precision) := by
  rcases eq_or_ne q 0 with rfl | hq
  · rw [abs_zero]
    exact zpow_pos two_pos _
  calc |q| < 2 ^ (Int.log 2 |q| + 1) := Int.lt_zpow_succ_log_self (by norm_num) |q|
    _ ≤ 2 ^ (F.exponent q + F.precision) :=
        zpow_le_zpow_right₀ (by norm_num) (by rw [exponent]; omega)

theorem round_isFloat (F : Format) (q : ℚ) : F.IsFloat (F.round q) := by
  have hunit : (0 : ℚ) < 2 ^ F.exponent q := zpow_pos two_pos _
  have hsignificand : |q / 2 ^ F.exponent q| ≤ (2 ^ F.precision : ℤ) := by
    have hq := (F.abs_lt_exponent q).le
    rw [zpow_add₀ two_ne_zero, zpow_natCast, mul_comm] at hq
    rw [abs_div, abs_of_pos hunit, div_le_iff₀ hunit]
    exact_mod_cast hq
  have hround := roundEven_mem (a := -2 ^ F.precision) (b := 2 ^ F.precision)
    (by push_cast at hsignificand ⊢; exact abs_le.mp hsignificand)
  rcases lt_or_eq_of_le (abs_le.mpr hround) with hlt | heq
  · exact ⟨_, _, hlt, le_max_right _ _, rfl⟩
  · -- rounded up to the first number of the next binade
    obtain ⟨s, hs, hsplit⟩ : ∃ s : ℤ, |s| = 1 ∧
        roundEven (q / 2 ^ F.exponent q) = s * 2 ^ F.precision := by
      rcases eq_or_eq_neg_of_abs_eq heq with h | h
      · exact ⟨1, abs_one, by rw [h, one_mul]⟩
      · exact ⟨-1, by rw [abs_neg, abs_one], by rw [h, neg_one_mul]⟩
    refine ⟨s, F.exponent q + F.precision, ?_, ?_, ?_⟩
    · rw [hs]
      exact one_lt_pow₀ one_lt_two F.precision_pos.ne'
    · have hmin : F.minExponent ≤ F.exponent q := le_max_right _ _
      omega
    · rw [round, hsplit, zpow_add₀ two_ne_zero, zpow_natCast]
      push_cast
      ring

theorem round_eq_self_iff : F.round q = q ↔ F.IsFloat q :=
  ⟨fun h => h ▸ round_isFloat F q, round_of_isFloat⟩

theorem isFloat_natCast_iff (hexponent : F.minExponent ≤ 0) {n : ℕ} :
    F.IsFloat n ↔ ∃ m e : ℕ, m < 2 ^ F.precision ∧ n = m * 2 ^ e := by
  constructor
  · rintro ⟨m, e, hm, -, hn⟩
    rcases le_or_gt 0 e with he | he
    · lift e to ℕ using he
      have hcast : (n : ℤ) = m * 2 ^ e := by exact_mod_cast hn
      refine ⟨m.natAbs, e, ?_, ?_⟩
      · rw [Int.abs_eq_natAbs] at hm
        exact_mod_cast hm
      · have habs := congrArg Int.natAbs hcast
        rw [Int.natAbs_natCast, Int.natAbs_mul, Int.natAbs_pow] at habs
        exact habs
    · -- a multiple of a small power of two is small when it is whole
      have hpower : (0 : ℚ) < 2 ^ e := zpow_pos two_pos e
      have hle : (n : ℚ) ≤ |m| := by
        calc (n : ℚ) = |(m : ℚ) * 2 ^ e| := by rw [← hn, Nat.abs_cast]
          _ = |(m : ℚ)| * 2 ^ e := by rw [abs_mul, abs_of_pos hpower]
          _ ≤ |(m : ℚ)| * 1 :=
              mul_le_mul_of_nonneg_left (zpow_le_one_of_nonpos₀ one_le_two he.le) (abs_nonneg _)
          _ = |m| := by rw [mul_one, Int.cast_abs]
      have hlt : (n : ℤ) < 2 ^ F.precision := lt_of_le_of_lt (by exact_mod_cast hle) hm
      exact ⟨n, 0, by exact_mod_cast hlt, by rw [pow_zero, mul_one]⟩
  · rintro ⟨m, e, hm, rfl⟩
    refine ⟨m, e, ?_, by omega, ?_⟩
    · rw [Nat.abs_cast]
      exact_mod_cast hm
    · rw [zpow_natCast]
      push_cast
      rfl

theorem isFloat_natCast (hexponent : F.minExponent ≤ 0) {n : ℕ} (hn : n < 2 ^ F.precision) :
    F.IsFloat n :=
  (isFloat_natCast_iff hexponent).mpr ⟨n, 0, hn, by rw [pow_zero, mul_one]⟩

theorem round_natCast (hexponent : F.minExponent ≤ 0) {n : ℕ} (hn : 2 ^ F.precision ≤ n) :
    F.round n = roundEven (n / 2 ^ (n.log2 + 1 - F.precision)) *
      2 ^ (n.log2 + 1 - F.precision) := by
  have hne : n ≠ 0 := ((Nat.two_pow_pos _).trans_le hn).ne'
  have hlog : F.precision ≤ n.log2 := (Nat.le_log2 hne).mpr hn
  have hexp : F.exponent n = (n.log2 + 1 - F.precision : ℕ) := by
    rw [exponent, Nat.abs_cast, Int.log_natCast, ← Nat.log2_eq_log_two]
    omega
  rw [round, hexp, zpow_natCast]

theorem round_unit (hexponent : F.minExponent ≤ 0) (hq : 0 ≤ q ∧ q ≤ 1) :
    0 ≤ F.round q ∧ F.round q ≤ 1 := by
  have hzero := isFloat_natCast hexponent (Nat.two_pow_pos F.precision)
  have hone := isFloat_natCast hexponent (Nat.one_lt_two_pow F.precision_pos.ne')
  rw [Nat.cast_zero] at hzero
  rw [Nat.cast_one] at hone
  exact round_mem hzero hone hq

theorem round_error {k : ℤ} (hk : F.minExponent ≤ k - F.precision) (hq : |q| < 2 ^ k) :
    |F.round q - q| ≤ 2 ^ (k - F.precision) := by
  rcases eq_or_ne q 0 with rfl | hne
  · rw [round_zero, sub_zero, abs_zero]
    exact (zpow_pos two_pos _).le
  have hlog : Int.log 2 |q| < k := (Int.lt_zpow_iff_log_lt (by norm_num) (abs_pos.mpr hne)).mp hq
  have hexponent : F.exponent q ≤ k - F.precision := by
    rw [exponent]
    omega
  have hfloor : |(⌊q / 2 ^ F.exponent q⌋ : ℚ) - q / 2 ^ F.exponent q| ≤ 1 := by
    have hlow := Int.floor_le (q / 2 ^ F.exponent q)
    have hhigh := Int.lt_floor_add_one (q / 2 ^ F.exponent q)
    rw [abs_le]
    constructor <;> linarith
  calc |F.round q - q| ≤ |⌊q / 2 ^ F.exponent q⌋ * 2 ^ F.exponent q - q| :=
        round_near_multiple F q _
    _ ≤ 1 * 2 ^ F.exponent q := by
        rw [round_eq_scaled]
        exact mul_le_mul_of_nonneg_right hfloor (zpow_pos two_pos _).le
    _ ≤ 2 ^ (k - F.precision) := by
        rw [one_mul]
        exact zpow_le_zpow_right₀ (by norm_num) hexponent

end Format

end XWebQL.FloatFormat
