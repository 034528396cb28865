import Mathlib.Order.WithBot
import Mathlib.Data.Sign.Basic
import XWebQL.FloatArithmetic

/-! Floats that overflow.
A format with a largest exponent has two infinities and NaN beside its numbers. An
operation on numbers rounds the exact result and overflows where that has too large
an exponent. Zero has one sign, the positive one: a comparison does not tell the two
zeros apart, and a difference that vanishes is a positive zero. -/

namespace XWebQL.FloatValues

open FloatFormat FloatFormat.Format FloatArithmetic

structure Standard extends Format where
  maxExponent : ℤ

def binary32 : Standard := ⟨single, 128⟩

variable {F : Standard}

def Standard.IsFinite (F : Standard) (q : ℚ) : Prop := F.IsFloat q ∧ |q| < 2 ^ F.maxExponent

section Rounding

variable {G : Format} {p q : ℚ} {k : ℤ}

/-- Half a float is rounded to less than the float, also where half of it is not one. -/
theorem round_half_lt (hq : G.IsFloat q) (hpos : 0 < q) : G.round (q / 2) < q := by
  obtain ⟨n, hn⟩ := isFloat_onGrid hq
  have hunit : (0 : ℚ) < 2 ^ G.minExponent := zpow_pos two_pos _
  have hn₁ : 1 ≤ n := by
    by_contra hlt
    have hle : (n : ℚ) ≤ 0 := by exact_mod_cast Int.lt_add_one_iff.mp (not_le.mp hlt)
    rw [hn] at hpos
    exact absurd hpos (not_lt.mpr (mul_nonpos_of_nonpos_of_nonneg hle hunit.le))
  obtain rfl | htwo := hn₁.eq_or_lt
  · -- the least float: half of it is as near to zero, which is even
    rw [Int.cast_one, one_mul] at hn
    have habs : |q / 2| < 2 ^ G.minExponent := by
      rw [abs_of_pos (half_pos hpos), hn]
      exact half_lt_self hunit
    have hexponent : G.exponent (q / 2) = G.minExponent := by
      have hlog : Int.log 2 |q / 2| < G.minExponent :=
        (Int.lt_zpow_iff_log_lt one_lt_two (abs_pos.mpr (half_pos hpos).ne')).mp habs
      have hprecision := G.precision_pos
      rw [exponent]
      omega
    have heven : roundEven (1 / 2) = 0 := by decide +kernel
    rw [Format.round, hexponent, hn, div_right_comm, div_self hunit.ne', heven, Int.cast_zero,
      zero_mul]
    exact hunit
  · have hnear := round_near (isFloat_zpow (F := G) le_rfl) (q / 2)
    have htwo' : (2 : ℚ) ≤ n := by exact_mod_cast htwo
    have hle : 2 * (2 : ℚ) ^ G.minExponent ≤ q := by
      rw [hn]
      exact mul_le_mul_of_nonneg_right htwo' hunit.le
    rw [abs_of_nonpos (by linarith : (2 : ℚ) ^ G.minExponent - q / 2 ≤ 0)] at hnear
    have hhigh := (abs_le.mp hnear).2
    linarith

/-- What is small beside a large power of two is lost when it is added. -/
theorem round_add_le (hk : G.minExponent ≤ k + G.precision + 2) (hp : p ≤ 2 ^ (k + G.precision + 2))
    (hq : q ≤ 2 ^ k) : G.round (p + q) ≤ 2 ^ (k + G.precision + 2) := by
  rcases le_or_gt (p + q) (2 ^ (k + G.precision + 2)) with hle | hlt
  · exact round_le_zpow hk hle
  by_contra hround
  rw [not_le] at hround
  have hunit : (0 : ℚ) < 2 ^ k := zpow_pos two_pos k
  have hlarge : (0 : ℚ) < 2 ^ (k + G.precision + 2) := zpow_pos two_pos _
  have hnear := round_near (isFloat_zpow hk) (p + q)
  rw [abs_of_neg (by linarith : (2 : ℚ) ^ (k + G.precision + 2) - (p + q) < 0)] at hnear
  have hhigh := (abs_le.mp hnear).2
  -- the next float lies further away
  have hgrid := onGrid_of_isFloat (round_isFloat G (p + q)) (k := k + G.precision + 2)
    (by rw [abs_of_pos (hlarge.trans hround)]; exact hround.le)
  have hpower : OnGrid (k + G.precision + 2 - G.precision) ((2 : ℚ) ^ (k + G.precision + 2)) :=
    OnGrid.finer ⟨1, by rw [Int.cast_one, one_mul]⟩ (by omega)
  have hgap := (hgrid.sub hpower).zpow_le_abs (sub_pos.mpr hround).ne'
  have hfour : (2 : ℚ) ^ (k + G.precision + 2 - G.precision) = 4 * 2 ^ k := by
    rw [show k + G.precision + 2 - G.precision = k + 2 by ring, zpow_add₀ two_ne_zero]
    norm_num [mul_comm]
  rw [abs_of_pos (sub_pos.mpr hround), hfour] at hgap
  linarith

end Rounding

/-- What is not NaN. -/
inductive Value (F : Standard) where
  | negInf
  | finite (q : ℚ) (h : F.IsFinite q)
  | posInf

inductive Number (F : Standard) where
  | value (v : Value F)
  | nan

namespace Value

def key : Value F → WithBot (WithTop ℚ)
  | negInf => ⊥
  | finite q _ => ((q : WithTop ℚ) : WithBot (WithTop ℚ))
  | posInf => ((⊤ : WithTop ℚ) : WithBot (WithTop ℚ))

theorem key_injective : Function.Injective (key : Value F → WithBot (WithTop ℚ)) := by
  intro u v h
  cases u <;> cases v <;> simp_all [key]

instance : LinearOrder (Value F) := LinearOrder.lift' key key_injective

theorem finite_le_finite {p q : ℚ} {hp : F.IsFinite p} {hq : F.IsFinite q} :
    finite p hp ≤ finite q hq ↔ p ≤ q :=
  WithBot.coe_le_coe.trans WithTop.coe_le_coe

theorem finite_lt_finite {p q : ℚ} {hp : F.IsFinite p} {hq : F.IsFinite q} :
    finite p hp < finite q hq ↔ p < q := by
  rw [← not_le, ← not_le, finite_le_finite]

theorem le_posInf (v : Value F) : v ≤ posInf := by
  cases v with
  | negInf => exact bot_le (α := WithBot (WithTop ℚ))
  | finite q h => exact WithBot.coe_le_coe.mpr le_top
  | posInf => exact le_rfl

theorem finite_lt_posInf {q : ℚ} {h : F.IsFinite q} : finite q h < posInf :=
  lt_of_le_of_ne (le_posInf _) nofun

theorem negInf_le (v : Value F) : negInf ≤ v := bot_le (α := WithBot (WithTop ℚ))

end Value

def Value.ofRat (F : Standard) (q : ℚ) : Value F :=
  if h : |F.round q| < 2 ^ F.maxExponent then .finite (F.round q) ⟨round_isFloat _ q, h⟩
  else if 0 < q then .posInf else .negInf

/-- The infinity with a sign; without one the operation is not valid. -/
def Number.infinity (F : Standard) : SignType → Number F
  | .pos => .value .posInf
  | .neg => .value .negInf
  | .zero => .nan

namespace Value

def sign : Value F → SignType
  | negInf => -1
  | finite q _ => SignType.sign q
  | posInf => 1

def add : Value F → Value F → Number F
  | finite p _, finite q _ => .value (ofRat F (p + q))
  | posInf, negInf => .nan
  | negInf, posInf => .nan
  | posInf, _ => .value posInf
  | _, posInf => .value posInf
  | negInf, _ => .value negInf
  | _, negInf => .value negInf

def sub : Value F → Value F → Number F
  | finite p _, finite q _ => .value (ofRat F (p - q))
  | posInf, posInf => .nan
  | negInf, negInf => .nan
  | posInf, _ => .value posInf
  | _, negInf => .value posInf
  | negInf, _ => .value negInf
  | _, posInf => .value negInf

def mul : Value F → Value F → Number F
  | finite p _, finite q _ => .value (ofRat F (p * q))
  | u, v => .infinity F (u.sign * v.sign)

def div : Value F → Value F → Number F
  | finite p _, finite q _ =>
    if q = 0 then .infinity F (SignType.sign p) else .value (ofRat F (p / q))
  | finite _ _, _ => .value (ofRat F 0)
  | u, finite q _ => .infinity F (u.sign * if q < 0 then -1 else 1)
  | _, _ => .nan

def abs : Value F → Value F
  | finite q _ => ofRat F |q|
  | _ => posInf

end Value

namespace Number

def ofRat (F : Standard) (q : ℚ) : Number F := .value (.ofRat F q)

def map₂ (op : Value F → Value F → Number F) : Number F → Number F → Number F
  | .value u, .value v => op u v
  | _, _ => .nan

instance : Add (Number F) := ⟨map₂ Value.add⟩
instance : Sub (Number F) := ⟨map₂ Value.sub⟩
instance : Mul (Number F) := ⟨map₂ Value.mul⟩
instance : Div (Number F) := ⟨map₂ Value.div⟩

def abs : Number F → Number F
  | .value v => .value v.abs
  | .nan => .nan

/-- Nothing compares with NaN. -/
def Compare (rel : Value F → Value F → Prop) : Number F → Number F → Prop
  | .value u, .value v => rel u v
  | _, _ => False

instance (rel : Value F → Value F → Prop) [DecidableRel rel] (a b : Number F) :
    Decidable (Compare rel a b) :=
  match a, b with
  | .value u, .value v => inferInstanceAs (Decidable (rel u v))
  | .nan, _ => .isFalse id
  | .value _, .nan => .isFalse id

instance : LE (Number F) := ⟨Compare (· ≤ ·)⟩
instance : LT (Number F) := ⟨Compare (· < ·)⟩

instance (a b : Number F) : Decidable (a ≤ b) := inferInstanceAs (Decidable (Compare _ a b))
instance (a b : Number F) : Decidable (a < b) := inferInstanceAs (Decidable (Compare _ a b))

/-- The number `q` of the format. -/
def Is (a : Number F) (q : ℚ) : Prop := ∃ h, a = .value (.finite q h)

def IsFinite (a : Number F) : Prop := ∃ q, a.Is q

variable {a b : Number F} {p q : ℚ} {k : ℤ}

theorem Is.le_iff (ha : a.Is p) (hb : b.Is q) : a ≤ b ↔ p ≤ q := by
  obtain ⟨_, rfl⟩ := ha
  obtain ⟨_, rfl⟩ := hb
  exact Value.finite_le_finite

theorem Is.lt_iff (ha : a.Is p) (hb : b.Is q) : a < b ↔ p < q := by
  obtain ⟨_, rfl⟩ := ha
  obtain ⟨_, rfl⟩ := hb
  exact Value.finite_lt_finite

theorem Is.add (ha : a.Is p) (hb : b.Is q) : a + b = ofRat F (p + q) := by
  obtain ⟨_, rfl⟩ := ha
  obtain ⟨_, rfl⟩ := hb
  rfl

theorem Is.sub (ha : a.Is p) (hb : b.Is q) : a - b = ofRat F (p - q) := by
  obtain ⟨_, rfl⟩ := ha
  obtain ⟨_, rfl⟩ := hb
  rfl

theorem Is.mul (ha : a.Is p) (hb : b.Is q) : a * b = ofRat F (p * q) := by
  obtain ⟨_, rfl⟩ := ha
  obtain ⟨_, rfl⟩ := hb
  rfl

theorem Is.div (ha : a.Is p) (hb : b.Is q) (hq : q ≠ 0) : a / b = ofRat F (p / q) := by
  obtain ⟨_, rfl⟩ := ha
  obtain ⟨_, rfl⟩ := hb
  exact if_neg hq

theorem is_ofRat (h : |F.round q| < 2 ^ F.maxExponent) : (ofRat F q).Is (F.round q) :=
  ⟨⟨round_isFloat _ q, h⟩, congrArg value (dif_pos h)⟩

theorem is_ofRat_of_le (hmin : F.minExponent ≤ k) (hmax : k < F.maxExponent) (hq : |q| ≤ 2 ^ k) :
    (ofRat F q).Is (F.round q) :=
  is_ofRat ((abs_round_le_zpow hmin hq).trans_lt (zpow_lt_zpow_right₀ one_lt_two hmax))

theorem is_ofRat_of_isFinite (hq : F.IsFinite q) : (ofRat F q).Is q := by
  have hround : F.round q = q := round_of_isFloat hq.1
  have h := is_ofRat (F := F) (q := q) (by rw [hround]; exact hq.2)
  rwa [hround] at h

theorem Is.isFinite (ha : a.Is q) : F.IsFinite q := ha.1

theorem ofRat_of_le (hmin : F.minExponent ≤ F.maxExponent) (hq : 2 ^ F.maxExponent ≤ q) :
    ofRat F q = .value .posInf := by
  have hround : 2 ^ F.maxExponent ≤ F.round q := zpow_le_round hmin hq
  have hpos : (0 : ℚ) < 2 ^ F.maxExponent := zpow_pos two_pos _
  rw [ofRat, Value.ofRat, dif_neg, if_pos (hpos.trans_le hq)]
  rw [abs_of_pos (hpos.trans_le hround)]
  exact not_lt.mpr hround

end Number

end XWebQL.FloatValues
