import Mathlib.Algebra.Order.Group.Abs
import Mathlib.Tactic.Linarith
import XWebQL.DataView

/-! Whole numbers as 32-bit floats.
A float keeps 24 significant bits. Only numbers that are far from the largest
float are converted, so there is no overflow here. -/

namespace XWebQL.SingleFloat

open DataView (roundHalfEven)
open FloatFormat (single)
open FloatFormat.Format (isFloat_natCast isFloat_natCast_iff round_isFloat round_near)

def IsSingle (z : ℤ) : Prop := ∃ m e, m < 2 ^ 24 ∧ z.natAbs = m * 2 ^ e

def roundNat (n : ℕ) : ℕ :=
  if n < 2 ^ 24 then n else roundHalfEven n (n.log2 - 23) * 2 ^ (n.log2 - 23)

/-- The float that is nearest to `z`, a tie going to the even significand. -/
def toSingle (z : ℤ) : ℤ := z.sign * roundNat z.natAbs

theorem roundNat_eq_round (n : ℕ) : (roundNat n : ℚ) = single.round n :=
  (DataView.round_natCast (F := single) (by decide) n).symm

theorem isSingle_iff (z : ℤ) : IsSingle z ↔ single.IsFloat (z.natAbs : ℚ) :=
  (isFloat_natCast_iff (F := single) (by decide)).symm

theorem isSingle_roundNat (n : ℕ) : IsSingle (roundNat n) := by
  rw [isSingle_iff, Int.natAbs_natCast, roundNat_eq_round]
  exact round_isFloat single n

theorem roundNat_pos {n : ℕ} (hn : 0 < n) : 0 < roundNat n := by
  have hone : single.IsFloat (1 : ℕ) := isFloat_natCast (by decide) (by decide)
  have hnear := round_near hone (n : ℚ)
  have hn' : ((1 : ℕ) : ℚ) ≤ n := Nat.cast_le.mpr hn
  rw [← roundNat_eq_round, abs_of_nonpos (by linarith : ((1 : ℕ) : ℚ) - n ≤ 0)] at hnear
  have hround : ((1 : ℕ) : ℚ) ≤ roundNat n := by linarith [(abs_le.mp hnear).1]
  exact_mod_cast hround

theorem isSingle_toSingle (z : ℤ) : IsSingle (toSingle z) := by
  obtain ⟨m, e, hm, he⟩ := isSingle_roundNat z.natAbs
  rw [Int.natAbs_natCast] at he
  rcases eq_or_ne z 0 with rfl | hz
  · exact ⟨0, 0, by norm_num, by simp [toSingle]⟩
  · refine ⟨m, e, hm, ?_⟩
    rw [toSingle, Int.natAbs_mul, Int.natAbs_sign_of_ne_zero hz, one_mul, Int.natAbs_natCast, he]

theorem toSingle_neg (z : ℤ) : toSingle (-z) = -toSingle z := by
  rw [toSingle, toSingle, Int.sign_neg, Int.natAbs_neg, neg_mul]

theorem toSingle_natCast (n : ℕ) : toSingle n = roundNat n := by
  rw [toSingle, Int.natAbs_natCast]
  rcases Nat.eq_zero_or_pos n with rfl | hn
  · rfl
  · rw [Int.sign_natCast_of_ne_zero hn.ne', one_mul]

theorem toSingle_pos {z : ℤ} (hz : 0 < z) : 0 < toSingle z := by
  obtain ⟨n, rfl⟩ := Int.eq_ofNat_of_zero_le hz.le
  rw [toSingle_natCast]
  exact_mod_cast roundNat_pos (by exact_mod_cast hz)

theorem toSingle_near (z f : ℤ) (hf : IsSingle f) : |toSingle z - z| ≤ |f - z| := by
  -- the number and the float may be taken positive, a change of sign brings no float nearer
  have hpos : ∀ n : ℕ, |toSingle n - n| ≤ |(f.natAbs : ℤ) - n| := by
    intro n
    have hnear := round_near ((isSingle_iff f).mp hf) (n : ℚ)
    rw [← roundNat_eq_round] at hnear
    rw [toSingle_natCast]
    exact_mod_cast hnear
  have hflip : |toSingle z - z| = |toSingle z.natAbs - z.natAbs| := by
    rcases Int.natAbs_eq z with h | h
    · rw [← h]
    · have hz : (z.natAbs : ℤ) = -z := by omega
      rw [hz, toSingle_neg, ← abs_neg]
      congr 1
      ring
  rw [hflip]
  exact (hpos _).trans (by simpa using abs_abs_sub_abs_le_abs_sub f z)

end XWebQL.SingleFloat
