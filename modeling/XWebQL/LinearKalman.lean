import Mathlib.LinearAlgebra.Matrix.PosDef
import Mathlib.LinearAlgebra.Matrix.NonsingularInverse

/-! The linear filter of Kalman over any field.
A belief is an estimate with its covariance. `Model.predict` moves it through
the transition, `Model.correct` weighs a measurement with the gain. Where the
covariance of the innovation is invertible, the corrected covariance is a sum
of two congruences, so both half-steps keep a covariance positive semidefinite. -/

namespace XWebQL.LinearKalman

open Matrix

variable {K n m : Type}

structure Model (K n m : Type) where
  transition : Matrix n n K
  process : Matrix n n K
  observation : Matrix m n K
  noise : Matrix m m K

@[ext]
structure Belief (K n : Type) where
  state : n → K
  covariance : Matrix n n K

section Step

variable [Field K] [Fintype n]

def Model.predict (M : Model K n m) (b : Belief K n) : Belief K n where
  state := M.transition *ᵥ b.state
  covariance := M.transition * b.covariance * M.transitionᵀ + M.process

def Model.innovation (M : Model K n m) (b : Belief K n) (z : m → K) : m → K :=
  z - M.observation *ᵥ b.state

def Model.innovationCovariance (M : Model K n m) (b : Belief K n) : Matrix m m K :=
  M.observation * b.covariance * M.observationᵀ + M.noise

variable [Fintype m] [DecidableEq m]

noncomputable def Model.gain (M : Model K n m) (b : Belief K n) : Matrix n m K :=
  b.covariance * M.observationᵀ * (M.innovationCovariance b)⁻¹

theorem Model.gain_mul {M : Model K n m} {b : Belief K n}
    (h : IsUnit (M.innovationCovariance b).det) :
    M.gain b * M.innovationCovariance b = b.covariance * M.observationᵀ :=
  nonsing_inv_mul_cancel_right _ _ h

variable [DecidableEq n]

noncomputable def Model.correct (M : Model K n m) (b : Belief K n) (z : m → K) : Belief K n where
  state := b.state + M.gain b *ᵥ M.innovation b z
  covariance := (1 - M.gain b * M.observation) * b.covariance

theorem Model.gain_mul_noise {M : Model K n m} {b : Belief K n}
    (h : IsUnit (M.innovationCovariance b).det) :
    M.gain b * M.noise =
      (1 - M.gain b * M.observation) * b.covariance * M.observationᵀ := by
  have hgain := Model.gain_mul h
  rw [Model.innovationCovariance, Matrix.mul_add] at hgain
  rw [← eq_sub_iff_add_eq'] at hgain
  rw [hgain, Matrix.sub_mul, Matrix.sub_mul, Matrix.one_mul]
  simp only [Matrix.mul_assoc]

theorem Model.correct_covariance {M : Model K n m} {b : Belief K n}
    (h : IsUnit (M.innovationCovariance b).det) (z : m → K) :
    (M.correct b z).covariance =
      (1 - M.gain b * M.observation) * b.covariance * (1 - M.gain b * M.observation)ᵀ +
        M.gain b * M.noise * (M.gain b)ᵀ := by
  rw [Model.gain_mul_noise h, transpose_sub, transpose_one, transpose_mul, Matrix.mul_sub,
    Matrix.mul_one, ← Matrix.mul_assoc, sub_add_cancel]
  rfl

end Step

section PosSemidef

variable [Field K] [PartialOrder K] [StarRing K] [StarOrderedRing K] [TrivialStar K]
variable [Fintype n] {M : Model K n m} {b : Belief K n}

theorem Model.predict_posSemidef (hb : b.covariance.PosSemidef) (hQ : M.process.PosSemidef) :
    (M.predict b).covariance.PosSemidef := by
  have hcongruence := hb.mul_mul_conjTranspose_same M.transition
  rw [conjTranspose_eq_transpose_of_trivial] at hcongruence
  exact hcongruence.add hQ

variable [Fintype m] [DecidableEq m] [DecidableEq n]

theorem Model.correct_posSemidef (hb : b.covariance.PosSemidef) (hR : M.noise.PosSemidef)
    (h : IsUnit (M.innovationCovariance b).det) (z : m → K) :
    (M.correct b z).covariance.PosSemidef := by
  have hprior := hb.mul_mul_conjTranspose_same (1 - M.gain b * M.observation)
  have hnoise := hR.mul_mul_conjTranspose_same (M.gain b)
  rw [conjTranspose_eq_transpose_of_trivial] at hprior hnoise
  rw [Model.correct_covariance h]
  exact hprior.add hnoise

end PosSemidef

section Plane

variable [Field K]

theorem quadraticForm_two [StarRing K] [TrivialStar K] (a c d : K) (x : Fin 2 → K) :
    star x ⬝ᵥ (!![a, c; c, d] *ᵥ x) = a * x 0 ^ 2 + 2 * c * x 0 * x 1 + d * x 1 ^ 2 := by
  simp only [dotProduct, mulVec, Fin.sum_univ_two, Pi.star_apply, star_trivial, of_apply,
    cons_val_zero, cons_val_one]
  ring

variable [LinearOrder K] [IsStrictOrderedRing K]

theorem det_nonneg_of_form {a c d : K} (ha : 0 ≤ a) (hd : 0 ≤ d)
    (hform : ∀ s t : K, 0 ≤ a * s ^ 2 + 2 * c * s * t + d * t ^ 2) : c ^ 2 ≤ a * d := by
  rcases ha.eq_or_lt with rfl | hpos
  · -- without the first variance the form is linear in `s`
    have hpoint := hform (-(d + 1)) c
    nlinarith [sq_nonneg c]
  · have hpoint := hform c (-a)
    have hdet : 0 ≤ a * (a * d - c ^ 2) := by linarith
    exact sub_nonneg.mp (nonneg_of_mul_nonneg_right hdet hpos)

theorem form_nonneg_of_det {a c d : K} (ha : 0 ≤ a) (hd : 0 ≤ d) (hdet : c ^ 2 ≤ a * d)
    (s t : K) : 0 ≤ a * s ^ 2 + 2 * c * s * t + d * t ^ 2 := by
  rcases ha.eq_or_lt with rfl | hpos
  · have hc : c = 0 := by
      rw [zero_mul] at hdet
      exact pow_eq_zero_iff two_ne_zero |>.mp (le_antisymm hdet (sq_nonneg c))
    rw [hc]
    nlinarith [mul_nonneg hd (sq_nonneg t)]
  · have hsquare : a * (a * s ^ 2 + 2 * c * s * t + d * t ^ 2) =
        (a * s + c * t) ^ 2 + (a * d - c ^ 2) * t ^ 2 := by
      ring
    have hprod : 0 ≤ a * (a * s ^ 2 + 2 * c * s * t + d * t ^ 2) := by
      rw [hsquare]
      exact add_nonneg (sq_nonneg _) (mul_nonneg (sub_nonneg.mpr hdet) (sq_nonneg t))
    exact nonneg_of_mul_nonneg_right hprod hpos

theorem posSemidef_two_iff [StarRing K] [TrivialStar K] (a c d : K) :
    (!![a, c; c, d] : Matrix (Fin 2) (Fin 2) K).PosSemidef ↔ 0 ≤ a ∧ 0 ≤ d ∧ c ^ 2 ≤ a * d := by
  rw [posSemidef_iff_dotProduct_mulVec]
  constructor
  · rintro ⟨-, hx⟩
    have hform (s t : K) : 0 ≤ a * s ^ 2 + 2 * c * s * t + d * t ^ 2 := by
      have hpoint := hx ![s, t]
      rwa [quadraticForm_two] at hpoint
    have ha : 0 ≤ a := by simpa using hform 1 0
    have hd : 0 ≤ d := by simpa using hform 0 1
    exact ⟨ha, hd, det_nonneg_of_form ha hd hform⟩
  · rintro ⟨ha, hd, hdet⟩
    refine ⟨?_, fun x => ?_⟩
    · ext i j
      fin_cases i <;> fin_cases j <;> simp
    · rw [quadraticForm_two]
      exact form_nonneg_of_det ha hd hdet (x 0) (x 1)

end Plane

end XWebQL.LinearKalman
