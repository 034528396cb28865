import Mathlib.Data.Rat.Star
import Mathlib.Tactic.FieldSimp
import Mathlib.Tactic.Linarith
import XWebQL.LinearKalman
import XWebQL.Transition

/-! The Kalman filter of `kalman.jl`, in exact arithmetic.
`update` unrolls the filter of a constant velocity into assignments on the
fields. Its prediction is the exact one. In the correction the velocity and
`p_vv` read fields that earlier lines have overwritten: `observationalUpdate_state`
and `observationalUpdate_covariance` say by how much they miss the exact step. -/

namespace XWebQL.KalmanTracking

open Matrix LinearKalman

structure KalmanFilter where
  estimatePosition : ℚ
  estimateVelocity : ℚ
  pxx : ℚ
  pxv : ℚ
  pvv : ℚ
  positionVariance : ℚ
  velocityVariance : ℚ
  r : ℚ
  hasVelocity : Bool

/-- `KalmanFilter(position, video)`. -/
def kalmanFilter (position : ℚ) (video : Bool) : KalmanFilter :=
  if !video then
    { estimatePosition := position
      estimateVelocity := 0
      pxx := 1 / 10
      pxv := 1 / 10
      pvv := 1 / 10
      positionVariance := 1 / 100
      velocityVariance := 1 / 100
      r := 100000
      hasVelocity := false }
  else
    { estimatePosition := position
      estimateVelocity := 0
      pxx := 1 / 10 * position
      pxv := 1
      pvv := 1
      positionVariance := 1 / 10 * position
      velocityVariance := 1 / 100 * position / 1000
      r := 1 / 100 * position
      hasVelocity := false }

def reset (filter : KalmanFilter) (position : ℚ) : KalmanFilter :=
  { filter with
    estimatePosition := position
    estimateVelocity := 0
    hasVelocity := false }

/-- The predictive half of `update`. -/
def temporalUpdate (filter : KalmanFilter) (deltat : ℚ) : KalmanFilter :=
  let filter := { filter with
    estimatePosition := filter.estimatePosition + filter.estimateVelocity * deltat }
  let filter := { filter with
    pxx := filter.pxx + deltat * (2 * filter.pxv + deltat * filter.pvv) }
  let filter := { filter with pxv := filter.pxv + deltat * filter.pvv }
  let filter := { filter with pxx := filter.pxx + deltat * filter.positionVariance }
  { filter with pvv := filter.pvv + deltat * filter.velocityVariance }

def vi (filter : KalmanFilter) : ℚ := 1 / (filter.pxx + filter.r)

def kx (filter : KalmanFilter) : ℚ := filter.pxx * vi filter

def kv (filter : KalmanFilter) : ℚ := filter.pxv * vi filter

/-- The reactive half of `update`; `kx` and `kv` are computed before any assignment. -/
def observationalUpdate (filter : KalmanFilter) (position : ℚ) : KalmanFilter :=
  let kx := kx filter
  let kv := kv filter
  let filter := { filter with
    estimatePosition := filter.estimatePosition + (position - filter.estimatePosition) * kx }
  let filter := { filter with
    estimateVelocity := filter.estimateVelocity + (position - filter.estimatePosition) * kv }
  let filter := { filter with pxx := filter.pxx * (1 - kx) }
  let filter := { filter with pxv := filter.pxv * (1 - kx) }
  { filter with pvv := filter.pvv - kv * filter.pxv }

def update (filter : KalmanFilter) (position deltat : ℚ) : KalmanFilter :=
  if deltat ≤ 0 then
    filter
  else if !filter.hasVelocity then
    { filter with
      estimateVelocity := (position - filter.estimatePosition) / deltat
      estimatePosition := position
      hasVelocity := true }
  else
    observationalUpdate (temporalUpdate filter deltat) position

theorem update_of_hasVelocity {filter : KalmanFilter} {deltat : ℚ} (hv : filter.hasVelocity)
    (h : 0 < deltat) (position : ℚ) :
    update filter position deltat =
      observationalUpdate (temporalUpdate filter deltat) position := by
  rw [update, if_neg h.not_ge, hv]
  rfl

/-! The exact filter. -/

def belief (filter : KalmanFilter) : Belief ℚ (Fin 2) where
  state := ![filter.estimatePosition, filter.estimateVelocity]
  covariance := !![filter.pxx, filter.pxv; filter.pxv, filter.pvv]

/-- Constant velocity for `deltat`, with the position observed. -/
def constantVelocity (filter : KalmanFilter) (deltat : ℚ) : Model ℚ (Fin 2) (Fin 1) where
  transition := !![1, deltat; 0, 1]
  process := deltat • diagonal ![filter.positionVariance, filter.velocityVariance]
  observation := !![1, 0]
  noise := !![filter.r]

noncomputable def exactUpdate (filter : KalmanFilter) (position deltat : ℚ) : Belief ℚ (Fin 2) :=
  let model := constantVelocity filter deltat
  model.correct (model.predict (belief filter)) ![position]

/-- `p_xx` and `p_xv` of `F P Fᵀ + deltat * diag(position_variance, velocity_variance)`. -/
def predictedPxx (filter : KalmanFilter) (deltat : ℚ) : ℚ :=
  filter.pxx + deltat * (2 * filter.pxv + deltat * filter.pvv) + deltat * filter.positionVariance

def predictedPxv (filter : KalmanFilter) (deltat : ℚ) : ℚ :=
  filter.pxv + deltat * filter.pvv

theorem predict_state (filter : KalmanFilter) (deltat : ℚ) :
    ((constantVelocity filter deltat).predict (belief filter)).state =
      ![filter.estimatePosition + filter.estimateVelocity * deltat, filter.estimateVelocity] := by
  ext i
  fin_cases i <;> simp [Model.predict, constantVelocity, belief, mul_comm]

theorem predict_covariance (filter : KalmanFilter) (deltat : ℚ) :
    ((constantVelocity filter deltat).predict (belief filter)).covariance =
      !![predictedPxx filter deltat, predictedPxv filter deltat;
        predictedPxv filter deltat, filter.pvv + deltat * filter.velocityVariance] := by
  have htranspose : (!![1, deltat; 0, 1] : Matrix (Fin 2) (Fin 2) ℚ)ᵀ = !![1, 0; deltat, 1] := by
    ext i j
    fin_cases i <;> fin_cases j <;> rfl
  simp only [Model.predict, constantVelocity, belief, htranspose, Matrix.mul_fin_two,
    predictedPxx, predictedPxv]
  ext i j
  fin_cases i <;> fin_cases j <;> simp <;> ring

theorem temporalUpdate_belief (filter : KalmanFilter) (deltat : ℚ) :
    belief (temporalUpdate filter deltat) =
      (constantVelocity filter deltat).predict (belief filter) := by
  refine Belief.ext ?_ ?_
  · rw [predict_state]
    rfl
  · rw [predict_covariance]
    rfl

theorem covariance_observation (filter : KalmanFilter) (deltat : ℚ) :
    (belief filter).covariance * (constantVelocity filter deltat).observationᵀ =
      !![filter.pxx; filter.pxv] := by
  have htranspose : (!![1, 0] : Matrix (Fin 1) (Fin 2) ℚ)ᵀ = !![1; 0] := by
    ext i j
    fin_cases i <;> fin_cases j <;> rfl
  simp only [constantVelocity, belief, htranspose]
  ext i j
  fin_cases i <;> fin_cases j <;> simp

theorem innovationCovariance_belief (filter : KalmanFilter) (deltat : ℚ) :
    (constantVelocity filter deltat).innovationCovariance (belief filter) =
      !![filter.pxx + filter.r] := by
  rw [Model.innovationCovariance, Matrix.mul_assoc, covariance_observation]
  ext i j
  fin_cases i
  fin_cases j
  simp [constantVelocity]

theorem gain_belief (filter : KalmanFilter) (deltat : ℚ) :
    (constantVelocity filter deltat).gain (belief filter) = !![kx filter; kv filter] := by
  rw [Model.gain, covariance_observation, innovationCovariance_belief, inv_subsingleton]
  ext i j
  fin_cases j
  fin_cases i <;> simp [kx, kv, vi]

theorem innovation_belief (filter : KalmanFilter) (position deltat : ℚ) :
    (constantVelocity filter deltat).innovation (belief filter) ![position] =
      ![position - filter.estimatePosition] := by
  ext i
  fin_cases i
  simp only [Model.innovation, constantVelocity, belief, Pi.sub_apply, mulVec, dotProduct,
    Fin.sum_univ_two]
  simp

theorem kv_mul_pxx (filter : KalmanFilter) : kv filter * filter.pxx = kx filter * filter.pxv := by
  rw [kv, kx]
  ring

theorem observationalUpdate_state (filter : KalmanFilter) (position deltat : ℚ) :
    (belief (observationalUpdate filter position)).state +
        ![0, kx filter * kv filter * (position - filter.estimatePosition)] =
      ((constantVelocity filter deltat).correct (belief filter) ![position]).state := by
  rw [Model.correct, gain_belief, innovation_belief]
  ext i
  fin_cases i <;> simp [belief, observationalUpdate]
  ring

theorem observationalUpdate_covariance (filter : KalmanFilter) (position deltat : ℚ) :
    (belief (observationalUpdate filter position)).covariance =
      ((constantVelocity filter deltat).correct (belief filter) ![position]).covariance +
        diagonal ![0, kx filter * kv filter * filter.pxv] := by
  have hproduct : !![kx filter; kv filter] * (!![1, 0] : Matrix (Fin 1) (Fin 2) ℚ) =
      !![kx filter, 0; kv filter, 0] := by
    ext i j
    fin_cases i <;> fin_cases j <;> simp
  have hsymm := kv_mul_pxx filter
  rw [Model.correct, gain_belief]
  simp only [constantVelocity, belief, hproduct, one_fin_two, observationalUpdate]
  ext i j
  fin_cases i <;> fin_cases j <;> simp <;> linarith

theorem kx_mul_kv_eq_zero {filter : KalmanFilter} (h : filter.pxx + filter.r ≠ 0) :
    kx filter * kv filter = 0 ↔ filter.pxv = 0 ∨ filter.pxx = 0 := by
  have hvi : vi filter ≠ 0 := one_div_ne_zero h
  simp only [kx, kv, mul_eq_zero, hvi, or_false]
  exact or_comm

theorem observationalUpdate_belief_iff {filter : KalmanFilter} (h : filter.pxx + filter.r ≠ 0)
    (position deltat : ℚ) :
    belief (observationalUpdate filter position) =
        (constantVelocity filter deltat).correct (belief filter) ![position] ↔
      filter.pxv = 0 ∨ filter.pxx = 0 := by
  rw [Belief.ext_iff, ← observationalUpdate_state filter position deltat,
    observationalUpdate_covariance filter position deltat, left_eq_add, add_eq_left,
    diagonal_eq_zero, ← kx_mul_kv_eq_zero h]
  constructor
  · rintro ⟨-, hcovariance⟩
    have hpvv : kx filter * kv filter * filter.pxv = 0 := congrFun hcovariance 1
    rcases mul_eq_zero.mp hpvv with hgain | hpxv
    · exact hgain
    · exact (kx_mul_kv_eq_zero h).mpr (.inl hpxv)
  · intro hgain
    rw [hgain]
    simp

/-- An update is one step of the exact filter only where the predicted
covariance of position and velocity, or the predicted variance of the position, is zero. -/
theorem update_exact_iff {filter : KalmanFilter} {deltat : ℚ} (hv : filter.hasVelocity)
    (hdeltat : 0 < deltat) (hr : predictedPxx filter deltat + filter.r ≠ 0) (position : ℚ) :
    belief (update filter position deltat) = exactUpdate filter position deltat ↔
      predictedPxv filter deltat = 0 ∨ predictedPxx filter deltat = 0 := by
  have hpredicted : (temporalUpdate filter deltat).pxx + (temporalUpdate filter deltat).r ≠ 0 := hr
  have hobservation := observationalUpdate_belief_iff hpredicted position deltat
  rw [temporalUpdate_belief] at hobservation
  rw [update_of_hasVelocity hv hdeltat]
  exact hobservation

def moved : KalmanFilter := update (kalmanFilter 0 false) 1 1

theorem update_exact_iff_moved :
    belief (update moved 3 1) = exactUpdate moved 3 1 ↔
      predictedPxv moved 1 = 0 ∨ predictedPxx moved 1 = 0 :=
  update_exact_iff (by decide +kernel) (by decide +kernel) (by decide +kernel) 3

theorem update_not_exact :
    ¬∀ (filter : KalmanFilter) (position deltat : ℚ), filter.hasVelocity → 0 < deltat →
      predictedPxx filter deltat + filter.r ≠ 0 →
      belief (update filter position deltat) = exactUpdate filter position deltat := by
  intro h
  have hv : moved.hasVelocity := by decide +kernel
  have hr : (temporalUpdate moved 1).pxx + (temporalUpdate moved 1).r ≠ 0 := by decide +kernel
  have hexact := h moved 3 1 hv one_pos hr
  rw [update_of_hasVelocity hv one_pos, exactUpdate, ← temporalUpdate_belief] at hexact
  have hzero := (observationalUpdate_belief_iff hr 3 1).mp hexact
  revert hzero
  decide +kernel

/-! The covariance over whole runs. -/

structure Sound (filter : KalmanFilter) : Prop where
  pxx_nonneg : 0 ≤ filter.pxx
  pvv_nonneg : 0 ≤ filter.pvv
  det_nonneg : filter.pxv ^ 2 ≤ filter.pxx * filter.pvv
  r_pos : 0 < filter.r
  positionVariance_nonneg : 0 ≤ filter.positionVariance
  velocityVariance_nonneg : 0 ≤ filter.velocityVariance

theorem Sound.posSemidef {filter : KalmanFilter} (h : Sound filter) :
    (belief filter).covariance.PosSemidef :=
  (posSemidef_two_iff _ _ _).mpr ⟨h.pxx_nonneg, h.pvv_nonneg, h.det_nonneg⟩

theorem Sound.of_posSemidef {filter next : KalmanFilter} (h : Sound filter)
    (hcovariance : (belief next).covariance.PosSemidef) (hr : next.r = filter.r)
    (hposition : next.positionVariance = filter.positionVariance)
    (hvelocity : next.velocityVariance = filter.velocityVariance) : Sound next := by
  obtain ⟨hpxx, hpvv, hdet⟩ := (posSemidef_two_iff _ _ _).mp hcovariance
  exact ⟨hpxx, hpvv, hdet, hr ▸ h.r_pos, hposition ▸ h.positionVariance_nonneg,
    hvelocity ▸ h.velocityVariance_nonneg⟩

theorem Sound.innovation_pos {filter : KalmanFilter} (h : Sound filter) :
    0 < filter.pxx + filter.r :=
  add_pos_of_nonneg_of_pos h.pxx_nonneg h.r_pos

theorem Sound.kx_nonneg {filter : KalmanFilter} (h : Sound filter) : 0 ≤ kx filter :=
  mul_nonneg h.pxx_nonneg (one_div_nonneg.mpr h.innovation_pos.le)

theorem Sound.kx_lt_one {filter : KalmanFilter} (h : Sound filter) : kx filter < 1 := by
  rw [kx, vi, mul_one_div, div_lt_one h.innovation_pos]
  exact lt_add_of_pos_right _ h.r_pos

theorem Sound.temporalUpdate {filter : KalmanFilter} (h : Sound filter) {deltat : ℚ}
    (hdeltat : 0 ≤ deltat) : Sound (temporalUpdate filter deltat) := by
  refine h.of_posSemidef ?_ rfl rfl rfl
  have hprocess : (constantVelocity filter deltat).process.PosSemidef := by
    refine PosSemidef.smul (PosSemidef.diagonal fun i => ?_) hdeltat
    fin_cases i
    · exact h.positionVariance_nonneg
    · exact h.velocityVariance_nonneg
  rw [temporalUpdate_belief]
  exact Model.predict_posSemidef h.posSemidef hprocess

/-- The part of `p_vv` that the correction leaves in place only adds variance. -/
theorem Sound.observationalUpdate {filter : KalmanFilter} (h : Sound filter) (position : ℚ) :
    Sound (observationalUpdate filter position) := by
  refine h.of_posSemidef ?_ rfl rfl rfl
  have hnoise : (constantVelocity filter 0).noise.PosSemidef := by
    have hdiagonal : (constantVelocity filter 0).noise = diagonal ![filter.r] := by
      ext i j
      fin_cases i
      fin_cases j
      rfl
    rw [hdiagonal]
    refine PosSemidef.diagonal fun i => ?_
    fin_cases i
    exact h.r_pos.le
  have hunit : IsUnit ((constantVelocity filter 0).innovationCovariance (belief filter)).det := by
    rw [innovationCovariance_belief, det_fin_one_of]
    exact h.innovation_pos.ne'.isUnit
  have hleft : (diagonal ![0, kx filter * kv filter * filter.pxv]).PosSemidef := by
    refine PosSemidef.diagonal fun i => ?_
    fin_cases i
    · exact le_rfl
    · have hsquare : kx filter * kv filter * filter.pxv =
          filter.pxx * (vi filter * filter.pxv) ^ 2 := by
        rw [kx, kv]
        ring
      simp only [Fin.mk_one, cons_val_one, cons_val_fin_one, Pi.zero_apply, hsquare]
      exact mul_nonneg h.pxx_nonneg (sq_nonneg _)
  rw [observationalUpdate_covariance filter position 0]
  exact (Model.correct_posSemidef h.posSemidef hnoise hunit _).add hleft

theorem Sound.update {filter : KalmanFilter} (h : Sound filter) (position deltat : ℚ) :
    Sound (update filter position deltat) := by
  unfold KalmanTracking.update
  split_ifs with hdeltat hv
  · exact h
  · exact h.of_posSemidef h.posSemidef rfl rfl rfl
  · exact (h.temporalUpdate (not_le.mp hdeltat).le).observationalUpdate position

theorem Sound.reset {filter : KalmanFilter} (h : Sound filter) (position : ℚ) :
    Sound (reset filter position) :=
  h.of_posSemidef h.posSemidef rfl rfl rfl

theorem kalmanFilter_sound (position : ℚ) : Sound (kalmanFilter position false) := by
  constructor <;> norm_num [kalmanFilter]

inductive Call
  | update (position deltat : ℚ)
  | reset (position : ℚ)

open Transition

def calls (start : KalmanFilter) : System KalmanFilter Call where
  init := start
  step filter
    | .update position deltat => some (update filter position deltat)
    | .reset position => some (reset filter position)

theorem calls_step {filter next : KalmanFilter} {call : Call} (start : KalmanFilter)
    (h : Sound filter) (hstep : (calls start).step filter call = some next) : Sound next := by
  cases call with
  | update position deltat =>
    rw [← Option.some.inj hstep]
    exact h.update position deltat
  | reset position =>
    rw [← Option.some.inj hstep]
    exact h.reset position

theorem calls_sound :
    (∀ position, Sound (kalmanFilter position false)) ∧
      ∀ start filter, Sound start → Reachable (calls start) filter →
        Sound filter ∧ 0 < filter.pxx + filter.r ∧
          ∀ deltat, 0 < deltat →
            0 < (temporalUpdate filter deltat).pxx + (temporalUpdate filter deltat).r ∧
              0 ≤ kx (temporalUpdate filter deltat) ∧ kx (temporalUpdate filter deltat) < 1 := by
  refine ⟨kalmanFilter_sound, fun start filter hstart hreach => ?_⟩
  have hsound : Sound filter := hreach.invariant Sound hstart
    fun _ _ _ hs _ hstep => calls_step start hs hstep
  refine ⟨hsound, hsound.innovation_pos, fun deltat hdeltat => ?_⟩
  have hpredicted := hsound.temporalUpdate hdeltat.le
  exact ⟨hpredicted.innovation_pos, hpredicted.kx_nonneg, hpredicted.kx_lt_one⟩

theorem calls_sound_moved : Sound (update moved 3 1) :=
  (calls_sound.2 (kalmanFilter 0 false) _ (calls_sound.1 0)
    (.next (.update 3 1) (.next (.update 1 1) .start trivial rfl) trivial rfl)).1

end XWebQL.KalmanTracking
