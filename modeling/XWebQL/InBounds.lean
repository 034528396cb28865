import Mathlib.Analysis.Complex.ExponentialBounds
import XWebQL.SingleBounds

/-! Which inputs keep the binning functions inside their arrays.
The block of all values is looked at once, by the first step of the last round. It is
taken if 20 events and two values are there, the resolution is at least 2, and the
extent is finite: an infinite one is not wider than the step, which is infinite then. -/

namespace XWebQL.InBounds

open FloatFormat FloatFormat.Format FloatArithmetic FloatValues FortranArray Quicksort SingleBinning
  SingleCounts SingleBounds
open BayesianBinning (Schedule mergeChangePoints mergeChangePoints_spec mergeChangePoints_singleton
  head_lt_last_iff two_le_length)
open DivideBinning (leftLeafSize leftLeafSize_of_le leftLeafSize_lt leftLeafSize_le
  leftLeafSize_two_le)

/-- No two values lie further apart than the largest number. -/
def FiniteExtent (x : List Single) : Prop :=
  ∀ u ∈ x, ∀ v ∈ x, u ≤ v → (.value v - .value u : CFloat).IsFinite

inductive Extent (first last : Single) : CFloat → Prop
  | nan : first = last → Extent first last .nan
  | infinite : first < last → Extent first last (.value .posInf)
  | finite {e : CFloat} {q : ℚ} : e.Is q → 0 ≤ q → (q = 0 ↔ first = last) → Extent first last e

section Extents

variable {first last : Single}

theorem finite_inj {p q : ℚ} {hp : binary32.IsFinite p} {hq : binary32.IsFinite q} :
    (.finite p hp : Single) = .finite q hq ↔ p = q := by
  constructor
  · intro h
    injection h
  · rintro rfl
    rfl

theorem extent_of_le (hle : first ≤ last) : Extent first last (.value last - .value first) := by
  cases first with
  | posInf =>
    obtain rfl : last = .posInf := le_antisymm (Value.le_posInf last) hle
    exact .nan rfl
  | negInf =>
    cases last with
    | negInf => exact .nan rfl
    | finite q hq => exact .infinite (lt_of_le_of_ne hle nofun)
    | posInf => exact .infinite (lt_of_le_of_ne hle nofun)
  | finite p hp =>
    cases last with
    | negInf => exact absurd (le_antisymm hle (Value.negInf_le _)) nofun
    | posInf => exact .infinite Value.finite_lt_posInf
    | finite q hq =>
      have hpq := Value.finite_le_finite.mp hle
      show Extent _ _ (.ofRat binary32 (q - p))
      by_cases hbounded : |binary32.round (q - p)| < 2 ^ binary32.maxExponent
      · refine .finite (Number.is_ofRat hbounded) (round_nonneg (sub_nonneg.mpr hpq)) ?_
        rw [finite_inj]
        constructor
        · intro hzero
          by_contra hne
          exact (round_sub_pos hp.1 hq.1 (lt_of_le_of_ne hpq hne)).ne' hzero
        · rintro rfl
          rw [sub_self, round_zero]
      · have hlt : p < q := by
          refine lt_of_le_of_ne hpq ?_
          rintro rfl
          rw [sub_self, round_zero, abs_zero] at hbounded
          exact hbounded (zpow_pos two_pos _)
        have hover : (Number.ofRat binary32 (q - p)) = .value .posInf := by
          rw [Number.ofRat, Value.ofRat, dif_neg hbounded, if_pos (sub_pos.mpr hlt)]
        rw [hover]
        exact .infinite (Value.finite_lt_finite.mpr hlt)

theorem real_resolution {resolution : ℤ} (hres : 1 ≤ resolution) (hint : resolution < 2 ^ 31) :
    ∃ r, (real resolution).Is r ∧ 1 ≤ r ∧ (resolution = 1 → r = 1) ∧ (2 ≤ resolution → 2 ≤ r) := by
  have hres' : (1 : ℚ) ≤ resolution := by exact_mod_cast hres
  have habs : |(resolution : ℚ)| ≤ 2 ^ (31 : ℤ) := by
    rw [abs_of_nonneg (by linarith)]
    have hle : (resolution : ℚ) ≤ (2 ^ 31 : ℤ) := by exact_mod_cast hint.le
    exact hle.trans_eq (by norm_num)
  have hone : binary32.round 1 = 1 := round_of_isFloat
    (by simpa using (isFinite_natCast (n := 1) (by decide)).1)
  have htwo : binary32.round 2 = 2 := round_of_isFloat
    (by simpa using (isFinite_natCast (n := 2) (by decide)).1)
  refine ⟨_, Number.is_ofRat_of_le (by decide) (by decide) habs, ?_, ?_, fun h => ?_⟩
  · rw [← hone]
    exact round_mono _ hres'
  · rintro rfl
    rw [Int.cast_one, hone]
  · rw [← htwo]
    exact round_mono _ (by exact_mod_cast h)

theorem resolutionStep_finite {e : CFloat} {q : ℚ} {resolution : ℤ} (he : e.Is q) (hq : 0 ≤ q)
    (hres : 1 ≤ resolution) (hint : resolution < 2 ^ 31) :
    ∃ d, (resolutionStep e (some resolution)).Is d ∧ 0 ≤ d ∧ (d < q ↔ 0 < q ∧ 2 ≤ resolution) := by
  obtain ⟨r, hr, hr₁, hone, htwo⟩ := real_resolution hres hint
  have hfloat := he.isFinite
  have hpos : 0 < r := zero_lt_one.trans_le hr₁
  have hself : binary32.round q = q := round_of_isFloat hfloat.1
  have hnonneg : 0 ≤ binary32.round (q / r) := round_nonneg (div_nonneg hq hpos.le)
  have hle : binary32.round (q / r) ≤ q := by
    conv_rhs => rw [← hself]
    exact round_mono _ (div_le_self hq hr₁)
  have hbound : binary32.round (q / r) < 2 ^ binary32.maxExponent :=
    (hle.trans (le_abs_self q)).trans_lt hfloat.2
  have hdiv : (e / real resolution).Is (binary32.round (q / r)) := by
    rw [he.div hr hpos.ne']
    exact Number.is_ofRat (by rwa [abs_of_nonneg hnonneg])
  refine ⟨_, ?_, hnonneg, ?_⟩
  · obtain ⟨hfinite, hvalue⟩ := hdiv
    rw [resolutionStep, hvalue]
    show (real |binary32.round (q / r)|).Is _
    rw [abs_of_nonneg hnonneg]
    exact Number.is_ofRat_of_isFinite hfinite
  · constructor
    · intro hlt
      refine ⟨hnonneg.trans_lt hlt, ?_⟩
      by_contra hnot
      rw [hone (by omega), div_one, hself] at hlt
      exact lt_irrefl q hlt
    · rintro ⟨hq', hres'⟩
      refine lt_of_le_of_lt (round_mono _ ?_) (round_half_lt hfloat.1 hq')
      exact div_le_div_of_nonneg_left hq two_pos (htwo hres')

theorem resolutionStep_infinite {resolution : ℤ} (hres : 1 ≤ resolution)
    (hint : resolution < 2 ^ 31) :
    resolutionStep (.value .posInf) (some resolution) = .value .posInf := by
  obtain ⟨r, ⟨hr, hvalue⟩, hr₁, -⟩ := real_resolution hres hint
  rw [resolutionStep, hvalue]
  show (Number.infinity binary32 (1 * if r < 0 then -1 else 1)).abs = _
  rw [if_neg (by linarith)]
  rfl

end Extents

section Fitness

variable {cnt width total : CFloat} {c w t : ℚ}

theorem apply_log (L : Logarithm) {a : CFloat} {q : ℚ} (ha : a.Is q) (hq : 0 < q) :
    ∃ l, (L.apply a).Is l ∧ |l| ≤ 2 ^ (7 : ℤ) := by
  obtain ⟨hfinite, rfl⟩ := ha
  have hrange := L.range q hfinite hq
  refine ⟨binary32.round (L.log q), ?_, abs_round_le_zpow (by decide) hrange⟩
  show (if 0 < q then real (L.log q) else _).Is _
  rw [if_pos hq]
  exact Number.is_ofRat_of_le (by decide) (by decide) hrange

/-- The fitness of a block of at least 20 events and of a positive width is above the start value.
It may be infinite. -/
theorem fitStart_lt (L : Logarithm) (hcnt : cnt.Is c) (hwidth : width.Is w) (htotal : total.Is t)
    (hc : 20 ≤ c ∧ c ≤ 2 ^ (78 : ℤ)) (hw : 0 < w) (ht : 0 < t) :
    fitStart < fitness L cnt width total := by
  have hc₀ : 0 < c := by linarith [hc.1]
  obtain ⟨lt, hlt, hltBound⟩ := apply_log L htotal ht
  have hstart : ∃ q, fitStart.Is q ∧ q ≤ -2 ^ (126 : ℤ) := by
    refine ⟨_, Number.is_ofRat_of_le (k := 127) (by decide) (by decide) ?_,
      round_le_neg_zpow (by decide) ?_⟩ <;> norm_num
  obtain ⟨start, hstart, hstartBound⟩ := hstart
  rw [fitness, hcnt.div hwidth hw.ne']
  by_cases hbounded : |binary32.round (c / w)| < 2 ^ binary32.maxExponent
  · -- the quotient is not too small for a number either
    have hquotient : 0 < binary32.round (c / w) := by
      have hw' : w < 2 ^ (128 : ℤ) := by
        have h := hwidth.isFinite.2
        rwa [abs_of_pos hw] at h
      have hle : (2 : ℚ) ^ (-128 : ℤ) ≤ c / w := by
        rw [le_div_iff₀ hw]
        calc (2 : ℚ) ^ (-128 : ℤ) * w ≤ 2 ^ (-128 : ℤ) * 2 ^ (128 : ℤ) :=
              mul_le_mul_of_nonneg_left hw'.le (zpow_pos two_pos _).le
          _ = 1 := by rw [← zpow_add₀ two_ne_zero]; norm_num
          _ ≤ c := by linarith [hc.1]
      exact (zpow_pos two_pos _).trans_le (zpow_le_round (by decide) hle)
    obtain ⟨l, hl, hlBound⟩ := apply_log L (Number.is_ofRat hbounded) hquotient
    have hproduct : |c * l| ≤ 2 ^ (85 : ℤ) := by
      rw [abs_mul, abs_of_pos hc₀]
      calc c * |l| ≤ 2 ^ (78 : ℤ) * 2 ^ (7 : ℤ) :=
            mul_le_mul hc.2 hlBound (abs_nonneg l) (zpow_pos two_pos _).le
        _ = 2 ^ (85 : ℤ) := by rw [← zpow_add₀ two_ne_zero]; norm_num
    have hmul := Number.is_ofRat_of_le (F := binary32) (by decide) (by decide) hproduct
    have hmulBound := abs_round_le_zpow (F := binary32.toFormat) (by decide) hproduct
    rw [hcnt.mul hl, hmul.sub hlt]
    have hdifference : |binary32.round (c * l) - lt| ≤ 2 ^ (86 : ℤ) := by
      refine (abs_sub _ _).trans ((add_le_add hmulBound hltBound).trans ?_)
      norm_num
    refine (hstart.lt_iff (Number.is_ofRat_of_le (by decide) (by decide) hdifference)).mpr ?_
    have hfit := abs_round_le_zpow (F := binary32.toFormat) (by decide) hdifference
    refine hstartBound.trans_lt (lt_of_lt_of_le ?_ (abs_le.mp hfit).1)
    norm_num
  · -- so narrow a block has an infinite quotient
    have hover : Number.ofRat binary32 (c / w) = .value .posInf := by
      rw [Number.ofRat, Value.ofRat, dif_neg hbounded, if_pos (div_pos hc₀ hw)]
    obtain ⟨hfinite, rfl⟩ := hcnt
    obtain ⟨_, hlt⟩ := hlt
    rw [hover, hlt]
    have hsign : (SignType.sign c) = 1 := sign_pos hc₀
    have hproduct : (.value (.finite c hfinite) * L.apply (.value .posInf) : CFloat) =
        .value .posInf := by
      show Number.infinity binary32 (SignType.sign c * 1) = _
      rw [hsign]
      rfl
    rw [hproduct]
    obtain ⟨_, hstart⟩ := hstart
    rw [hstart]
    exact Value.finite_lt_posInf

end Fitness

section LastRound

variable {L : Logarithm} {wh best edges : List CFloat} {first last : Single} {N n : ℕ}
  {resolution : ℤ}

/-- What the first candidate of the last round needs. -/
def Admits (n : ℕ) (first last : Single) (resolution : ℤ) : Prop :=
  20 ≤ n ∧ first < last ∧ 2 ≤ resolution ∧ (.value last - .value first : CFloat).IsFinite

theorem lt_minCounts_iff {cnt : CFloat} {q : ℚ} (hcnt : cnt.Is q) (hfew : n < 20 → q = n)
    (hmany : 20 ≤ n → 20 ≤ q) : cnt < minCounts ↔ n < 20 := by
  rw [hcnt.lt_iff minCounts_is]
  rcases Nat.lt_or_ge n 20 with hn | hn
  · rw [hfew hn]
    exact_mod_cast Iff.rfl
  · exact iff_of_false (not_lt.mpr (hmany hn)) (by omega)

/-- Once a block is chosen the round goes on choosing. -/
theorem innerLoop_ne_zero {dt fit fitMax : CFloat} {M i : ℕ} (hedges : M + 2 ≤ edges.length)
    (hwh : wh.length = edges.length) (hbest : M ≤ best.length)
    (hloop : innerLoop L dt wh edges best (M + 1) (List.range' 2 M) (fit, 1) = some (fitMax, i)) :
    i ≠ 0 := by
  have hrest : ∀ i ∈ List.range' 2 M, 1 ≤ i ∧ i ≤ M + 1 := by
    intro i hi
    have h := List.mem_range'_1.mp hi
    omega
  obtain ⟨m, j, hloop', hj⟩ := innerLoop_spec L dt hedges hwh (Nat.succ_le_succ hbest)
    (List.range' 2 M) hrest (fit, 1)
  obtain ⟨-, rfl⟩ := Prod.mk.inj (Option.some.inj (hloop'.symm.trans hloop))
  rcases hj with rfl | ⟨hj, -⟩
  · exact one_ne_zero
  · exact Nat.one_le_iff_ne_zero.mp (hrest j hj).1

/-- The last round chooses a block exactly when its first candidate is admitted. -/
theorem lastRound_iff (hres : 1 ≤ resolution) (hint : resolution < 2 ^ 31)
    (hle : first ≤ last) (hone : first = last → N = 1) (hN : 1 ≤ N)
    (hwh : wh.length = N + 1) (hedges : edges.length = N + 1) (hbest : best.length + 1 = N)
    (hzero : elem wh 1 = some (real 0)) (htotal : Total (Counted 52) wh n)
    (hfirst : elem edges 1 = some (.value first)) (hlast : elem edges (N + 1) = some (.value last))
    {fitMax : CFloat} {i : ℕ}
    (hloop : innerLoop L (resolutionStep (.value last - .value first) (some resolution))
      (cumsum wh) edges best N (List.range' 1 N) (fitStart, 0) = some (fitMax, i)) :
    i ≠ 0 ↔ Admits n first last resolution := by
  have hcumsum : (cumsum wh).length = N + 1 := (length_cumsum wh).trans hwh
  have hwhNe : wh ≠ [] := List.ne_nil_of_length_pos (by omega)
  obtain ⟨s, hs, q, hsq, hq₀, hq₁, hfew, hmany⟩ := cumsum_last hwhNe htotal
  rw [hwh] at hs
  have hleft : elem (cumsum wh) 1 = some (real 0) := (elem_one_cumsum wh).trans hzero
  -- all events are in range
  have hcnt : (s - real 0).Is q := by
    rw [hsq.sub real_zero, sub_zero]
    exact Number.is_ofRat_of_isFinite hsq.isFinite
  obtain ⟨dt, hdt⟩ : ∃ dt, resolutionStep (.value last - .value first) (some resolution) = dt :=
    ⟨_, rfl⟩
  rw [hdt] at hloop
  obtain ⟨width, hwidth⟩ : ∃ width, (.value last - .value first : CFloat) = width := ⟨_, rfl⟩
  obtain ⟨M, rfl⟩ : ∃ M, N = M + 1 := ⟨N - 1, by omega⟩
  simp only [List.range'_succ, innerLoop, hs, hleft, hfirst, hlast, hcumsum, hwidth,
    Option.bind_eq_bind, Option.bind_some] at hloop
  have htwenty := lt_minCounts_iff hcnt hfew hmany
  by_cases hn : n < 20
  · rw [if_pos (htwenty.mpr hn)] at hloop
    obtain ⟨-, rfl⟩ := Prod.mk.inj (Option.some.inj hloop)
    exact iff_of_false (fun h => h rfl) fun h => absurd h.1 (by omega)
  rw [if_neg (mt htwenty.mp hn)] at hloop
  have hextent := extent_of_le hle
  rw [hwidth] at hextent hdt
  cases hextent with
  | nan heq =>
    -- a single infinite value has a fitness that is NaN, and no other candidate
    obtain rfl : M = 0 := by
      have h := hone heq
      omega
    have hnarrow : ¬ (.nan : CFloat) ≤ dt := id
    rw [if_neg hnarrow, fitness_nan, addBest, if_neg (by omega), Option.bind_some,
      if_neg (not_lt_nan _)] at hloop
    obtain ⟨-, rfl⟩ := Prod.mk.inj (Option.some.inj hloop)
    exact iff_of_false (fun h => h rfl) fun h => absurd heq h.2.1.ne
  | infinite hlt =>
    rw [resolutionStep_infinite hres hint] at hdt
    have hnarrow : (.value .posInf : CFloat) ≤ dt := hdt ▸ le_refl (.posInf : Single)
    rw [if_pos hnarrow] at hloop
    obtain ⟨-, rfl⟩ := Prod.mk.inj (Option.some.inj hloop)
    refine iff_of_false (fun h => h rfl) fun h => ?_
    obtain ⟨_, _, hvalue⟩ := h.2.2.2
    rw [hwidth] at hvalue
    cases hvalue
  | finite he he₀ heq =>
    rename_i e
    obtain ⟨d, hd, -, hstep⟩ := resolutionStep_finite he he₀ hres hint
    rw [hdt] at hd
    have hadmits : Admits n first last resolution ↔ 0 < e ∧ 2 ≤ resolution := by
      rw [Admits, hwidth, lt_iff_le_and_ne, ne_eq, ← heq]
      have hpos : 0 < e ↔ ¬ e = 0 := he₀.lt_iff_ne'
      exact ⟨fun h => ⟨hpos.mpr h.2.1.2, h.2.2.1⟩,
        fun h => ⟨not_lt.mp hn, ⟨hle, hpos.mp h.1⟩, h.2, e, he⟩⟩
    rw [hadmits, ← hstep]
    by_cases hnarrow : width ≤ dt
    · rw [if_pos hnarrow] at hloop
      obtain ⟨-, rfl⟩ := Prod.mk.inj (Option.some.inj hloop)
      exact iff_of_false (fun h => h rfl) (not_lt.mpr ((he.le_iff hd).mp hnarrow))
    · have hlt : d < e := not_le.mp fun h => hnarrow ((he.le_iff hd).mpr h)
      have hfit := fitStart_lt L hcnt he hsq ⟨hmany (not_lt.mp hn), hq₁⟩ (hstep.mp hlt).1
        (by linarith [hmany (not_lt.mp hn)])
      rw [if_neg hnarrow, addBest, if_neg (by omega), Option.bind_some, if_pos hfit] at hloop
      exact iff_of_true (innerLoop_ne_zero hedges.ge (hcumsum.trans hedges.symm) (by omega) hloop)
        hlt

end LastRound

section Results

variable {L : Logarithm} {x sorted unique : List Single} {weights : List CFloat}
  {first last : Single} {resolution : ℤ}

structure Prepared (x unique : List Single) (weights : List CFloat) (first last : Single) : Prop
    extends Encoded x unique weights where
  head : unique.head? = some first
  last : unique.getLast? = some last

theorem exists_prepared (hne : x ≠ []) (hperm : sorted.Perm x)
    (hsorted : sorted.Pairwise (· ≤ ·)) :
    ∃ unique weights first last, runLength sorted = some (unique, weights) ∧
      Prepared x unique weights first last := by
  have hne' : sorted ≠ [] := by
    rintro rfl
    exact hne hperm.nil_eq.symm
  obtain ⟨unique, weights, hrun, h⟩ := runLength_spec hne' hsorted
  have hpos : 1 ≤ unique.length := by
    obtain ⟨v, hv⟩ := List.exists_mem_of_ne_nil sorted hne'
    exact List.length_pos_of_mem ((h.mem v).mpr hv)
  obtain ⟨first, hfirst⟩ := exists_elem (a := unique) le_rfl hpos
  obtain ⟨last, hlast⟩ := exists_elem (a := unique) hpos le_rfl
  exact ⟨unique, weights, first, last, hrun,
    ⟨h.increasing, fun v => by rw [h.mem, hperm.mem_iff], h.length_eq, hperm.length_eq ▸ h.total⟩,
    (elem_one unique).symm.trans hfirst, (elem_length unique).symm.trans hlast⟩

namespace Prepared

theorem ne_nil (h : Prepared x unique weights first last) : unique ≠ [] := by
  rintro rfl
  cases h.head

theorem length_eq_card (h : Prepared x unique weights first last) :
    unique.length = x.toFinset.card := by
  have hnodup : unique.Nodup := h.increasing.imp ne_of_lt
  rw [← List.toFinset_card_of_nodup hnodup]
  congr 1
  ext v
  rw [List.mem_toFinset, List.mem_toFinset, h.mem]

theorem first_le (h : Prepared x unique weights first last) : ∀ v ∈ x, first ≤ v :=
  fun v hv => BayesianBinning.le_of_head? h.increasing h.head v ((h.mem v).mpr hv)

theorem le_last (h : Prepared x unique weights first last) : ∀ v ∈ x, v ≤ last :=
  fun v hv => BayesianBinning.le_of_getLast? h.increasing h.last v ((h.mem v).mpr hv)

theorem first_mem (h : Prepared x unique weights first last) : first ∈ x :=
  (h.mem first).mp (List.mem_of_mem_head? h.head)

theorem last_mem (h : Prepared x unique weights first last) : last ∈ x :=
  (h.mem last).mp (List.mem_of_mem_getLast? h.last)

end Prepared

theorem isFinite_between {u v : Single} (hfinite : (.value last - .value first : CFloat).IsFinite)
    (hu : first ≤ u) (huv : u ≤ v) (hv : v ≤ last) : (.value v - .value u : CFloat).IsFinite := by
  obtain ⟨e, he⟩ := hfinite
  cases first with
  | negInf => cases last <;> obtain ⟨_, h⟩ := he <;> cases h
  | posInf => cases last <;> obtain ⟨_, h⟩ := he <;> cases h
  | finite p hp =>
    cases last with
    | negInf => obtain ⟨_, h⟩ := he; cases h
    | posInf => obtain ⟨_, h⟩ := he; cases h
    | finite q hq =>
      cases u with
      | negInf => exact absurd (le_antisymm hu (Value.negInf_le _)) nofun
      | posInf => exact absurd (le_antisymm (huv.trans hv) (Value.le_posInf _)) nofun
      | finite a ha =>
        cases v with
        | negInf => exact absurd (le_antisymm huv (Value.negInf_le _)) nofun
        | posInf => exact absurd (le_antisymm hv (Value.le_posInf _)) nofun
        | finite b hb =>
          have hpa := Value.finite_le_finite.mp hu
          have hab := Value.finite_le_finite.mp huv
          have hbq := Value.finite_le_finite.mp hv
          have hround : |binary32.round (q - p)| < 2 ^ binary32.maxExponent := by
            by_contra hlarge
            have hover : (.value (.finite q hq) - .value (.finite p hp) : CFloat) =
                .value (if 0 < q - p then .posInf else .negInf) :=
              congrArg Number.value (dif_neg hlarge)
            obtain ⟨_, hvalue⟩ := he
            rw [hover] at hvalue
            split_ifs at hvalue <;> cases hvalue
          refine ⟨_, Number.is_ofRat (F := binary32) (q := b - a) ?_⟩
          rw [abs_of_nonneg (round_nonneg (sub_nonneg.mpr hab))]
          refine lt_of_le_of_lt (round_mono _ ?_) ((le_abs_self _).trans_lt hround)
          linarith

theorem admits_iff (h : Prepared x unique weights first last) :
    Admits x.length first last resolution ↔
      20 ≤ x.length ∧ 2 ≤ x.toFinset.card ∧ 2 ≤ resolution ∧ FiniteExtent x := by
  rw [Admits, head_lt_last_iff h.increasing h.head h.last, h.length_eq_card]
  refine and_congr_right fun _ => and_congr_right fun _ => and_congr_right fun _ => ?_
  exact ⟨fun hfinite u hu v hv huv =>
      isFinite_between hfinite (h.first_le u hu) huv (h.le_last v hv),
    fun hfinite => hfinite first h.first_mem last h.last_mem (h.first_le last h.last_mem)⟩

theorem ne_of_wide {u v : Single} {resolution : ℤ} (hres : 1 ≤ resolution)
    (hint : resolution < 2 ^ 31) (hfinite : (.value last - .value first : CFloat).IsFinite)
    (hle : first ≤ last) (hnan : (.value v - .value u : CFloat) ≠ .nan)
    (hwide : ¬ (.value v - .value u : CFloat) ≤
      resolutionStep (.value last - .value first) (some resolution)) : u ≠ v := by
  rintro rfl
  obtain ⟨e, he⟩ := hfinite
  have hself := extent_of_le (le_refl u)
  have hextent := extent_of_le hle
  generalize (.value u - .value u : CFloat) = width at hself hnan hwide
  generalize (.value last - .value first : CFloat) = extent at he hextent hwide
  cases hself with
  | nan _ => exact hnan rfl
  | infinite hlt => exact lt_irrefl u hlt
  | @finite _ q hq _ hzero =>
    obtain rfl : q = 0 := hzero.mpr rfl
    have he₀ : 0 ≤ e := by
      cases hextent with
      | nan _ => obtain ⟨_, h⟩ := he; cases h
      | infinite _ => obtain ⟨_, h⟩ := he; cases h
      | finite he' he₀ _ =>
        obtain ⟨_, rfl⟩ := he
        obtain ⟨_, h⟩ := he'
        injection h with h
        injection h with h
        exact h ▸ he₀
    obtain ⟨d, hd, hd₀, -⟩ := resolutionStep_finite he he₀ hres hint
    exact hwide ((hq.le_iff hd).mpr hd₀)

theorem optimalChangePoints_prepared (h : Prepared x unique weights first last)
    (hres : 1 ≤ resolution) (hint : resolution < 2 ^ 31) {edges : List CFloat}
    (hlength : edges.length = unique.length + 1) (hfirst : elem edges 1 = some (.value first))
    (hlast : elem edges (unique.length + 1) = some (.value last)) :
    ∃ rest : List Single, optimalChangePoints L unique weights edges
        (resolutionStep (.value last - .value first) (some resolution)) =
          some (rest.map .value ++ [.value last]) ∧
      (Admits x.length first last resolution → ∃ u ∈ rest, u ≠ last) ∧
      (¬ Admits x.length first last resolution → rest = []) := by
  have hpos := List.length_pos_iff.mpr h.ne_nil
  have hle : first ≤ last := h.first_le last h.last_mem
  have hone : first = last → unique.length = 1 := by
    intro heq
    have hlt := head_lt_last_iff h.increasing h.head h.last
    have hnot : ¬ 2 ≤ unique.length := fun htwo => (hlt.mpr htwo).ne heq
    omega
  obtain ⟨wh, best, fitMax, i, rest, hwh, hwhLength, hloop, hbest, hpoints, hvalues, hnone, hsome⟩ :=
    optimalChangePoints_spec L (resolutionStep (.value last - .value first) (some resolution))
      h.ne_nil h.length_eq hlength hlast
  obtain ⟨wh', hwh', -, hzero, htotal⟩ := countBetweenEdges_spec 1 (T := Counted 52)
    (fun c m w n hc hw => Counted.add (k := 26) hc hw (by decide) (by decide))
    (counted_zero 52) unique (by omega : 2 ≤ edges.length) h.length_eq h.total
  obtain rfl : wh = wh' := Option.some.inj (hwh.symm.trans hwh')
  have hadmits := lastRound_iff hres hint hle hone hpos hwhLength hlength hbest
    (hzero 1 le_rfl le_rfl) htotal hfirst hlast hloop
  obtain ⟨values, rfl⟩ := exists_values hvalues
  refine ⟨values.reverse, by rw [hpoints, List.map_reverse], fun hadmit => ?_, fun hnot => ?_⟩
  · obtain ⟨u, hu, hwide, hnan⟩ := hsome (hadmits.mpr hadmit)
    refine ⟨u, ?_, ne_of_wide hres hint hadmit.2.2.2 hle hnan hwide⟩
    obtain ⟨v, hv, heq⟩ := List.mem_map.mp hu
    injection heq with heq
    exact List.mem_reverse.mpr (heq ▸ hv)
  · have hzero : i = 0 := not_not.mp fun hne => hnot (hadmits.mp hne)
    rw [List.map_eq_nil_iff.mp (hnone hzero), List.reverse_nil]

theorem buildBlocks_isSome_iff (changePoints : List CFloat) (hne : unique ≠ [])
    (hlen : unique.length = weights.length) :
    (buildBlocks unique changePoints weights).isSome ↔ 2 ≤ changePoints.length := by
  constructor
  · intro hsome
    by_contra hshort
    rw [buildBlocks, countBetweenEdges_eq_none 0 hne (by omega)] at hsome
    cases hsome
  · intro htwo
    obtain ⟨counts, hcounts, -⟩ := countBetweenEdges_spec 0 (R := fun _ _ => True)
      (T := fun _ _ => True) (fun _ _ _ _ _ _ => trivial) trivial unique htwo hlen
      (total_any weights)
    rw [buildBlocks, hcounts]
    rfl

theorem fastChangePoints_eq (L : Logarithm) (hne : x ≠ []) (hres : 1 ≤ resolution)
    (hint : resolution < 2 ^ 31) :
    ∃ sorted unique weights first last, ∃ rest : List Single,
      Prepared x unique weights first last ∧
      fastChangePoints L x (some resolution) =
        some (sorted, unique, rest.map .value ++ [.value last], weights) ∧
      (Admits x.length first last resolution → ∃ u ∈ rest, u ≠ last) ∧
      (¬ Admits x.length first last resolution → rest = []) := by
  obtain ⟨sorted, hsort, hperm, hsorted⟩ := (quicksort_sorts x.length 1 x.length le_rfl
    (List.length_pos_iff.mpr hne) le_rfl).whole x rfl
  obtain ⟨unique, weights, first, last, hrun, h⟩ := exists_prepared hne hperm hsorted
  obtain ⟨edges, hedges, hlength, hone, hend⟩ := cellEdges_spec h.head h.last
  obtain ⟨rest, hpoints, hadmit, hnot⟩ := optimalChangePoints_prepared (L := L) h hres hint hlength
    hone hend
  refine ⟨sorted, unique, weights, first, last, rest, h, ?_, hadmit, hnot⟩
  simp only [fastChangePoints, partition, hsort, hrun, hedges, (elem_length unique).trans h.last,
    (elem_one unique).trans h.head, hpoints, Option.bind_eq_bind, Option.bind_some]

theorem ordered_map (values : List Single) : ordered (values.map .value) = some values := by
  induction values with
  | nil => rfl
  | cons v values ih =>
    rw [ordered] at ih
    rw [ordered, List.map_cons, List.mapM_cons, ih]
    rfl

theorem merged_length {points : List Single} (hlast : last ∈ points) :
    ∃ edges : List Single, mergeChangePoints points = some edges ∧
      ((∃ u ∈ points, u ≠ last) → 2 ≤ edges.length) ∧ (points = [last] → edges = [last]) := by
  obtain ⟨edges, hedges, -, hmem⟩ := mergeChangePoints_spec (List.ne_nil_of_mem hlast)
  refine ⟨edges, hedges, ?_, ?_⟩
  · rintro ⟨u, hu, hne⟩
    have hu' := (hmem u).mpr hu
    have hlast' := (hmem last).mpr hlast
    match edges, hu', hlast' with
    | [c], hu', hlast' =>
      exact absurd ((List.mem_singleton.mp hu').trans (List.mem_singleton.mp hlast').symm) hne
    | _ :: _ :: _, _, _ => exact Nat.le_add_left 2 _
  · rintro rfl
    exact Option.some.inj (hedges.symm.trans (mergeChangePoints_singleton last))

theorem one_le_leftLeafSize {n : ℕ} (hn : 1 ≤ n) : 1 ≤ leftLeafSize n := by
  rcases hn.eq_or_lt with rfl | htwo
  · exact (leftLeafSize_of_le (by decide)).ge
  · exact one_le_two.trans (leftLeafSize_two_le htwo)

theorem parallelChangePoints_eq (L : Logarithm) (schedule : Schedule) (hne : x ≠ [])
    (hres : 1 ≤ resolution) (hint : resolution < 2 ^ 31) :
    ∃ sorted unique weights weights' first last, ∃ edges : List Single,
      Prepared x unique weights first last ∧ unique.length = weights'.length ∧
      parallelChangePoints L schedule x (some resolution) =
        some (sorted, unique, edges.map .value, weights') ∧
      (2 ≤ edges.length ↔
        WORKSIZE < unique.length ∨ Admits x.length first last resolution) := by
  obtain ⟨sorted, hsort, hperm, hsorted⟩ := (quicksortOmp_sorts schedule.sorting x.length 1
    x.length le_rfl (List.length_pos_iff.mpr hne) le_rfl).whole x rfl
  obtain ⟨unique, weights, first, last, hrun, h⟩ := exists_prepared hne hperm hsorted
  have hpos := List.length_pos_iff.mpr h.ne_nil
  have hends : elem unique unique.length = some last ∧ elem unique 1 = some first :=
    ⟨(elem_length unique).trans h.last, (elem_one unique).trans h.head⟩
  rcases Nat.lt_or_ge WORKSIZE unique.length with hlarge | hsmall
  · obtain ⟨leafEnd, hleaf⟩ := exists_elem (a := unique) (one_le_leftLeafSize hpos)
      (leftLeafSize_le _)
    obtain ⟨points, weights', hdivide, hlength, hlast, hleafEnd⟩ := divideBayesianBinning_spec L
      schedule.binning (resolutionStep (.value last - .value first) (some resolution)) [] unique
      weights h.length_eq h.last hleaf
    obtain ⟨edges, hedges, htwo, -⟩ := merged_length hlast
    -- the first leaf ends before the last value
    have hlt : leafEnd < last :=
      pairwise_iff_elem.mp h.increasing _ _ leafEnd last (leftLeafSize_lt hlarge) hleaf hends.1
    refine ⟨sorted, unique, weights, weights', first, last, edges, h,
      h.length_eq.trans hlength.symm, ?_,
      iff_of_true (htwo ⟨leafEnd, hleafEnd, hlt.ne⟩) (.inl hlarge)⟩
    simp only [parallelChangePoints, hsort, hrun, hends, hdivide, ordered_map, hedges,
      Option.bind_eq_bind, Option.bind_some]
  · obtain ⟨cells, hcells, hlength, hone, hend⟩ := cellEdges_spec h.head h.last
    obtain ⟨rest, hpoints, hadmit, hnot⟩ := optimalChangePoints_prepared (L := L) h hres hint
      hlength hone hend
    obtain ⟨edges, hedges, htwo, hsingle⟩ := merged_length (by simp : last ∈ rest ++ [last])
    have hdivide : divideBayesianBinning L schedule.binning
        (resolutionStep (.value last - .value first) (some resolution)) [] unique weights =
          some ((rest ++ [last]).map .value, weights) := by
      rw [divideBayesianBinning, dif_neg (not_lt.mpr hsmall)]
      simp only [conquerBayesianBinning, hcells, hpoints, Option.bind_eq_bind, Option.bind_some,
        List.map_append, List.map_cons, List.map_nil]
    refine ⟨sorted, unique, weights, weights, first, last, edges, h, h.length_eq, ?_, ?_⟩
    · simp only [parallelChangePoints, hsort, hrun, hends, hdivide, ordered_map, hedges,
        Option.bind_eq_bind, Option.bind_some]
    · rw [or_iff_right (not_lt.mpr hsmall)]
      constructor
      · intro hlen
        by_contra hno
        rw [hsingle (by rw [hnot hno, List.nil_append]), List.length_singleton] at hlen
        exact absurd hlen (by decide)
      · intro hyes
        obtain ⟨u, hu, hne⟩ := hadmit hyes
        exact htwo ⟨u, List.mem_append_left _ hu, hne⟩

theorem parallelBayesianBinning_isSome_iff (L : Logarithm) (schedule : Schedule) (hne : x ≠ [])
    (hres : 1 ≤ resolution) (hint : resolution < 2 ^ 31) :
    (parallelBayesianBinning L schedule x (some resolution)).isSome ↔
      WORKSIZE < x.toFinset.card ∨
        20 ≤ x.length ∧ 2 ≤ x.toFinset.card ∧ 2 ≤ resolution ∧ FiniteExtent x := by
  obtain ⟨sorted, unique, weights, weights', first, last, edges, h, hlen, hpoints, htwo⟩ :=
    parallelChangePoints_eq L schedule hne hres hint
  have hblocks := buildBlocks_isSome_iff (edges.map .value) h.ne_nil hlen
  rw [List.length_map, htwo, admits_iff h, h.length_eq_card] at hblocks
  rw [parallelBayesianBinning, if_neg (by simpa using hne), hpoints, ← hblocks]
  simp only [Option.bind_eq_bind, Option.bind_some]
  cases buildBlocks unique (edges.map .value) weights' <;> rfl

theorem fastBayesianBinning_isSome_iff (L : Logarithm) (hne : x ≠ []) (hres : 1 ≤ resolution)
    (hint : resolution < 2 ^ 31) :
    (fastBayesianBinning L x (some resolution)).isSome ↔
      20 ≤ x.length ∧ 2 ≤ x.toFinset.card ∧ 2 ≤ resolution ∧ FiniteExtent x := by
  obtain ⟨sorted, unique, weights, first, last, rest, h, hpoints, hadmit, hnot⟩ :=
    fastChangePoints_eq L hne hres hint
  have hblocks := buildBlocks_isSome_iff (rest.map .value ++ [.value last]) h.ne_nil h.length_eq
  have htwo : 2 ≤ (rest.map .value ++ [.value last] : List CFloat).length ↔
      Admits x.length first last resolution := by
    rw [List.length_append, List.length_map, List.length_singleton]
    constructor
    · intro hlen
      by_contra hno
      rw [hnot hno, List.length_nil] at hlen
      omega
    · intro hyes
      obtain ⟨u, hu, -⟩ := hadmit hyes
      have hpos := List.length_pos_of_mem hu
      omega
  rw [htwo, admits_iff h] at hblocks
  rw [fastBayesianBinning, if_neg (by simpa using hne), hpoints, ← hblocks]
  simp only [Option.bind_eq_bind, Option.bind_some]
  cases buildBlocks unique (rest.map .value ++ [.value last]) weights <;> rfl

/-- Every array access up to `build_blocks` is in bounds. Those of `build_blocks` are in bounds
exactly when there are two change points: a range that admits no block keeps only its last edge,
and `count_between_edges` then counts into an array of size zero. The resolution is a `c_int`. -/
theorem bayesianBinning_inBounds_iff (L : Logarithm) (schedule : Schedule) (x : List Single)
    (resolution : ℤ) (hne : x ≠ []) (hres : 1 ≤ resolution) (hint : resolution < 2 ^ 31) :
    (parallelChangePoints L schedule x (some resolution)).isSome ∧
      (fastChangePoints L x (some resolution)).isSome ∧
      ((parallelBayesianBinning L schedule x (some resolution)).isSome ↔
        WORKSIZE < x.toFinset.card ∨
          20 ≤ x.length ∧ 2 ≤ x.toFinset.card ∧ 2 ≤ resolution ∧ FiniteExtent x) ∧
      ((fastBayesianBinning L x (some resolution)).isSome ↔
        20 ≤ x.length ∧ 2 ≤ x.toFinset.card ∧ 2 ≤ resolution ∧ FiniteExtent x) := by
  refine ⟨?_, ?_, parallelBayesianBinning_isSome_iff L schedule hne hres hint,
    fastBayesianBinning_isSome_iff L hne hres hint⟩
  · obtain ⟨_, _, _, _, _, _, _, -, -, hpoints, -⟩ :=
      parallelChangePoints_eq L schedule hne hres hint
    rw [hpoints]
    rfl
  · obtain ⟨_, _, _, _, _, _, -, hpoints, -⟩ := fastChangePoints_eq L hne hres hint
    rw [hpoints]
    rfl

theorem abs_log_le {q : ℚ} (hq : binary32.IsFinite q) (hpos : 0 < q) : |Real.log q| ≤ 127 := by
  have hleast : (2 : ℚ) ^ (-149 : ℤ) ≤ |q| := (isFloat_onGrid hq.1).zpow_le_abs hpos.ne'
  have hgreatest : |q| ≤ 2 ^ (128 : ℤ) := hq.2.le
  rw [abs_of_pos hpos] at hleast hgreatest
  have hlow : (2 : ℝ) ^ (-149 : ℤ) ≤ q := by
    rw [← Rat.cast_ofNat (α := ℝ) 2, ← Rat.cast_zpow]
    exact Rat.cast_le.mpr hleast
  have hhigh : (q : ℝ) ≤ 2 ^ (128 : ℤ) := by
    rw [← Rat.cast_ofNat (α := ℝ) 2, ← Rat.cast_zpow]
    exact Rat.cast_le.mpr hgreatest
  have hlogLow := Real.log_le_log (zpow_pos two_pos _) hlow
  have hlogHigh := Real.log_le_log (by exact_mod_cast hpos) hhigh
  rw [Real.log_zpow] at hlogLow hlogHigh
  push_cast at hlogLow hlogHigh
  have htwo := Real.log_two_lt_d9
  rw [abs_le]
  constructor <;> linarith

/-- A real number, cut off after 40 binary places. -/
noncomputable def cutOff (r : ℝ) : ℚ := ⌊r * Nat.cast (2 ^ 40)⌋ / 2 ^ 40

theorem abs_cutOff_log_le (q : ℚ) (hq : binary32.IsFinite q) (hpos : 0 < q) :
    |cutOff (Real.log q)| ≤ 2 ^ (7 : ℤ) := by
  rw [cutOff, Nat.cast_pow, Nat.cast_ofNat]
  have hlog := abs_le.mp (abs_log_le hq hpos)
  have hlow := Int.lt_floor_add_one (Real.log q * 2 ^ 40)
  have hhigh := Int.floor_le (Real.log q * 2 ^ 40)
  generalize ⌊Real.log q * 2 ^ 40⌋ = n at hlow hhigh
  rw [abs_le, le_div_iff₀ (by norm_num), div_le_iff₀ (by norm_num)]
  have hn : (-2 ^ 47 : ℝ) < n + 1 ∧ (n : ℝ) ≤ 2 ^ 47 := by
    constructor <;> linarith
  constructor
  · have h : -2 ^ 47 < n + 1 := by exact_mod_cast hn.1
    have h' : ((-2 ^ 47 : ℤ) : ℚ) ≤ n := Int.cast_le.mpr (Int.lt_add_one_iff.mp h)
    norm_num at h' ⊢
    exact h'
  · have h : ((n : ℤ) : ℚ) ≤ 2 ^ 47 := by exact_mod_cast hn.2
    norm_num at h ⊢
    exact h

noncomputable def naturalLog : Logarithm := ⟨fun q => cutOff (Real.log q), abs_cutOff_log_le⟩

def event (q : ℚ) : Single := .ofRat binary32 q

def twoValues (p q : ℚ) : List Single := List.replicate 10 (event p) ++ List.replicate 10 (event q)

theorem mem_twoValues {p q : ℚ} {v : Single} : v ∈ twoValues p q ↔ v = event p ∨ v = event q := by
  simp [twoValues]

theorem card_twoValues {p q : ℚ} (hne : event p ≠ event q) :
    (twoValues p q).toFinset.card = 2 := by
  have hset : (twoValues p q).toFinset = {event p, event q} := by
    ext v
    rw [List.mem_toFinset, mem_twoValues, Finset.mem_insert, Finset.mem_singleton]
  rw [hset, Finset.card_pair hne]

theorem finiteExtent_zero_one : FiniteExtent (twoValues 0 1) := by
  have hdifference : ∀ {u v : Single} {a b : ℚ}, Number.Is (.value u) a → Number.Is (.value v) b →
      |b - a| ≤ 2 ^ (1 : ℤ) → (.value v - .value u : CFloat).IsFinite := by
    intro u v a b hu hv hle
    rw [hv.sub hu]
    exact ⟨_, Number.is_ofRat_of_le (by decide) (by decide) hle⟩
  intro u hu v hv _
  rcases mem_twoValues.mp hu with rfl | rfl <;> rcases mem_twoValues.mp hv with rfl | rfl
  · exact hdifference real_zero real_zero (by norm_num)
  · exact hdifference real_zero real_one (by norm_num)
  · exact hdifference real_one real_zero (by norm_num)
  · exact hdifference real_one real_one (by norm_num)

theorem bayesianBinning_inBounds_two_values :
    (parallelBayesianBinning naturalLog .inOrder (twoValues 0 1) (some 2)).isSome ∧
      (fastBayesianBinning naturalLog (twoValues 0 1) (some 2)).isSome := by
  obtain ⟨_, _, hparallel, hfast⟩ := bayesianBinning_inBounds_iff naturalLog .inOrder
    (twoValues 0 1) 2 (by simp [twoValues]) (by decide) (by decide)
  have hlt : event 0 < event 1 := (real_zero.lt_iff real_one).mpr zero_lt_one
  have hadmitted : 20 ≤ (twoValues 0 1).length ∧ 2 ≤ (twoValues 0 1).toFinset.card ∧
      (2 : ℤ) ≤ 2 ∧ FiniteExtent (twoValues 0 1) :=
    ⟨by simp [twoValues], (card_twoValues hlt.ne).ge, le_rfl, finiteExtent_zero_one⟩
  exact ⟨hparallel.mpr (.inr hadmitted), hfast.mpr hadmitted⟩

theorem not_finiteExtent_large : ¬ FiniteExtent (twoValues (-3 * 10 ^ 38) (3 * 10 ^ 38)) := by
  have hlow : Number.Is (.value (event (-3 * 10 ^ 38))) (binary32.round (-3 * 10 ^ 38)) :=
    Number.is_ofRat (by decide +kernel)
  have hhigh : Number.Is (.value (event (3 * 10 ^ 38))) (binary32.round (3 * 10 ^ 38)) :=
    Number.is_ofRat (by decide +kernel)
  have hbelow : binary32.round (-3 * 10 ^ 38) ≤ -2 ^ (127 : ℤ) :=
    round_le_neg_zpow (by decide) (by norm_num)
  have habove : (2 : ℚ) ^ (127 : ℤ) ≤ binary32.round (3 * 10 ^ 38) :=
    zpow_le_round (by decide) (by norm_num)
  have hle : event (-3 * 10 ^ 38) ≤ event (3 * 10 ^ 38) :=
    (hlow.le_iff hhigh).mpr (by linarith [zpow_pos (two_pos : (0 : ℚ) < 2) 127])
  intro hfinite
  obtain ⟨_, _, hvalue⟩ := hfinite _ (mem_twoValues.mpr (.inl rfl)) _ (mem_twoValues.mpr (.inr rfl))
    hle
  rw [hhigh.sub hlow, Number.ofRat_of_le (by decide)] at hvalue
  · cases hvalue
  · show (2 : ℚ) ^ (128 : ℤ) ≤ _
    norm_num at hbelow habove ⊢
    linarith

/-- A single event leaves the arrays of both functions, and so do events whose extent overflows. -/
theorem bayesianBinning_out_of_bounds :
    (parallelBayesianBinning naturalLog .inOrder [event 1] (some 160) = none ∧
      fastBayesianBinning naturalLog [event 1] (some 160) = none) ∧
      parallelBayesianBinning naturalLog .inOrder (twoValues (-3 * 10 ^ 38) (3 * 10 ^ 38)) (some 2) =
        none ∧
      fastBayesianBinning naturalLog (twoValues (-3 * 10 ^ 38) (3 * 10 ^ 38)) (some 2) = none := by
  have hfew : ∀ x : List Single, x.length ≤ 20 → ¬ WORKSIZE < x.toFinset.card := by
    intro x hx
    exact not_lt.mpr (x.toFinset_card_le.trans (hx.trans (by decide)))
  simp only [← Option.not_isSome_iff_eq_none]
  refine ⟨⟨fun h => ?_, fun h => ?_⟩, fun h => ?_, fun h => ?_⟩
  · rw [parallelBayesianBinning_isSome_iff naturalLog .inOrder (by simp) (by decide) (by decide),
      or_iff_right (hfew _ (by decide))] at h
    exact absurd h.1 (by decide)
  · rw [fastBayesianBinning_isSome_iff naturalLog (by simp) (by decide) (by decide)] at h
    exact absurd h.1 (by decide)
  · rw [parallelBayesianBinning_isSome_iff naturalLog .inOrder (by simp [twoValues]) (by decide)
      (by decide), or_iff_right (hfew _ (by simp [twoValues]))] at h
    exact not_finiteExtent_large h.2.2.2
  · rw [fastBayesianBinning_isSome_iff naturalLog (by simp [twoValues]) (by decide) (by decide)] at h
    exact not_finiteExtent_large h.2.2.2

end Results

end XWebQL.InBounds
