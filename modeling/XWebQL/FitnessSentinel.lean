import XWebQL.BinningAgreement
import XWebQL.SentinelSegmentation
import Mathlib.Analysis.SpecialFunctions.Log.Basic
import Mathlib.Analysis.Complex.ExponentialBounds

/-! The start value `fit_max = -1.0e38 ! -Inf` of the dynamic program.
`fast_bayesian_binning` is run here with its start value as a parameter: `⊥` is
the minus infinity of the comment, and `-1.0e38` the number of the code. On
single precision events the fitness of a block is small against `1.0e38`, and
both runs return the same blocks. -/

namespace XWebQL.FitnessSentinel

open FortranArray Quicksort RunLength CountBetweenEdges ConquerBinning OptimalSegmentation
  BayesianBinning BinningAgreement SentinelSegmentation

variable {K : Type} [Field K] [LinearOrder K]

/-- The loop over `Q = 1, ..., L`; every round starts with `fit_max = start`. -/
def outerLoopFrom (start : WithBot K) (log : K → K) (dt : K) (whInEdge edges : List K) :
    List ℕ → List (WithBot K) → List ℕ → Option (List (WithBot K) × List ℕ)
  | [], best, bestIdx => some (best, bestIdx)
  | q :: qs, best, bestIdx => do
    let (fitMax, iMax) ← innerLoop log dt whInEdge edges best q (List.range' 1 q) (start, 0)
    outerLoopFrom start log dt whInEdge edges qs (best ++ [fitMax]) (bestIdx ++ [iMax])

def optimalChangePointsFrom (start : WithBot K) (log : K → K) (unique weights edges : List K)
    (dt : K) : Option (List K) := do
  let whInEdge ← countBetweenEdges unique edges weights 1
  let whInEdge := cumsum whInEdge
  let L := unique.length
  let (_, bestIdx) ← outerLoopFrom start log dt whInEdge edges (List.range' 1 L) [] []
  let changePoints ← peel edges bestIdx (L + 1) (L + 1)
  some changePoints.reverse

def fastBayesianBinningFrom (start : WithBot K) (log : K → K) (x : List K)
    (resolution : Option ℤ) : Option (List K × BayesHistogram K) :=
  if x.length = 0 then some (x, .empty)
  else do
    let (x, unique, weights, edges) ← partition x
    let last ← elem unique unique.length
    let first ← elem unique 1
    let dt := resolutionStep (last - first) resolution
    let changePoints ← optimalChangePointsFrom start log unique weights edges dt
    let blocks ← buildBlocks unique changePoints weights
    some (x, blocks)

theorem outerLoopFrom_bot (log : K → K) (dt : K) (whInEdge edges : List K) (qs : List ℕ)
    (best : List (WithBot K)) (bestIdx : List ℕ) :
    outerLoopFrom ⊥ log dt whInEdge edges qs best bestIdx =
      outerLoop log dt whInEdge edges qs best bestIdx := by
  induction qs generalizing best bestIdx with
  | nil => rfl
  | cons q qs ih => simp only [outerLoopFrom, outerLoop, ih]

theorem optimalChangePointsFrom_bot (log : K → K) (unique weights edges : List K) (dt : K) :
    optimalChangePointsFrom ⊥ log unique weights edges dt =
      optimalChangePoints log unique weights edges dt := by
  simp only [optimalChangePointsFrom, optimalChangePoints, outerLoopFrom_bot]

def ScoreBound (log : K → K) (weights edges : List K) (dt bound : K) : Prop :=
  ∀ i q, 1 ≤ i → i ≤ q → q ≤ weights.length → Wide weights edges dt i (q + 1) →
    |blockFitness log weights edges i (q + 1)| ≤ bound * blockWeight weights i (q + 1)

/-- `bestBlock` of a round that starts with `fit_max = start`. -/
def bestBlockFrom (start : WithBot K) (log : K → K) (weights edges : List K) (dt : K)
    (best : List (WithBot K)) (q : ℕ) : WithBot K × ℕ :=
  scanBest (fun i => Wide weights edges dt i (q + 1)) (candidate log weights edges best q)
    (List.range' 1 q) (start, 0)

/-- The arrays of the two runs after `n` rounds. -/
structure ShadowTables (sentinel : K) (slack : ℕ → K) (n : ℕ) (best best' : List (WithBot K))
    (bestIdx bestIdx' : List ℕ) : Prop where
  length_best : best.length = n
  length_best' : best'.length = n
  length_idx : bestIdx.length = n
  length_idx' : bestIdx'.length = n
  shadow : ∀ j, 1 ≤ j → j ≤ n + 1 →
    Shadow sentinel (slack j) (bestAt best j) (bestAt best' j)
  agree : ∀ j, 1 < j → j ≤ n + 1 → bestAt best j ≠ ⊥ → predAt bestIdx' j = predAt bestIdx j
  back : ∀ j, 1 < j → j ≤ n + 1 → predAt bestIdx' j < j

section Append

omit [LinearOrder K] in
theorem bestAt_append_last {best : List (WithBot K)} (m : WithBot K) {n : ℕ}
    (hlen : best.length = n) : bestAt (best ++ [m]) (n + 2) = m := by
  have hlast := elem_append_right (a := best) (b := [m]) (i := 1) le_rfl
  rw [hlen] at hlast
  rw [bestAt, if_neg (by omega), show n + 2 - 1 = n + 1 by omega, hlast]
  rfl

omit [LinearOrder K] in
theorem bestAt_append {best : List (WithBot K)} (m : WithBot K) {n j : ℕ}
    (hlen : best.length = n) (hj : j ≤ n + 1) : bestAt (best ++ [m]) j = bestAt best j := by
  rw [bestAt, bestAt, elem_append_left (by omega)]

theorem predAt_append_last {bestIdx : List ℕ} (m : ℕ) {n : ℕ} (hlen : bestIdx.length = n) :
    predAt (bestIdx ++ [m]) (n + 2) = m := by
  have hlast := elem_append_right (a := bestIdx) (b := [m]) (i := 1) le_rfl
  rw [hlen] at hlast
  rw [predAt, show n + 2 - 1 = n + 1 by omega, hlast]
  rfl

theorem predAt_append {bestIdx : List ℕ} (m : ℕ) {n j : ℕ} (hlen : bestIdx.length = n)
    (hj : j ≤ n + 1) : predAt (bestIdx ++ [m]) j = predAt bestIdx j := by
  rw [predAt, predAt, elem_append_left (by omega)]

end Append

section Tables

variable {log : K → K} {dt sentinel bound : K} {weights edges : List K}

def slackAt (bound : K) (weights : List K) (j : ℕ) : K := bound * blockWeight weights 1 j

omit [LinearOrder K] in
theorem slackAt_add (bound : K) (weights : List K) {i j : ℕ} (hi : 1 ≤ i) (hij : i ≤ j) :
    slackAt bound weights i + bound * blockWeight weights i j = slackAt bound weights j := by
  rw [slackAt, slackAt, blockWeight_eq weights le_rfl hi, blockWeight_eq weights hi hij,
    blockWeight_eq weights le_rfl (hi.trans hij)]
  ring

theorem slackAt_le [IsStrictOrderedRing K] (hbound : 0 ≤ bound) (hpos : ∀ w ∈ weights, 0 ≤ w)
    (j : ℕ) : slackAt bound weights j ≤ bound * weights.sum := by
  refine mul_le_mul_of_nonneg_left ?_ hbound
  exact (List.take_sublist _ _).sum_le_sum fun w hw => hpos w hw

variable (log dt weights edges) in
theorem bestBlockFrom_back (start : WithBot K) (best : List (WithBot K)) (q : ℕ) :
    (bestBlockFrom start log weights edges dt best q).2 ≤ q := by
  obtain heq | ⟨i, hi, _, heq, _⟩ := scanBest_attained
    (fun i => Wide weights edges dt i (q + 1)) (candidate log weights edges best q)
    (List.range' 1 q) (start, 0)
  · rw [bestBlockFrom, heq]
    exact Nat.zero_le q
  · have hik := List.mem_range'_1.mp hi
    rw [bestBlockFrom, heq]
    show i ≤ q
    omega

variable [IsStrictOrderedRing K]

theorem candidate_shadow (scores : ScoreBound log weights edges dt bound) {n : ℕ}
    {best best' : List (WithBot K)} {bestIdx bestIdx' : List ℕ}
    (h : ShadowTables sentinel (slackAt bound weights) n best best' bestIdx bestIdx')
    (hn : n + 1 ≤ weights.length) {i : ℕ} (hi : 1 ≤ i) (hin : i ≤ n + 1)
    (hok : Wide weights edges dt i (n + 1 + 1)) :
    Shadow sentinel (slackAt bound weights (n + 2)) (candidate log weights edges best (n + 1) i)
      (candidate log weights edges best' (n + 1) i) := by
  have hadd := (h.shadow i hi hin).add (scores i (n + 1) hi hin hn hok)
  rwa [slackAt_add bound weights hi (by omega)] at hadd

theorem ShadowTables.round (scores : ScoreBound log weights edges dt bound)
    (far : ∀ j, sentinel + slackAt bound weights j < -slackAt bound weights j)
    (hslack : ∀ j, 0 ≤ slackAt bound weights j) {n : ℕ}
    {best best' : List (WithBot K)} {bestIdx bestIdx' : List ℕ}
    (h : ShadowTables sentinel (slackAt bound weights) n best best' bestIdx bestIdx')
    (hn : n + 1 ≤ weights.length) :
    ShadowTables sentinel (slackAt bound weights) (n + 1)
      (best ++ [(bestBlockFrom ⊥ log weights edges dt best (n + 1)).1])
      (best' ++ [(bestBlockFrom sentinel log weights edges dt best' (n + 1)).1])
      (bestIdx ++ [(bestBlockFrom ⊥ log weights edges dt best (n + 1)).2])
      (bestIdx' ++ [(bestBlockFrom sentinel log weights edges dt best' (n + 1)).2]) := by
  have hstart : ShadowScan sentinel (slackAt bound weights (n + 2)) ((⊥, 0) : WithBot K × ℕ)
      (sentinel, 0) :=
    ⟨.unreached _ (WithBot.coe_le_coe.mpr (by linarith [hslack (n + 2)])), fun _ => rfl⟩
  have hscan : ShadowScan sentinel (slackAt bound weights (n + 2))
      (bestBlockFrom ⊥ log weights edges dt best (n + 1))
      (bestBlockFrom sentinel log weights edges dt best' (n + 1)) := by
    refine scanBest_shadow (far (n + 2)) _ (List.range' 1 (n + 1)) (fun i hi hok => ?_) hstart
    have hik := List.mem_range'_1.mp hi
    exact candidate_shadow scores h hn hik.1 (by omega) hok
  have hback := bestBlockFrom_back log dt weights edges sentinel best' (n + 1)
  refine ⟨by simp [h.length_best], by simp [h.length_best'], by simp [h.length_idx],
    by simp [h.length_idx'], fun j h₁ h₂ => ?_, fun j h₁ h₂ => ?_, fun j h₁ h₂ => ?_⟩
  · obtain rfl | hlt := h₂.eq_or_lt
    · rw [bestAt_append_last _ h.length_best, bestAt_append_last _ h.length_best']
      exact hscan.1
    · rw [bestAt_append _ h.length_best (by omega), bestAt_append _ h.length_best' (by omega)]
      exact h.shadow j h₁ (by omega)
  · obtain rfl | hlt := h₂.eq_or_lt
    · rw [bestAt_append_last _ h.length_best, predAt_append_last _ h.length_idx,
        predAt_append_last _ h.length_idx']
      exact hscan.2
    · rw [bestAt_append _ h.length_best (by omega), predAt_append _ h.length_idx (by omega),
        predAt_append _ h.length_idx' (by omega)]
      exact h.agree j h₁ (by omega)
  · obtain rfl | hlt := h₂.eq_or_lt
    · rw [predAt_append_last _ h.length_idx']
      omega
    · rw [predAt_append _ h.length_idx' (by omega)]
      exact h.back j h₁ (by omega)

/-- The loop over `Q` keeps the tables of the two runs together. -/
theorem outerLoopFrom_shadow (hedges : edges.length = weights.length + 1)
    (scores : ScoreBound log weights edges dt bound)
    (far : ∀ j, sentinel + slackAt bound weights j < -slackAt bound weights j)
    (hslack : ∀ j, 0 ≤ slackAt bound weights j) (rounds n : ℕ)
    {best best' : List (WithBot K)} {bestIdx bestIdx' : List ℕ}
    (hn : n + rounds ≤ weights.length)
    (h : ShadowTables sentinel (slackAt bound weights) n best best' bestIdx bestIdx') :
    ∃ bestL bestL' bestIdxL bestIdxL',
      outerLoopFrom ⊥ log dt (cumsum (0 :: weights)) edges (List.range' (n + 1) rounds) best
        bestIdx = some (bestL, bestIdxL) ∧
      outerLoopFrom sentinel log dt (cumsum (0 :: weights)) edges (List.range' (n + 1) rounds)
        best' bestIdx' = some (bestL', bestIdxL') ∧
      ShadowTables sentinel (slackAt bound weights) (n + rounds) bestL bestL' bestIdxL
        bestIdxL' := by
  induction rounds generalizing n best best' bestIdx bestIdx' with
  | zero => exact ⟨best, best', bestIdx, bestIdx', rfl, rfl, h⟩
  | succ rounds ih =>
    have inner : ∀ (start : WithBot K) (best : List (WithBot K)), best.length = n →
        innerLoop log dt (cumsum (0 :: weights)) edges best (n + 1) (List.range' 1 (n + 1))
          (start, 0) = some (bestBlockFrom start log weights edges dt best (n + 1)) :=
      fun start best hlen => innerLoop_eq best (n + 1) (List.range' 1 (n + 1)) (start, 0) hedges
        (by omega) (by omega) (fun i hi => by have := List.mem_range'_1.mp hi; omega)
    obtain ⟨bestL, bestL', bestIdxL, bestIdxL', hexact, hsentinel, htables⟩ :=
      ih (n + 1) (by omega) (h.round scores far hslack (by omega))
    refine ⟨bestL, bestL', bestIdxL, bestIdxL', ?_, ?_,
      by rwa [show n + (rounds + 1) = n + 1 + rounds by omega]⟩
    · rw [List.range'_succ, outerLoopFrom, inner ⊥ best h.length_best]
      exact hexact
    · rw [List.range'_succ, outerLoopFrom, inner sentinel best' h.length_best']
      exact hsentinel

/-- On an admissible range the back pointers of the two runs lead along the same
path from the last edge to the first. -/
theorem optimalChangePointsFrom_eq {unique : List K} (hcells : CellEdges unique edges)
    (inc : unique.Pairwise (· < ·)) (hne : unique ≠ []) (hlen : unique.length = weights.length)
    (hpos : ∀ w ∈ weights, 0 < w) (hwide : Wide weights edges dt 1 (unique.length + 1))
    (scores : ScoreBound log weights edges dt bound) (hbound : 0 ≤ bound)
    (far : sentinel + bound * weights.sum < -(bound * weights.sum)) :
    optimalChangePointsFrom sentinel log unique weights edges dt =
      optimalChangePoints log unique weights edges dt := by
  have hedges : edges.length = weights.length + 1 := by rw [hcells.length, hlen]
  have hnonneg : ∀ w ∈ weights, 0 ≤ w := fun w hw => (hpos w hw).le
  have hslack : ∀ j, 0 ≤ slackAt bound weights j := fun j =>
    mul_nonneg hbound (List.sum_nonneg fun w hw =>
      hnonneg w (List.mem_of_mem_drop (List.mem_of_mem_take hw)))
  have hfar : ∀ j, sentinel + slackAt bound weights j < -slackAt bound weights j := fun j => by
    linarith [slackAt_le hbound hnonneg j]
  have start : ShadowTables sentinel (slackAt bound weights) 0 [] [] [] [] := by
    refine ⟨rfl, rfl, rfl, rfl, fun j h₁ h₂ => ?_, fun j h₁ h₂ => absurd h₁ (by omega),
      fun j h₁ h₂ => absurd h₁ (by omega)⟩
    obtain rfl : j = 1 := by omega
    exact .reached 0 (by linarith [hslack 1])
  obtain ⟨best, bestIdx, hloop, hsolved⟩ := outerLoop_solves log dt hedges
  obtain ⟨best₁, best', bestIdx₁, bestIdx', hexact, hsentinel, htables⟩ :=
    outerLoopFrom_shadow hedges scores hfar hslack weights.length 0 (by omega) start
  rw [Nat.zero_add] at hexact hsentinel htables
  rw [outerLoopFrom_bot, hloop] at hexact
  obtain ⟨rfl, rfl⟩ : best = best₁ ∧ bestIdx = bestIdx₁ := by simpa using hexact
  have htable := hsolved.bellman hedges hnonneg (CellEdges.sorted hcells inc hne)
  have increasing : ∀ i j, Admissible weights edges dt i j → i < j := fun i j hok => hok.2.1
  rw [hlen] at hwide
  have hwhole : Admissible weights edges dt 1 (weights.length + 1) :=
    ⟨le_rfl, by have := List.length_pos_iff.mpr hne; omega, hedges.ge, hwide⟩
  obtain ⟨cuts, htrace, _⟩ := hsolved.exists_backtrace hedges hnonneg
    (CellEdges.sorted hcells inc hne) hwhole
  have hreached := htable.reached_of_ok le_rfl hwhole
  have htrace' := Backtrace.congr_reached htable increasing htables.agree htrace le_rfl hreached
  have hpeel := peel_backtrace hedges hsolved.length_idx
    (fun j hj hjn => hsolved.predAt_lt hj hjn) htrace le_rfl (weights.length + 1) le_rfl
  have hpeel' := peel_backtrace hedges htables.length_idx' htables.back htrace' le_rfl
    (weights.length + 1) le_rfl
  simp only [optimalChangePointsFrom, optimalChangePoints,
    CellEdges.weights_in_cells hcells inc hne hlen, Option.bind_eq_bind, Option.bind_some, hlen,
    hloop, hsentinel, hpeel, hpeel']

end Tables

def FiniteSingle (v : ℝ) : Prop :=
  ∃ m e : ℤ, |m| < 2 ^ 24 ∧ -149 ≤ e ∧ e ≤ 104 ∧ v = m * ((2 : ℕ) : ℝ) ^ e

/-- `real(kind=c_float), intent(inout) :: x(n)` with a 64-bit `n`. -/
structure SingleArray where
  values : List ℝ
  single : ∀ v ∈ values, FiniteSingle v
  length_lt : values.length < 2 ^ 63

/-- `fit_max = -1.0e38` -/
def fitMaxStart : WithBot ℝ := ((-10 ^ 38 : ℝ) : WithBot ℝ)

section Single

theorem FiniteSingle.abs_lt {v : ℝ} (h : FiniteSingle v) : |v| < 2 ^ 128 := by
  obtain ⟨m, e, hm, _, he, rfl⟩ := h
  rw [Nat.cast_ofNat]
  have hm' : |(m : ℝ)| < 2 ^ 24 := by exact_mod_cast hm
  have he' : (2 : ℝ) ^ e ≤ 2 ^ (104 : ℤ) := zpow_le_zpow_right₀ (by norm_num) he
  rw [abs_mul, abs_of_pos (zpow_pos (by norm_num : (0 : ℝ) < 2) e)]
  calc
    |(m : ℝ)| * 2 ^ e < 2 ^ 24 * 2 ^ e := by
      gcongr
    _ ≤ 2 ^ 24 * 2 ^ (104 : ℤ) := by gcongr
    _ = 2 ^ 128 := by norm_num

theorem FiniteSingle.mean_onGrid {v w : ℝ} (hv : FiniteSingle v) (hw : FiniteSingle w) :
    ∃ k : ℤ, 0.5 * (v + w) = k * 2 ^ (-150 : ℤ) := by
  have scaled : ∀ {u : ℝ}, FiniteSingle u → ∃ k : ℤ, u = k * 2 ^ (-149 : ℤ) := by
    rintro u ⟨m, e, _, he, _, rfl⟩
    obtain ⟨d, hd⟩ := Int.eq_ofNat_of_zero_le (show 0 ≤ e + 149 by omega)
    refine ⟨m * 2 ^ d, ?_⟩
    rw [Nat.cast_ofNat, show e = (d : ℤ) + -149 by omega, zpow_add₀ (by norm_num), zpow_natCast]
    push_cast
    ring
  obtain ⟨k, hk⟩ := scaled hv
  obtain ⟨l, hl⟩ := scaled hw
  refine ⟨k + l, ?_⟩
  rw [hk, hl, show (-149 : ℤ) = -150 + 1 by norm_num, zpow_add₀ (by norm_num)]
  push_cast
  ring

theorem CellEdges.exists_mean {unique edges : List ℝ} (h : CellEdges unique edges) {j : ℕ}
    {e : ℝ} (he : elem edges j = some e) : ∃ a ∈ unique, ∃ b ∈ unique, e = 0.5 * (a + b) := by
  have hj := elem_range he
  rw [h.length] at hj
  have value : ∀ {v : ℝ}, v ∈ unique → ∃ a ∈ unique, ∃ b ∈ unique, v = 0.5 * (a + b) :=
    fun {v} hv => ⟨v, hv, v, hv, by ring⟩
  obtain rfl | hlt := hj.1.eq_or_lt
  · rw [h.first] at he
    exact value (mem_of_elem he)
  obtain rfl | hgt := hj.2.eq_or_lt
  · rw [h.last] at he
    exact value (mem_of_elem he)
  · obtain ⟨k, rfl⟩ := Nat.exists_eq_add_of_le' hj.1
    obtain ⟨a, ha⟩ := exists_elem (a := unique) (i := k) (by omega) (by omega)
    obtain ⟨b, hb⟩ := exists_elem (a := unique) (i := k + 1) (by omega) (by omega)
    have hmid := h.between k a b ha hb
    exact ⟨a, mem_of_elem ha, b, mem_of_elem hb, Option.some.inj (he.symm.trans hmid)⟩

theorem blockWidth_bounds {unique edges : List ℝ} (h : CellEdges unique edges)
    (single : ∀ v ∈ unique, FiniteSingle v) {i j : ℕ} (hi : 1 ≤ i) (hij : i ≤ j)
    (hj : j ≤ edges.length) (hpos : 0 < blockWidth edges i j) :
    2 ^ (-150 : ℤ) ≤ blockWidth edges i j ∧ blockWidth edges i j ≤ 2 ^ 129 := by
  obtain ⟨lo, hlo⟩ := exists_elem (a := edges) hi (hij.trans hj)
  obtain ⟨hi', hhi⟩ := exists_elem (a := edges) (hi.trans hij) hj
  rw [blockWidth, edgeAt_eq hlo, edgeAt_eq hhi] at hpos ⊢
  obtain ⟨a, ha, b, hb, rfl⟩ := CellEdges.exists_mean h hlo
  obtain ⟨c, hc, d, hd, rfl⟩ := CellEdges.exists_mean h hhi
  constructor
  · obtain ⟨k, hk⟩ := (single a ha).mean_onGrid (single b hb)
    obtain ⟨l, hl⟩ := (single c hc).mean_onGrid (single d hd)
    have hgrid : (0 : ℝ) < 2 ^ (-150 : ℤ) := by positivity
    rw [hk, hl, ← sub_mul] at hpos ⊢
    have hkl : (0 : ℝ) < l - k := pos_of_mul_pos_left hpos hgrid.le
    have hone : (1 : ℝ) ≤ l - k := by
      exact_mod_cast (show (1 : ℤ) ≤ l - k by
        have : (0 : ℤ) < l - k := by exact_mod_cast hkl
        omega)
    exact le_mul_of_one_le_left hgrid.le hone
  · have ha' := abs_lt.mp (single a ha).abs_lt
    have hb' := abs_lt.mp (single b hb).abs_lt
    have hc' := abs_lt.mp (single c hc).abs_lt
    have hd' := abs_lt.mp (single d hd).abs_lt
    linarith [show (2 : ℝ) ^ 129 = 2 * 2 ^ 128 by norm_num]

theorem log_two_pow_le (n : ℕ) : Real.log (2 ^ n) ≤ n := by
  rw [Real.log_pow]
  have htwo : Real.log 2 ≤ 1 := by linarith [Real.log_two_lt_d9]
  exact mul_le_of_le_one_right n.cast_nonneg htwo

theorem abs_log_density_le {cnt width : ℝ} (hcnt : 1 ≤ cnt) (hcnt' : cnt ≤ 2 ^ 63)
    (hwidth : 2 ^ (-150 : ℤ) ≤ width) (hwidth' : width ≤ 2 ^ 129) :
    |Real.log (cnt / width)| ≤ 213 := by
  have hpos : 0 < width := lt_of_lt_of_le (by positivity) hwidth
  have hupper : cnt / width ≤ 2 ^ 213 := by
    rw [div_le_iff₀ hpos]
    calc
      cnt ≤ 2 ^ 213 * 2 ^ (-150 : ℤ) := by
        refine hcnt'.trans (le_of_eq ?_)
        norm_num
      _ ≤ 2 ^ 213 * width := by gcongr
  have hlower : (2 ^ 129 : ℝ)⁻¹ ≤ cnt / width := by
    rw [le_div_iff₀ hpos]
    calc
      (2 ^ 129 : ℝ)⁻¹ * width ≤ (2 ^ 129)⁻¹ * 2 ^ 129 := by gcongr
      _ = 1 := by norm_num
      _ ≤ cnt := hcnt
  have hlogUpper := (Real.log_le_log (by positivity) hupper).trans (log_two_pow_le 213)
  have hlogLower := Real.log_le_log (by positivity) hlower
  rw [Real.log_inv] at hlogLower
  have hpow := (neg_le_neg (log_two_pow_le 129)).trans hlogLower
  push_cast at hlogUpper hpow
  exact abs_le.mpr ⟨by linarith, by linarith⟩

/-- The fitness of an admissible block of single precision events. -/
theorem scoreBound_single {unique edges weights : List ℝ} {dt : ℝ} (h : CellEdges unique edges)
    (single : ∀ v ∈ unique, FiniteSingle v) (hlen : unique.length = weights.length)
    (hpos : ∀ w ∈ weights, 0 ≤ w) (hdt : 0 ≤ dt) (hsum : weights.sum ≤ 2 ^ 63) :
    ScoreBound Real.log weights edges dt 300 := by
  intro i q hi hiq hq hwide
  obtain ⟨hcnt, hwidth⟩ := hwide
  have hle : blockWeight weights i (q + 1) ≤ weights.sum :=
    ((List.take_sublist _ _).trans (List.drop_sublist _ _)).sum_le_sum hpos
  obtain ⟨hwlo, hwhi⟩ := blockWidth_bounds h single hi (by omega)
    (by rw [h.length, hlen]; omega) (hdt.trans_lt hwidth)
  rw [minCounts] at hcnt
  have hdensity := abs_log_density_le (by linarith) (hle.trans hsum) hwlo hwhi
  have htotal : 0 ≤ Real.log weights.sum := Real.log_nonneg (by linarith)
  have htotal' : Real.log weights.sum ≤ 63 := by
    have hlog := (Real.log_le_log (by linarith) hsum).trans (log_two_pow_le 63)
    exact_mod_cast hlog
  rw [blockFitness, fitness]
  obtain ⟨hlo, hhi⟩ := abs_le.mp hdensity
  have hcnt' : 0 ≤ blockWeight weights i (q + 1) := by linarith
  have hmul := mul_le_mul_of_nonneg_left hhi hcnt'
  have hmul' := mul_le_mul_of_nonneg_left hlo hcnt'
  exact abs_le.mpr ⟨by linarith, by linarith⟩

theorem fastBayesianBinningFrom_eq (x : SingleArray) (resolution : ℤ)
    (hn : 20 ≤ x.values.length) (htwo : 2 ≤ x.values.toFinset.card) (hres : 2 ≤ resolution) :
    fastBayesianBinningFrom fitMaxStart Real.log x.values (some resolution) =
      fastBayesianBinning Real.log x.values (some resolution) := by
  obtain ⟨sorted, unique, weights, edges, first, last, hpartition, _, hcells, h⟩ :=
    partition_eq (x := x.values) (List.ne_nil_of_length_pos (by omega))
  have hlt : first < last := h.lt_iff.mpr htwo
  have hwide := (wide_whole_iff hcells h.length_eq h.head h.last).mpr
    ⟨h.heavy_iff.mpr hn, resolutionStep_lt hlt hres⟩
  have hsum : weights.sum ≤ 2 ^ 63 := by
    rw [h.runs.sum_weights]
    exact_mod_cast x.length_lt.le
  have scores := scoreBound_single hcells
    (fun v hv => x.single v ((h.runs.mem v).mp hv)) h.length_eq
    (fun w hw => (h.positive w hw).le) (abs_nonneg ((last - first) / resolution)) hsum
  have far : -10 ^ 38 + 300 * weights.sum < -(300 * weights.sum) := by linarith
  have hpoints := optimalChangePointsFrom_eq hcells h.runs.increasing h.unique_ne_nil h.length_eq
    h.positive hwide scores (by norm_num) far
  have hfirst := (elem_one unique).trans h.head
  have hlast := (elem_length unique).trans h.last
  simp only [fastBayesianBinningFrom, fastBayesianBinning, fastChangePoints, hpartition, hfirst,
    hlast, fitMaxStart, hpoints, Option.bind_eq_bind, Option.bind_some, Option.bind_assoc]

end Single

end XWebQL.FitnessSentinel
