import XWebQL.SingleCounts

/-! The bounds of the arrays in single precision.
Whatever the numbers are, all indices before `build_blocks` are in bounds, and a change
point is never NaN. What `build_blocks` is given depends on one step of the dynamic
program alone, the first of the last round: it looks at the block of all values. -/

namespace XWebQL.SingleBounds

open FloatFormat FloatFormat.Format FloatArithmetic FloatValues FortranArray Quicksort SingleBinning
  SingleCounts
open BayesianBinning (Schedule mergeChangePoints)
open DivideBinning (leftLeafSize leftLeafSize_of_le leftLeafSize_of_lt leftLeafSize_lt)

variable {L : Logarithm} {dt : CFloat} {whInEdge edges best : List CFloat} {bestIdx : List ℕ}

section Choice

/-- Block `i` of round `q` is not too narrow, and has a width. -/
def Chosen (edges : List CFloat) (dt : CFloat) (q i : ℕ) : Prop :=
  ∃ left right : Single, elem edges i = some (.value left) ∧
    elem edges (q + 1) = some (.value right) ∧
    ¬ (.value right - .value left : CFloat) ≤ dt ∧ (.value right - .value left : CFloat) ≠ .nan

theorem not_lt_nan (a : CFloat) : ¬ a < .nan := by
  cases a <;> exact id

theorem nan_add (a : CFloat) : (.nan + a : CFloat) = .nan := rfl

theorem fitness_nan (L : Logarithm) (cnt total : CFloat) : fitness L cnt .nan total = .nan := by
  cases cnt <;> rfl

theorem width_of_lt {i : ℕ} {cnt width total fitMax fit : CFloat}
    (hfit : addBest best i (fitness L cnt width total) = some fit) (hlt : fitMax < fit) :
    width ≠ .nan := by
  rintro rfl
  rw [fitness_nan, addBest] at hfit
  have hnan : fit = .nan := by
    split_ifs at hfit
    · obtain ⟨b, -, rfl⟩ := Option.map_eq_some_iff.mp hfit
      exact nan_add b
    · exact (Option.some.inj hfit).symm
  exact not_lt_nan fitMax (hnan ▸ hlt)

theorem innerLoop_spec (L : Logarithm) (dt : CFloat) {q : ℕ} (hq : q + 1 ≤ edges.length)
    (hwh : whInEdge.length = edges.length) (hbest : q ≤ best.length + 1) (is : List ℕ)
    (his : ∀ i ∈ is, 1 ≤ i ∧ i ≤ q) (acc : CFloat × ℕ) :
    ∃ fitMax iMax, innerLoop L dt whInEdge edges best q is acc = some (fitMax, iMax) ∧
      (iMax = acc.2 ∨ iMax ∈ is ∧ Chosen edges dt q iMax) := by
  induction is generalizing acc with
  | nil => exact ⟨acc.1, acc.2, rfl, .inl rfl⟩
  | cons i is ih =>
    obtain ⟨fitMax, iMax⟩ := acc
    obtain ⟨hi₁, hi₂⟩ := his i List.mem_cons_self
    have hrest := fun k hk => his k (List.mem_cons_of_mem i hk)
    obtain ⟨whRight, hwhRight⟩ := exists_elem (a := whInEdge) (i := q + 1) (by omega) (by omega)
    obtain ⟨whLeft, hwhLeft⟩ := exists_elem (a := whInEdge) hi₁ (by omega)
    obtain ⟨right, hright⟩ := exists_elem (a := edges) (i := q + 1) (by omega) hq
    obtain ⟨left, hleft⟩ := exists_elem (a := edges) hi₁ (by omega)
    obtain ⟨whTotal, hwhTotal⟩ := exists_elem (a := whInEdge) (i := whInEdge.length) (by omega) le_rfl
    simp only [innerLoop, hwhRight, hwhLeft, hright, hleft, hwhTotal, Option.bind_eq_bind,
      Option.bind_some]
    split_ifs with hlight hnarrow
    · exact ⟨fitMax, iMax, rfl, .inl rfl⟩
    · exact ⟨fitMax, iMax, rfl, .inl rfl⟩
    · obtain ⟨fit, hfit⟩ : ∃ fit, addBest best i
          (fitness L (whRight - whLeft) (right - left) whTotal) = some fit := by
        rw [addBest]
        split_ifs with hone
        · obtain ⟨b, hb⟩ := exists_elem (a := best) (i := i - 1) (by omega) (by omega)
          exact ⟨_, by rw [hb]; rfl⟩
        · exact ⟨_, rfl⟩
      rw [hfit, Option.bind_some]
      split_ifs with hlt
      · obtain ⟨m, j, hloop, hj⟩ := ih hrest (fit, i)
        refine ⟨m, j, hloop, .inr ?_⟩
        rcases hj with rfl | ⟨hj, hchosen⟩
        · have hwidth := width_of_lt hfit hlt
          refine ⟨List.mem_cons_self, ?_⟩
          cases right with
          | nan => exact absurd rfl hwidth
          | value right =>
            cases left with
            | nan => exact absurd rfl hwidth
            | value left => exact ⟨left, right, hleft, hright, hnarrow, hwidth⟩
        · exact ⟨List.mem_cons_of_mem i hj, hchosen⟩
      · obtain ⟨m, j, hloop, hj⟩ := ih hrest (fitMax, iMax)
        exact ⟨m, j, hloop, hj.imp_right fun h => ⟨List.mem_cons_of_mem i h.1, h.2⟩⟩

end Choice

section Rounds

/-- The arrays after `n` rounds of the outer loop. -/
structure Rounds (L : Logarithm) (dt : CFloat) (whInEdge edges : List CFloat) (n : ℕ)
    (best : List CFloat) (bestIdx : List ℕ) : Prop where
  length_best : best.length = n
  length_idx : bestIdx.length = n
  round : ∀ k, 1 ≤ k → k ≤ n → ∃ best' fitMax i, best'.length + 1 = k ∧
    innerLoop L dt whInEdge edges best' k (List.range' 1 k) (fitStart, 0) = some (fitMax, i) ∧
    elem bestIdx k = some i

variable {N n : ℕ}

theorem range'_bounds {q : ℕ} : ∀ i ∈ List.range' 1 q, 1 ≤ i ∧ i ≤ q := by
  intro i hi
  have h := List.mem_range'_1.mp hi
  omega

theorem outerLoop_spec (hedges : edges.length = N + 1) (hwh : whInEdge.length = N + 1) {m : ℕ}
    (hm : n + m = N) (h : Rounds L dt whInEdge edges n best bestIdx) :
    ∃ best' bestIdx', outerLoop L dt whInEdge edges (List.range' (n + 1) m) best bestIdx =
      some (best', bestIdx') ∧ Rounds L dt whInEdge edges N best' bestIdx' := by
  induction m generalizing n best bestIdx with
  | zero =>
    obtain rfl : n = N := by omega
    exact ⟨best, bestIdx, rfl, h⟩
  | succ m ih =>
    obtain ⟨fitMax, i, hloop, -⟩ := innerLoop_spec L dt (by omega : n + 1 + 1 ≤ edges.length)
      (hwh.trans hedges.symm) (by rw [h.length_best] : n + 1 ≤ best.length + 1)
      (List.range' 1 (n + 1)) range'_bounds (fitStart, 0)
    have hnext : Rounds L dt whInEdge edges (n + 1) (best ++ [fitMax]) (bestIdx ++ [i]) := by
      refine ⟨by simp [h.length_best], by simp [h.length_idx], fun k h₁ h₂ => ?_⟩
      rcases Nat.lt_or_ge n k with hlt | hle
      · obtain rfl : k = n + 1 := by omega
        refine ⟨best, fitMax, i, by rw [h.length_best], hloop, ?_⟩
        have hlast := elem_append_right (a := bestIdx) (b := [i]) (i := 1) le_rfl
        rwa [h.length_idx] at hlast
      · obtain ⟨best', m', i', hlength, hloop', hidx⟩ := h.round k h₁ hle
        refine ⟨best', m', i', hlength, hloop', ?_⟩
        rwa [elem_append_left (by rw [h.length_idx]; exact hle)]
    obtain ⟨best', bestIdx', houter, hrounds⟩ := ih (by omega) hnext
    refine ⟨best', bestIdx', ?_, hrounds⟩
    rw [List.range'_succ, outerLoop, hloop]
    exact houter

theorem Rounds.entry (h : Rounds L dt whInEdge edges N best bestIdx) (hedges : edges.length = N + 1)
    (hwh : whInEdge.length = N + 1) {k : ℕ} (h₁ : 1 ≤ k) (h₂ : k ≤ N) :
    ∃ i, elem bestIdx k = some i ∧ (i = 0 ∨ (1 ≤ i ∧ i ≤ k) ∧ Chosen edges dt k i) := by
  obtain ⟨best', fitMax, i, hlength, hloop, hidx⟩ := h.round k h₁ h₂
  obtain ⟨m, j, hloop', hj⟩ := innerLoop_spec L dt (by omega : k + 1 ≤ edges.length)
    (hwh.trans hedges.symm) hlength.ge (List.range' 1 k) range'_bounds (fitStart, 0)
  obtain ⟨-, rfl⟩ := Prod.mk.inj (Option.some.inj (hloop'.symm.trans hloop))
  exact ⟨j, hidx, hj.imp_right fun h => ⟨range'_bounds j h.1, h.2⟩⟩

theorem peel_spec (h : Rounds L dt whInEdge edges N best bestIdx) (hedges : edges.length = N + 1)
    (hwh : whInEdge.length = N + 1) (room : ℕ) {j : ℕ} {v : Single} (h₁ : 1 ≤ j) (h₂ : j ≤ N + 1)
    (hroom : j ≤ room) (hv : elem edges j = some (.value v)) :
    ∃ rest, peel edges bestIdx room j = some (.value v :: rest) ∧
      (∀ c ∈ rest, ∃ u : Single, c = .value u) ∧
      (2 ≤ j → ∃ i, elem bestIdx (j - 1) = some i ∧ (i = 0 → rest = []) ∧
        (i ≠ 0 → ∃ u ∈ rest, Chosen edges dt (j - 1) i ∧ elem edges i = some u)) := by
  induction room generalizing j v with
  | zero => omega
  | succ room ih =>
    rw [peel, if_pos (by omega), hv, Option.bind_eq_bind, Option.bind_some]
    by_cases hone : j = 1
    · rw [if_pos hone]
      exact ⟨[], rfl, by simp, fun h => by omega⟩
    · obtain ⟨i, hidx, hi⟩ := h.entry hedges hwh (k := j - 1) (by omega) (by omega)
      rw [if_neg hone, hidx]
      simp only [Option.bind_eq_bind, Option.bind_some]
      rcases hi with rfl | ⟨hi, hchosen⟩
      · have hstop : peel edges bestIdx room 0 = some [] := by
          cases room <;> rfl
        rw [hstop]
        exact ⟨[], rfl, by simp, fun _ => ⟨0, rfl, fun _ => rfl, fun h => absurd rfl h⟩⟩
      · obtain ⟨left, right, hleft, hright⟩ := hchosen
        obtain ⟨rest, hpeel, hvalues, -⟩ := ih hi.1 (by omega) (by omega) hleft
        rw [hpeel]
        refine ⟨.value left :: rest, rfl, ?_, fun _ => ⟨i, rfl, fun h => by omega, fun _ =>
          ⟨.value left, List.mem_cons_self, ⟨left, right, hleft, hright⟩, hleft⟩⟩⟩
        intro c hc
        rcases List.mem_cons.mp hc with rfl | hc
        · exact ⟨left, rfl⟩
        · exact hvalues c hc

end Rounds

section Leaves

variable {unique : List Single} {weights : List CFloat} {first last : Single}

theorem cellEdges_spec (hfirst : unique.head? = some first) (hlast : unique.getLast? = some last) :
    ∃ edges, cellEdges unique = some edges ∧ edges.length = unique.length + 1 ∧
      elem edges 1 = some (.value first) ∧ elem edges (unique.length + 1) = some (.value last) := by
  have hpos : 1 ≤ unique.length := by
    cases unique with
    | nil => cases hfirst
    | cons v unique => exact Nat.le_add_left 1 _
  rw [← elem_one] at hfirst
  rw [← elem_length] at hlast
  refine ⟨_, by rw [cellEdges, hfirst, hlast]; rfl, ?_, rfl, ?_⟩
  · simp
    omega
  · have hend := elem_append_right (b := [(.value last : CFloat)]) (i := 1)
      (a := [.value first] ++ List.zipWith (fun a b => real (1 / 2) * (.value a + .value b))
        unique.dropLast unique.tail) le_rfl
    have hlength : ([(.value first : CFloat)] ++ List.zipWith
        (fun a b => real (1 / 2) * (.value a + .value b)) unique.dropLast unique.tail).length =
        unique.length := by
      simp
      omega
    rw [hlength] at hend
    exact hend

/-- The dynamic program on any weights: all indices are in bounds, and the change points end with
the last value. They are more than that if the last round has chosen a block. -/
theorem optimalChangePoints_spec (L : Logarithm) (dt : CFloat) (hne : unique ≠ [])
    (hlen : unique.length = weights.length) (hedges : edges.length = unique.length + 1)
    (hlast : elem edges (unique.length + 1) = some (.value last)) :
    ∃ wh best fitMax i rest, countBetweenEdges unique edges weights 1 = some wh ∧
      wh.length = unique.length + 1 ∧
      innerLoop L dt (cumsum wh) edges best unique.length (List.range' 1 unique.length)
        (fitStart, 0) = some (fitMax, i) ∧ best.length + 1 = unique.length ∧
      optimalChangePoints L unique weights edges dt = some (rest.reverse ++ [.value last]) ∧
      (∀ c ∈ rest, ∃ u : Single, c = .value u) ∧ (i = 0 → rest = []) ∧
      (i ≠ 0 → ∃ u : Single, .value u ∈ rest ∧ ¬ (.value last - .value u : CFloat) ≤ dt ∧
        (.value last - .value u : CFloat) ≠ .nan) := by
  have hpos := List.length_pos_iff.mpr hne
  obtain ⟨wh, hwh, hlength, -, -⟩ := countBetweenEdges_spec 1 (R := fun _ _ => True)
    (T := fun _ _ => True) (fun _ _ _ _ _ _ => trivial) trivial unique
    (by omega : 2 ≤ edges.length) hlen (total_any weights)
  have hlength' : wh.length = unique.length + 1 := by omega
  have hcumsum : (cumsum wh).length = unique.length + 1 := (length_cumsum wh).trans hlength'
  have hstart : Rounds L dt (cumsum wh) edges 0 [] [] := ⟨rfl, rfl, fun k h₁ h₂ => by omega⟩
  obtain ⟨best, bestIdx, houter, hrounds⟩ :=
    outerLoop_spec hedges hcumsum (Nat.zero_add unique.length) hstart
  obtain ⟨rest, hpeel, hvalues, hwalk⟩ := peel_spec hrounds hedges hcumsum (unique.length + 1)
    (by omega) le_rfl le_rfl hlast
  obtain ⟨best', fitMax, i, hbest', hloop, hidx⟩ := hrounds.round unique.length hpos le_rfl
  obtain ⟨j, hj, hnone, hsome⟩ := hwalk (by omega)
  rw [Nat.add_sub_cancel] at hj hsome
  obtain rfl : i = j := Option.some.inj (hidx.symm.trans hj)
  refine ⟨wh, best', fitMax, i, rest, hwh, hlength', hloop, hbest', ?_, hvalues, hnone, ?_⟩
  · rw [Nat.zero_add] at houter
    simp only [optimalChangePoints, hwh, houter, hpeel, Option.bind_eq_bind, Option.bind_some,
      List.reverse_cons]
  · intro hi
    obtain ⟨c, hc, ⟨left, right, hleft, hright, hwide, hwidth⟩, helem⟩ := hsome hi
    obtain rfl : c = .value left := Option.some.inj (helem.symm.trans hleft)
    rw [hlast] at hright
    obtain rfl : last = right := by
      have heq := Option.some.inj hright
      injection heq
    exact ⟨left, hc, hwide, hwidth⟩

theorem exists_values {points : List CFloat} (h : ∀ c ∈ points, ∃ u : Single, c = .value u) :
    ∃ values : List Single, values.map Number.value = points := by
  induction points with
  | nil => exact ⟨[], rfl⟩
  | cons c points ih =>
    obtain ⟨u, rfl⟩ := h c List.mem_cons_self
    obtain ⟨values, rfl⟩ := ih fun c hc => h c (List.mem_cons_of_mem _ hc)
    exact ⟨u :: values, rfl⟩

theorem conquerBayesianBinning_spec (L : Logarithm) (dt : CFloat)
    (hlen : unique.length = weights.length) (hlast : unique.getLast? = some last) :
    ∃ rest : List Single, conquerBayesianBinning L unique weights dt =
      some (rest.map .value ++ [.value last]) := by
  have hne : unique ≠ [] := by
    rintro rfl
    cases hlast
  obtain ⟨first, hfirst⟩ : ∃ first, unique.head? = some first := by
    cases unique with
    | nil => exact absurd rfl hne
    | cons v unique => exact ⟨v, rfl⟩
  obtain ⟨edges, hedges, hlength, -, hend⟩ := cellEdges_spec hfirst hlast
  obtain ⟨wh, best, fitMax, i, rest, -, -, -, -, hpoints, hvalues, -⟩ :=
    optimalChangePoints_spec L dt hne hlen hlength hend
  obtain ⟨values, hvalues⟩ := exists_values hvalues
  refine ⟨values.reverse, ?_⟩
  rw [conquerBayesianBinning, hedges, Option.bind_eq_bind, Option.bind_some, hpoints, ← hvalues,
    List.map_reverse]

theorem changeAt_spec (f : CFloat → CFloat) (weights : List CFloat) {mid : ℕ} (h₁ : 1 ≤ mid)
    (h₂ : mid ≤ weights.length) :
    ∃ weights', (do put weights mid (f (← elem weights mid))) = some weights' ∧
      weights'.length = weights.length := by
  obtain ⟨w, hw⟩ := exists_elem h₁ h₂
  have hput := put_eq_some (a := weights) (f w) h₁ h₂
  exact ⟨_, by rw [hw]; exact hput, length_put hput⟩

theorem halveAt_spec (weights : List CFloat) {mid : ℕ} (h₁ : 1 ≤ mid) (h₂ : mid ≤ weights.length) :
    ∃ weights', halveAt weights mid = some weights' ∧ weights'.length = weights.length :=
  changeAt_spec (· / real 2) weights h₁ h₂

theorem restoreAt_spec (weights : List CFloat) {mid : ℕ} (h₁ : 1 ≤ mid)
    (h₂ : mid ≤ weights.length) :
    ∃ weights', restoreAt weights mid = some weights' ∧ weights'.length = weights.length :=
  changeAt_spec (· * real 2) weights h₁ h₂

/-- The split stays in bounds, and returns the ends of the whole range and of its first leaf. -/
theorem divideBayesianBinning_spec (L : Logarithm) (leftFirst : List Bool → Bool) (dt : CFloat)
    (path : List Bool) (unique : List Single) (weights : List CFloat) {last leafEnd : Single}
    (hlen : unique.length = weights.length) (hlast : unique.getLast? = some last)
    (hleaf : elem unique (leftLeafSize unique.length) = some leafEnd) :
    ∃ (points : List Single) (weights' : List CFloat),
      divideBayesianBinning L leftFirst dt path unique weights = some (points.map .value, weights') ∧
      weights'.length = weights.length ∧ last ∈ points ∧ leafEnd ∈ points := by
  obtain ⟨n, hn⟩ : ∃ n, unique.length = n := ⟨_, rfl⟩
  induction n using Nat.strong_induction_on generalizing path unique weights last leafEnd with
  | _ n ih =>
    rw [divideBayesianBinning]
    by_cases hlarge : WORKSIZE < unique.length
    · rw [dif_pos hlarge]
      have hsize : 2048 < unique.length := hlarge
      obtain ⟨mid, hmid⟩ : ∃ mid, unique.length / 2 = mid := ⟨_, rfl⟩
      rw [leftLeafSize_of_lt hlarge, hmid] at hleaf
      obtain ⟨halved, hhalve, hlength⟩ := halveAt_spec weights (by omega : 1 ≤ mid)
        (by omega)
      have htake : (unique.take mid).length = mid := by
        rw [List.length_take]
        omega
      have hdrop : (unique.drop (mid - 1)).length = unique.length - (mid - 1) := List.length_drop
      have hle := DivideBinning.leftLeafSize_le mid
      obtain ⟨leftLast, hleftLast⟩ := exists_elem (a := unique.take mid) (i := mid) (by omega)
        htake.ge
      have hleftEnd : (unique.take mid).getLast? = some leftLast := by
        rw [← elem_length, htake]
        exact hleftLast
      have hleftLeaf : elem (unique.take mid) (leftLeafSize (unique.take mid).length) =
          some leafEnd := by
        rw [htake, elem_take hle]
        exact hleaf
      obtain ⟨left, leftWeights, hleft, hleftLength, -, hleafEnd⟩ := ih mid (by omega) (true :: path)
        (unique.take mid) (halved.take mid) (by rw [htake, List.length_take]; omega) hleftEnd
        hleftLeaf htake
      obtain ⟨shared, hshared⟩ : ∃ shared, leftWeights ++ halved.drop mid = shared := ⟨_, rfl⟩
      have hsharedLength : shared.length = weights.length := by
        rw [← hshared, List.length_append, hleftLength, List.length_take, List.length_drop]
        omega
      obtain ⟨rightEnd, hrightEnd⟩ := exists_elem (a := unique.drop (mid - 1))
        (i := leftLeafSize (unique.drop (mid - 1)).length)
        (by have := DivideBinning.leftLeafSize_two_le (L := (unique.drop (mid - 1)).length)
              (by omega)
            omega) (DivideBinning.leftLeafSize_le _)
      obtain ⟨right, rightWeights, hright, hrightLength, hlastMem, -⟩ := ih _ (by omega)
        (false :: path) (unique.drop (mid - 1)) (shared.drop (mid - 1))
        (by rw [hdrop, List.length_drop]; omega)
        ((List.getLast?_drop ..).trans (if_neg (by omega)) |>.trans hlast) hrightEnd hdrop
      obtain ⟨restored, hrestore, hrestoredLength⟩ := restoreAt_spec
        (shared.take (mid - 1) ++ rightWeights) (by omega : 1 ≤ mid)
        (by rw [List.length_append, List.length_take, hrightLength, List.length_drop]; omega)
      refine ⟨if leftFirst path then left ++ right else right ++ left, restored, ?_, ?_, ?_, ?_⟩
      · simp only [hmid, hhalve, hleft, hshared, hright, hrestore, Option.bind_eq_bind,
          Option.bind_some]
        split_ifs <;> simp
      · rw [hrestoredLength, List.length_append, List.length_take, hrightLength, List.length_drop]
        omega
      · split_ifs <;> simp [hlastMem]
      · split_ifs <;> simp [hleafEnd]
    · rw [dif_neg hlarge]
      obtain ⟨rest, hconquer⟩ := conquerBayesianBinning_spec L dt hlen hlast
      rw [leftLeafSize_of_le (not_lt.mp hlarge), elem_length, hlast] at hleaf
      obtain rfl := Option.some.inj hleaf
      refine ⟨rest ++ [last], weights, ?_, rfl, by simp, by simp⟩
      rw [hconquer]
      simp

end Leaves

end XWebQL.SingleBounds
