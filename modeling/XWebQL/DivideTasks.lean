import XWebQL.DivideBinning
import XWebQL.QuicksortTasks

/-! The split of `divide_bayesian_binning` with interleaving tasks.
Both tasks of a level work on the shared array of weights, on ranges that
overlap in the middle point. A call reads its whole range but writes only
strictly inside it, so no task ever writes a point its sibling can see. What a
leaf does with its values and weights is a parameter. -/

namespace XWebQL.DivideTasks

open FortranArray Quicksort ForkJoin QuicksortTasks RunLength ConquerBinning DivideBinning

variable {K V : Type}

/-- The elements `lo, lo+1, ...` read one after the other. -/
def readSlice : ℕ → ℕ → (List K → Task Unit K (List V)) → Task Unit K (List V)
  | _, 0, next => next []
  | lo, n + 1, next => .read lo fun w => readSlice (lo + 1) n fun ws => next (w :: ws)

def leafTask (result : Option (List V)) : Task Unit K (List V) :=
  match result with
  | some changePoints => .done changePoints
  | none => .fail ()

section Tasks

variable [Field K]

/-- `divide_bayesian_binning` on the values `unique` with the weights from
position `lo` on. The results of two tasks are concatenated in the order in which
they finish. -/
def divideTask (leaf : List K → List K → Option (List V)) (unique : List K) (lo : ℕ) :
    Task Unit K (List V) :=
  if _h : WORKSIZE < unique.length then
    let mid := unique.length / 2
    .read (lo + (mid - 1)) fun w =>
      .write (lo + (mid - 1)) (w / 2)
        (.fork (divideTask leaf (unique.take mid) lo)
          (divideTask leaf (unique.drop (mid - 1)) (lo + (mid - 1)))
          fun first second =>
            .read (lo + (mid - 1)) fun w =>
              .write (lo + (mid - 1)) (w * 2) (.done (first ++ second)))
  else readSlice lo unique.length fun weights => leafTask (leaf unique weights)
termination_by unique.length
decreasing_by
  all_goals
    simp only [List.length_take, List.length_drop, WORKSIZE] at *
    omega

def leafCalls (unique weights : List K) : List (List K × List K) :=
  if _h : WORKSIZE < unique.length then
    let mid := unique.length / 2
    let halved := weights.set (mid - 1) ((elem weights mid).getD 0 / 2)
    leafCalls (unique.take mid) (halved.take mid) ++
      leafCalls (unique.drop (mid - 1)) (halved.drop (mid - 1))
  else [(unique, weights)]
termination_by unique.length
decreasing_by
  all_goals
    simp only [List.length_take, List.length_drop, WORKSIZE] at *
    omega

end Tasks

section Leaves

variable [Field K]

theorem leafCalls_of_le {unique weights : List K} (h : unique.length ≤ WORKSIZE) :
    leafCalls unique weights = [(unique, weights)] := by
  rw [leafCalls, dif_neg (not_lt.mpr h)]

theorem leafCalls_of_lt {unique weights : List K} {w : K} (h : WORKSIZE < unique.length)
    (hw : elem weights (unique.length / 2) = some w) :
    leafCalls unique weights =
      leafCalls (unique.take (unique.length / 2))
          ((weights.set (unique.length / 2 - 1) (w / 2)).take (unique.length / 2)) ++
        leafCalls (unique.drop (unique.length / 2 - 1))
          ((weights.set (unique.length / 2 - 1) (w / 2)).drop (unique.length / 2 - 1)) := by
  rw [leafCalls, dif_pos h]
  simp only [hw, Option.getD_some]

/-- Induction along the recursion: a call without a split, and a call whose two halves, the weight
of the middle point halved, have the property. -/
theorem halves_induction {motive : List K → List K → Prop}
    (leaf : ∀ unique weights, unique.length = weights.length → unique.length ≤ WORKSIZE →
      motive unique weights)
    (split : ∀ (unique weights : List K) (mid : ℕ) (w : K), unique.length = weights.length →
      WORKSIZE < unique.length → unique.length / 2 = mid → elem weights mid = some w →
      (unique.take mid).length = mid →
      (unique.drop (mid - 1)).length = unique.length - (mid - 1) →
      leafCalls unique weights =
        leafCalls (unique.take mid) ((weights.set (mid - 1) (w / 2)).take mid) ++
          leafCalls (unique.drop (mid - 1)) ((weights.set (mid - 1) (w / 2)).drop (mid - 1)) →
      motive (unique.take mid) ((weights.set (mid - 1) (w / 2)).take mid) →
      motive (unique.drop (mid - 1)) ((weights.set (mid - 1) (w / 2)).drop (mid - 1)) →
      motive unique weights)
    {unique weights : List K} (hlen : unique.length = weights.length) :
    motive unique weights := by
  obtain ⟨n, hn⟩ : ∃ n, unique.length = n := ⟨_, rfl⟩
  induction n using Nat.strong_induction_on generalizing unique weights with
  | _ n ih =>
    by_cases hlarge : WORKSIZE < unique.length
    · have hsize : 2048 < unique.length := hlarge
      obtain ⟨mid, hmid⟩ : ∃ mid, unique.length / 2 = mid := ⟨_, rfl⟩
      obtain ⟨w, hw⟩ := exists_elem (a := weights) (i := mid) (by omega) (by omega)
      have htake : (unique.take mid).length = mid := by
        rw [List.length_take]
        omega
      have hdrop : (unique.drop (mid - 1)).length = unique.length - (mid - 1) := List.length_drop
      have hcalls := leafCalls_of_lt hlarge (hmid ▸ hw)
      rw [hmid] at hcalls
      refine split unique weights mid w hlen hlarge hmid hw htake hdrop hcalls ?_ ?_
      · exact ih mid (by omega) (by rw [htake, List.length_take, List.length_set]; omega) htake
      · exact ih _ (by omega) (by rw [hdrop, List.length_drop, List.length_set, hlen]) hdrop
    · exact leaf unique weights hlen (not_lt.mp hlarge)

end Leaves

def leafResults (leaf : List K → List K → Option (List V)) (calls : List (List K × List K)) :
    List V :=
  calls.flatMap fun c => (leaf c.1 c.2).getD []

section Footprints

variable {f : Footprint}

/-- What a call on `n` elements from `lo` on uses and writes. -/
def sliceFootprint (lo n : ℕ) : Footprint :=
  ⟨fun i => lo ≤ i ∧ i < lo + n, fun i => lo < i ∧ i + 1 < lo + n⟩

theorem sliceFootprint_apart (lo mid n : ℕ) (hmid : 1 ≤ mid) :
    (sliceFootprint lo mid).Apart (sliceFootprint (lo + (mid - 1)) n) := by
  constructor
  · rintro i ⟨_, h₁⟩ ⟨h₂, _⟩
    omega
  · rintro i ⟨h₁, _⟩ ⟨_, h₂⟩
    omega

theorem readSlice_within {lo n : ℕ} {next : List K → Task Unit K (List V)}
    (hf : ∀ i, lo ≤ i → i < lo + n → f.uses i) (h : ∀ ws, Within f (next ws)) :
    Within f (readSlice lo n next) := by
  induction n generalizing lo next with
  | zero => exact h []
  | succ n ih =>
    refine ⟨hf lo le_rfl (by omega), fun w => ih ?_ fun ws => h (w :: ws)⟩
    exact fun i h₁ h₂ => hf i (by omega) (by omega)

theorem leafTask_within (result : Option (List V)) : Within f (leafTask result : Task Unit K _) := by
  cases result <;> trivial

variable [Field K]

/-- A call reads its range and writes strictly inside it. -/
theorem divideTask_covered (leaf : List K → List K → Option (List V)) (unique : List K) (lo : ℕ)
    (huses : ∀ i, (sliceFootprint lo unique.length).uses i → f.uses i)
    (hwrites : ∀ i, (sliceFootprint lo unique.length).writes i → f.writes i) :
    Within f (divideTask leaf unique lo) := by
  obtain ⟨n, hn⟩ : ∃ n, unique.length = n := ⟨_, rfl⟩
  induction n using Nat.strong_induction_on generalizing unique lo with
  | _ n ih =>
    rw [divideTask]
    split_ifs with hlarge
    · simp only [WORKSIZE] at hlarge
      have hmid : f.uses (lo + (unique.length / 2 - 1)) := huses _ ⟨by omega, by omega⟩
      have hmid' : f.writes (lo + (unique.length / 2 - 1)) := hwrites _ ⟨by omega, by omega⟩
      have htake : (unique.take (unique.length / 2)).length = unique.length / 2 := by
        rw [List.length_take]
        omega
      have hdrop : (unique.drop (unique.length / 2 - 1)).length =
          unique.length - (unique.length / 2 - 1) := List.length_drop
      refine ⟨hmid, fun w => ⟨hmid, hmid', ?_, ?_, fun a b => ⟨hmid, fun w => ⟨hmid, hmid', trivial⟩⟩⟩⟩
      · refine ih _ (by omega) _ lo ?_ ?_ htake
        · rintro i ⟨h₁, h₂⟩
          exact huses i ⟨h₁, by omega⟩
        · rintro i ⟨h₁, h₂⟩
          exact hwrites i ⟨h₁, by omega⟩
      · refine ih _ (by omega) _ _ ?_ ?_ hdrop
        · rintro i ⟨h₁, h₂⟩
          exact huses i ⟨by omega, by omega⟩
        · rintro i ⟨h₁, h₂⟩
          exact hwrites i ⟨by omega, by omega⟩
    · exact readSlice_within (fun i h₁ h₂ => huses i ⟨h₁, h₂⟩) fun ws => leafTask_within _

theorem divideTask_within (leaf : List K → List K → Option (List V)) (unique : List K)
    (lo : ℕ) : Within (sliceFootprint lo unique.length) (divideTask leaf unique lo) :=
  divideTask_covered leaf unique lo (fun _ h => h) fun _ h => h

end Footprints

section Sequential

variable {before weights after : List K}

theorem elem_middle {k : ℕ} (h₁ : 1 ≤ k) (h₂ : k ≤ weights.length) :
    elem (before ++ weights ++ after) (before.length + k) = elem weights k := by
  rw [List.append_assoc, elem_append_right h₁, elem_append_left h₂]

theorem put_middle {k : ℕ} (v : K) (h₁ : 1 ≤ k) (h₂ : k ≤ weights.length) :
    put (before ++ weights ++ after) (before.length + k) v =
      some (before ++ weights.set (k - 1) v ++ after) := by
  rw [put_eq_some v (by omega) (by rw [List.length_append, List.length_append]; omega),
    List.append_assoc, List.set_append_right _ _ (by omega),
    List.set_append_left _ _ (by omega), List.append_assoc]
  congr 4
  omega

theorem set_of_elem {k : ℕ} {w : K} (h : elem weights k = some w) :
    weights.set (k - 1) w = weights := by
  have hk := elem_range h
  apply ext_elem
  intro i
  rw [elem_put (put_eq_some w hk.1 hk.2)]
  split_ifs with hi
  · rw [hi, h]
  · rfl

theorem readSlice_wp {post : List V → List K → Prop} {next : List K → Task Unit K (List V)}
    (h : wp (next weights) post (before ++ weights ++ after)) :
    wp (readSlice (before.length + 1) weights.length next) post
      (before ++ weights ++ after) := by
  induction weights generalizing before next with
  | nil => exact h
  | cons w weights ih =>
    refine ⟨w, ?_, ?_⟩
    · rw [elem_middle le_rfl (by simp)]
      rfl
    · have hmove : before ++ w :: weights ++ after = (before ++ [w]) ++ weights ++ after := by simp
      have hlen : before.length + 1 + 1 = (before ++ [w]).length + 1 := by simp
      rw [hmove] at h ⊢
      rw [hlen]
      exact ih h

variable [Field K] [CharZero K]

theorem restoreWeight_wp {mid : ℕ} {w : K} {results : List V} {post : List V → Prop}
    (hw : elem weights mid = some w) (hpost : post results) :
    wp (.read (before.length + mid) fun v =>
        .write (before.length + mid) (v * 2) (.done results) : Task Unit K (List V))
      (fun results m => m = before ++ weights ++ after ∧ post results)
      (before ++ weights.set (mid - 1) (w / 2) ++ after) := by
  obtain ⟨h₁, h₂⟩ := elem_range hw
  have hback : elem (before ++ weights.set (mid - 1) (w / 2) ++ after) (before.length + mid) =
      some (w / 2) := by
    rw [elem_middle h₁ (by rwa [List.length_set]), elem_halved hw, if_pos rfl]
  have hrestore : put (before ++ weights.set (mid - 1) (w / 2) ++ after) (before.length + mid)
      (w / 2 * 2) = some (before ++ weights ++ after) := by
    rw [put_middle _ h₁ (by rwa [List.length_set]), List.set_set, div_mul_cancel₀ w two_ne_zero,
      set_of_elem hw]
  exact ⟨w / 2, hback, _, hrestore, rfl, hpost⟩

theorem divideTask_wp (leaf : List K → List K → Option (List V))
    (unique before weights after : List K) (hlen : unique.length = weights.length)
    (hleaf : ∀ c ∈ leafCalls unique weights, (leaf c.1 c.2).isSome) :
    wp (divideTask leaf unique (before.length + 1))
      (fun results m => m = before ++ weights ++ after ∧
        results.Perm (leafResults leaf (leafCalls unique weights)))
      (before ++ weights ++ after) := by
  refine halves_induction (motive := fun unique weights => ∀ before after : List K,
    (∀ c ∈ leafCalls unique weights, (leaf c.1 c.2).isSome) →
      wp (divideTask leaf unique (before.length + 1))
        (fun results m => m = before ++ weights ++ after ∧
          results.Perm (leafResults leaf (leafCalls unique weights)))
        (before ++ weights ++ after)) ?_ ?_ hlen before after hleaf
  · intro unique weights hlen hsmall before after hleaf
    rw [leafCalls_of_le hsmall] at hleaf ⊢
    rw [List.forall_mem_singleton, Option.isSome_iff_exists] at hleaf
    obtain ⟨changePoints, hresult⟩ := hleaf
    rw [divideTask, dif_neg (not_lt.mpr hsmall), hlen]
    refine readSlice_wp ?_
    show wp (leafTask (leaf unique weights)) _ _
    rw [hresult]
    refine ⟨rfl, ?_⟩
    simp [leafResults, hresult]
  · intro unique weights mid w hlen hlarge hmid hw htake hdrop hcalls hl hr before after hleaf
    have hsize : 2048 < unique.length := hlarge
    have hposition : before.length + 1 + (mid - 1) = before.length + mid := by omega
    have hread : elem (before ++ weights ++ after) (before.length + mid) = some w := by
      rw [elem_middle (by omega) (by omega), hw]
    rw [hcalls] at hleaf ⊢
    obtain ⟨halved, hhalved⟩ : ∃ halved, weights.set (mid - 1) (w / 2) = halved := ⟨_, rfl⟩
    have hlength : halved.length = weights.length := by rw [← hhalved, List.length_set]
    rw [hhalved] at hleaf hl hr ⊢
    rw [divideTask, dif_pos hlarge]
    simp only [hmid, hposition]
    refine ⟨w, hread, before ++ halved ++ after, ?_, ?_⟩
    · rw [put_middle _ (by omega) (by omega), hhalved]
    -- each half finds its part of the array between what the other half and the callers hold
    have hleft := hl before (halved.drop mid ++ after)
      fun c hc => hleaf c (List.mem_append_left _ hc)
    have hright := hr (before ++ halved.take (mid - 1)) after
      fun c hc => hleaf c (List.mem_append_right _ hc)
    rw [List.append_assoc before, ← List.append_assoc _ _ after, List.take_append_drop,
      ← List.append_assoc] at hleft
    rw [List.append_assoc before, List.take_append_drop, List.length_append, List.length_take,
      show before.length + min (mid - 1) halved.length + 1 = before.length + mid by omega] at hright
    refine wp.fork (f := sliceFootprint (before.length + 1) mid)
      (g := sliceFootprint (before.length + mid) (unique.length - (mid - 1))) ?_ ?_ ?_ hleft hright ?_
    · have hapart := sliceFootprint_apart (before.length + 1) mid
        (unique.length - (mid - 1)) (by omega)
      rwa [hposition] at hapart
    · have hwithin := divideTask_within leaf (unique.take mid) (before.length + 1)
      rwa [htake] at hwithin
    · have hwithin := divideTask_within leaf (unique.drop (mid - 1)) (before.length + mid)
      rwa [hdrop] at hwithin
    · intro a b ha hb
      have hperm : (a ++ b).Perm (leafResults leaf
          (leafCalls (unique.take mid) (halved.take mid) ++
            leafCalls (unique.drop (mid - 1)) (halved.drop (mid - 1)))) := by
        rw [leafResults, List.flatMap_append]
        exact ha.append hb
      rw [← hhalved] at hperm ⊢
      exact ⟨restoreWeight_wp hw hperm, restoreWeight_wp hw (List.perm_append_comm.trans hperm)⟩

end Sequential

/-- The first and last point of every leaf of a range of `L` points. -/
def leafBounds (L : ℕ) : List (ℕ × ℕ) :=
  if _h : WORKSIZE < L then
    leafBounds (L / 2) ++
      (leafBounds (L - (L / 2 - 1))).map fun p => (p.1 + (L / 2 - 1), p.2 + (L / 2 - 1))
  else [(1, L)]
termination_by L
decreasing_by
  all_goals
    simp only [WORKSIZE] at *
    omega

/-- Leaves of at most `WORKSIZE` points that cover `1..L`, where neighbours
share one point. -/
structure LeafSplit (L : ℕ) (bounds : List (ℕ × ℕ)) : Prop where
  first : bounds.head?.map Prod.fst = some 1
  last : bounds.getLast?.map Prod.snd = some L
  size : ∀ p ∈ bounds, 1 ≤ p.1 ∧ p.1 ≤ p.2 ∧ p.2 ≤ L ∧ p.2 + 1 - p.1 ≤ WORKSIZE
  wide : 2 ≤ L → ∀ p ∈ bounds, p.1 < p.2
  share : bounds.IsChain fun p q => p.2 = q.1
  cover : ∀ k, 1 ≤ k → k ≤ L → ∃ p ∈ bounds, p.1 ≤ k ∧ k ≤ p.2

theorem LeafSplit.single {L : ℕ} (hpos : 1 ≤ L) (hsmall : L ≤ WORKSIZE) :
    LeafSplit L [(1, L)] where
  first := rfl
  last := rfl
  size p hp := by
    rw [List.mem_singleton.mp hp]
    exact ⟨le_rfl, hpos, le_rfl, by simpa using hsmall⟩
  wide htwo p hp := by
    rw [List.mem_singleton.mp hp]
    exact htwo
  share := .singleton _
  cover k h₁ h₂ := ⟨_, List.mem_singleton_self _, h₁, h₂⟩

theorem LeafSplit.append {mid rest : ℕ} {left right : List (ℕ × ℕ)} (hl : LeafSplit mid left)
    (hr : LeafSplit rest right) (hmid : 2 ≤ mid) (hrest : 2 ≤ rest) :
    LeafSplit (mid - 1 + rest)
      (left ++ right.map fun p => (p.1 + (mid - 1), p.2 + (mid - 1))) where
  first := by
    obtain ⟨p, hp, hp₁⟩ := Option.map_eq_some_iff.mp hl.first
    rw [List.head?_append, hp]
    simp [hp₁]
  last := by
    obtain ⟨p, hp, hp₂⟩ := Option.map_eq_some_iff.mp hr.last
    rw [List.getLast?_append, List.getLast?_map, hp]
    simp [hp₂, Nat.add_comm]
  size p hp := by
    obtain hp | hp := List.mem_append.mp hp
    · obtain ⟨h₁, h₂, h₃, h₄⟩ := hl.size p hp
      exact ⟨h₁, h₂, by omega, h₄⟩
    · obtain ⟨q, hq, rfl⟩ := List.mem_map.mp hp
      obtain ⟨h₁, h₂, h₃, h₄⟩ := hr.size q hq
      dsimp only
      omega
  wide _ p hp := by
    obtain hp | hp := List.mem_append.mp hp
    · exact hl.wide hmid p hp
    · obtain ⟨q, hq, rfl⟩ := List.mem_map.mp hp
      have := hr.wide hrest q hq
      dsimp only
      omega
  share := by
    refine hl.share.append (List.isChain_map _ |>.mpr (hr.share.imp fun p q h => ?_)) ?_
    · dsimp only
      omega
    · intro p hp q hq
      rw [List.head?_map] at hq
      obtain ⟨q', hq', rfl⟩ := Option.map_eq_some_iff.mp hq
      have hlast := hl.last
      have hfirst := hr.first
      rw [hp] at hlast
      rw [hq'] at hfirst
      simp only [Option.map_some, Option.some.injEq] at hlast hfirst
      dsimp only
      omega
  cover k h₁ h₂ := by
    by_cases hk : k ≤ mid
    · obtain ⟨p, hp, hpk⟩ := hl.cover k h₁ hk
      exact ⟨p, List.mem_append_left _ hp, hpk⟩
    · obtain ⟨p, hp, hpk⟩ := hr.cover (k - (mid - 1)) (by omega) (by omega)
      refine ⟨_, List.mem_append_right _ (List.mem_map_of_mem hp), ?_⟩
      dsimp only
      omega

theorem leafBounds_split (L : ℕ) (hpos : 1 ≤ L) : LeafSplit L (leafBounds L) := by
  induction L using Nat.strong_induction_on with
  | _ L ih =>
    rw [leafBounds]
    split_ifs with hlarge
    · simp only [WORKSIZE] at hlarge
      have hsplit := (ih (L / 2) (by omega) (by omega)).append
        (ih (L - (L / 2 - 1)) (by omega) (by omega)) (by omega) (by omega)
      rwa [show L / 2 - 1 + (L - (L / 2 - 1)) = L by omega] at hsplit
    · exact .single hpos (not_lt.mp hlarge)

section Calls

variable [Field K]

/-- The weight of point `k` in the leaf `p` of a range of `L` points: half where
another leaf shares the point. -/
def leafWeight (L : ℕ) (weights : List K) (p : ℕ × ℕ) (k : ℕ) : K :=
  let w := (elem weights k).getD 0
  if (k = p.1 ∧ p.1 ≠ 1) ∨ (k = p.2 ∧ p.2 ≠ L) then w / 2 else w

def leafCall (unique weights : List K) (p : ℕ × ℕ) : List K × List K :=
  (part unique p.1 p.2,
    (List.range' p.1 (p.2 + 1 - p.1)).map (leafWeight unique.length weights p))

theorem leafCall_left {unique weights : List K} {mid : ℕ} {w : K} {p : ℕ × ℕ}
    (hmid : mid < unique.length) (hw : elem weights mid = some w) (hp : p.1 < p.2)
    (hp' : p.2 ≤ mid) :
    leafCall (unique.take mid) ((weights.set (mid - 1) (w / 2)).take mid) p =
      leafCall unique weights p := by
  have hlen : (unique.take mid).length = mid := by
    rw [List.length_take]
    omega
  rw [leafCall, leafCall, hlen, part, part, List.take_take, min_eq_left hp']
  congr 1
  apply List.map_congr_left
  intro k hk
  obtain ⟨h₁, h₂⟩ := List.mem_range'_1.mp hk
  rw [leafWeight, leafWeight, elem_take (by omega), elem_halved hw]
  by_cases hkm : k = mid
  · rw [if_pos hkm, hkm, hw, if_neg (by omega), if_pos (by omega)]
    rfl
  · rw [if_neg hkm]
    congr 1
    rw [eq_iff_iff]
    omega

theorem leafCall_right {unique weights : List K} {mid : ℕ} {w : K} {p : ℕ × ℕ}
    (hmid : 2 ≤ mid) (hle : mid ≤ unique.length) (hw : elem weights mid = some w)
    (hpos : 1 ≤ p.1) (hp : p.1 < p.2) :
    leafCall (unique.drop (mid - 1)) ((weights.set (mid - 1) (w / 2)).drop (mid - 1)) p =
      leafCall unique weights (p.1 + (mid - 1), p.2 + (mid - 1)) := by
  have hpart : part (unique.drop (mid - 1)) p.1 p.2 =
      part unique (p.1 + (mid - 1)) (p.2 + (mid - 1)) := by
    rw [part, part, List.take_drop, List.drop_drop, Nat.add_comm p.2,
      show mid - 1 + (p.1 - 1) = p.1 + (mid - 1) - 1 by omega]
  have hrange : List.range' (p.1 + (mid - 1)) (p.2 + 1 - p.1) =
      (List.range' p.1 (p.2 + 1 - p.1)).map (mid - 1 + ·) := by
    rw [List.map_add_range', Nat.add_comm]
  rw [leafCall, leafCall, hpart]
  dsimp only
  rw [show p.2 + (mid - 1) + 1 - (p.1 + (mid - 1)) = p.2 + 1 - p.1 by omega, hrange,
    List.map_map, List.length_drop]
  congr 1
  apply List.map_congr_left
  intro k hk
  obtain ⟨h₁, h₂⟩ := List.mem_range'_1.mp hk
  rw [Function.comp_apply, leafWeight, leafWeight, elem_drop _ _ (by omega), elem_halved hw]
  dsimp only
  by_cases hkm : mid - 1 + k = mid
  · rw [if_pos hkm, hkm, hw, if_neg (by omega), if_pos (by omega)]
    rfl
  · rw [if_neg hkm]
    congr 1
    rw [eq_iff_iff]
    omega

theorem leafCall_whole {unique weights : List K} (hlen : unique.length = weights.length) :
    leafCall unique weights (1, unique.length) = (unique, weights) := by
  rw [leafCall, part, List.take_length, Nat.sub_self, List.drop_zero, Nat.add_sub_cancel]
  congr 1
  apply ext_elem
  intro k
  by_cases hk : 1 ≤ k ∧ k ≤ unique.length
  · obtain ⟨w, hw⟩ := exists_elem (a := weights) hk.1 (by omega)
    rw [elem_map, elem_range' hk.1 hk.2, Option.map_some, leafWeight, if_neg (by omega), hw,
      Option.getD_some]
  · rw [elem_eq_none_iff.mpr (by rw [List.length_map, List.length_range']; omega),
      elem_eq_none_iff.mpr (by omega)]

/-- The calls of the recursion, leaf by leaf: a shared point is halved once,
however deep the leaf lies. -/
theorem leafCalls_eq {unique weights : List K} (hlen : unique.length = weights.length) :
    leafCalls unique weights = (leafBounds unique.length).map (leafCall unique weights) := by
  refine halves_induction (motive := fun unique weights =>
    leafCalls unique weights = (leafBounds unique.length).map (leafCall unique weights)) ?_ ?_ hlen
  · intro unique weights hlen hsmall
    rw [leafCalls_of_le hsmall, leafBounds, dif_neg (not_lt.mpr hsmall), List.map_singleton,
      leafCall_whole hlen]
  · intro unique weights mid w hlen hlarge hmid hw htake hdrop hcalls hl hr
    have hsize : 2048 < unique.length := hlarge
    rw [leafBounds, dif_pos hlarge, hmid, List.map_append, List.map_map, hcalls, hl, hr, htake,
      hdrop]
    have hleft := leafBounds_split mid (by omega)
    have hright := leafBounds_split (unique.length - (mid - 1)) (by omega)
    congr 1
    · apply List.map_congr_left
      intro p hp
      exact leafCall_left (by omega) hw (hleft.wide (by omega) p hp) (hleft.size p hp).2.2.1
    · apply List.map_congr_left
      intro p hp
      exact leafCall_right (by omega) (by omega) hw (hright.size p hp).1
        (hright.wide (by omega) p hp)

theorem halved_sum [CharZero K] {weights : List K} {mid : ℕ} {w : K}
    (hw : elem weights mid = some w) :
    ((weights.set (mid - 1) (w / 2)).take mid).sum +
      ((weights.set (mid - 1) (w / 2)).drop (mid - 1)).sum = weights.sum := by
  obtain ⟨before, after, rfl, rfl⟩ : ∃ before after, weights = before ++ w :: after ∧
      mid = before.length + 1 := by
    obtain ⟨hmid, rfl⟩ := elem_eq_some_iff.mp hw
    refine ⟨weights.take (mid - 1), weights.drop (mid - 1 + 1), ?_, ?_⟩
    · rw [← List.drop_eq_getElem_cons, List.take_append_drop]
    · rw [List.length_take]
      omega
  have hset : (before ++ w :: after).set before.length (w / 2) = before ++ w / 2 :: after := by
    simp
  have htake : (before ++ w / 2 :: after).take (before.length + 1) = before ++ [w / 2] := by
    rw [List.take_append]
    simp
  rw [Nat.add_sub_cancel, hset, htake, List.drop_left]
  simp only [List.sum_append, List.sum_cons, List.sum_nil]
  rw [add_zero, add_assoc, ← add_assoc (w / 2), add_halves]

theorem leafCalls_sum [CharZero K] {unique weights : List K}
    (hlen : unique.length = weights.length) :
    ((leafCalls unique weights).map fun c => c.2.sum).sum = weights.sum := by
  refine halves_induction (motive := fun unique weights =>
    ((leafCalls unique weights).map fun c => c.2.sum).sum = weights.sum) ?_ ?_ hlen
  · intro unique weights _ hsmall
    rw [leafCalls_of_le hsmall, List.map_singleton, List.sum_singleton]
  · intro unique weights mid w _ _ _ hw _ _ hcalls hl hr
    rw [hcalls, List.map_append, List.sum_append, hl, hr]
    exact halved_sum hw

end Calls

section Conquer

variable [Field K] [LinearOrder K] [IsStrictOrderedRing K] (log : K → K) (dt : K)

omit [IsStrictOrderedRing K] in
theorem leafCalls_increasing {unique weights : List K} (inc : unique.Pairwise (· < ·))
    (hpos : 1 ≤ unique.length) (hlen : unique.length = weights.length) :
    ∀ c ∈ leafCalls unique weights,
      c.1.Pairwise (· < ·) ∧ c.1 ≠ [] ∧ c.1.length = c.2.length := by
  rw [leafCalls_eq hlen]
  intro c hc
  obtain ⟨p, hp, rfl⟩ := List.mem_map.mp hc
  obtain ⟨h₁, h₂, h₃, _⟩ := (leafBounds_split unique.length hpos).size p hp
  have hpart : (part unique p.1 p.2).length = p.2 + 1 - p.1 := by
    rw [part, List.length_drop, List.length_take]
    omega
  refine ⟨inc.sublist ((List.drop_sublist _ _).trans (List.take_sublist _ _)), ?_, ?_⟩
  · exact List.ne_nil_of_length_pos (by rw [leafCall, hpart]; omega)
  · rw [leafCall, hpart, List.length_map, List.length_range']

theorem divideBayesianBinning_perm (leftFirst : List Bool → Bool) (path : List Bool)
    {unique weights : List K} (hlen : unique.length = weights.length)
    (hleaf : ∀ c ∈ leafCalls unique weights, (conquerBayesianBinning log c.1 c.2 dt).isSome) :
    ∃ changePoints, divideBayesianBinning log leftFirst dt path unique weights =
        some (changePoints, weights) ∧
      changePoints.Perm (leafResults (conquerBayesianBinning log · · dt)
        (leafCalls unique weights)) := by
  refine halves_induction (motive := fun unique weights => ∀ path,
    (∀ c ∈ leafCalls unique weights, (conquerBayesianBinning log c.1 c.2 dt).isSome) →
      ∃ changePoints, divideBayesianBinning log leftFirst dt path unique weights =
          some (changePoints, weights) ∧
        changePoints.Perm (leafResults (conquerBayesianBinning log · · dt)
          (leafCalls unique weights))) ?_ ?_ hlen path hleaf
  · intro unique weights _ hsmall path hleaf
    rw [leafCalls_of_le hsmall] at hleaf ⊢
    obtain ⟨changePoints, hconquer⟩ :=
      Option.isSome_iff_exists.mp (hleaf (unique, weights) (List.mem_singleton_self _))
    refine ⟨changePoints, ?_, ?_⟩
    · rw [divideBayesianBinning, dif_neg (not_lt.mpr hsmall), hconquer]
      rfl
    · simp [leafResults, hconquer]
  · intro unique weights mid w hlen hlarge hmid hw _ _ hcalls hl hr path hleaf
    rw [hcalls] at hleaf ⊢
    obtain ⟨left, hleft, hleftPerm⟩ := hl (true :: path)
      fun c hc => hleaf c (List.mem_append_left _ hc)
    obtain ⟨right, hright, hrightPerm⟩ := hr (false :: path)
      fun c hc => hleaf c (List.mem_append_right _ hc)
    refine ⟨if leftFirst path then left ++ right else right ++ left, ?_, ?_⟩
    · rw [divideBayesianBinning, dif_pos hlarge]
      simp only [hmid, halveAt_eq hw, hleft, hright, restoreAt_halved hw, Option.bind_eq_bind,
        Option.bind_some, List.take_append_drop]
    · have happend := hleftPerm.append hrightPerm
      rw [leafResults, List.flatMap_append]
      split_ifs
      · exact happend
      · exact List.perm_append_comm.trans happend

def recordCall (unique weights : List K) : Option (List (List K × List K)) :=
  some [(unique, weights)]

end Conquer

def manyValues : List ℝ := (List.range 3000).map Nat.cast

def evenWeights : List ℝ := List.replicate 3000 (Nat.cast 20)

theorem leafBounds_two : leafBounds 3000 = [(1, 1500), (1500, 3000)] := by
  have hleft : leafBounds 1500 = [(1, 1500)] := by
    rw [leafBounds, dif_neg (by decide)]
  have hright : leafBounds 1501 = [(1, 1501)] := by
    rw [leafBounds, dif_neg (by decide)]
  rw [leafBounds, dif_pos (by decide)]
  simp [hleft, hright]

theorem elem_evenWeights {k : ℕ} (h₁ : 1 ≤ k) (h₂ : k ≤ 3000) : elem evenWeights k = some 20 := by
  obtain ⟨w, hw⟩ := exists_elem (a := evenWeights) h₁ (by rwa [evenWeights, List.length_replicate])
  rw [hw, List.eq_of_mem_replicate (mem_of_elem hw), Nat.cast_ofNat]

end XWebQL.DivideTasks
