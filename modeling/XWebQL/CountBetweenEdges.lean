import XWebQL.RunLength

/-! The one-pass counting loop `count_between_edges` and `cumsum`.
The pointer `i` of the loop never moves backwards. On sorted data and sorted
edges it stops, for every value, at the first closed interval that contains
the value (`firstBlock`), so that the counts are the weights tallied by that
interval. The last interval also takes every value the pointer runs past. -/

namespace XWebQL.CountBetweenEdges

open FortranArray

variable {K : Type}

section Pointer

variable [LinearOrder K]

/-- `do while (.not. (v .ge. edges(i) .and. v .le. edges(i+1)) .and. i .lt. len-1)`.
Both edges are read before the bound on `i` is looked at. -/
def advance (edges : List K) (v : K) (i : ℕ) : Option ℕ := do
  let lo ← elem edges i
  let hi ← elem edges (i + 1)
  if _h : ¬ (lo ≤ v ∧ v ≤ hi) ∧ i < edges.length - 1 then advance edges v (i + 1)
  else some i
termination_by edges.length - i

/-- The value lies in the closed interval from edge `m` to edge `m+1`. -/
def InBlock (edges : List K) (m : ℕ) (v : K) : Prop :=
  ∃ lo hi, elem edges m = some lo ∧ elem edges (m + 1) = some hi ∧ lo ≤ v ∧ v ≤ hi

def firstBlock : List K → K → ℕ
  | lo :: hi :: rest, v => if lo ≤ v ∧ v ≤ hi then 1 else firstBlock (hi :: rest) v + 1
  | _, _ => 1

theorem inBlock_range {edges : List K} {m : ℕ} {v : K} (h : InBlock edges m v) :
    1 ≤ m ∧ m + 1 ≤ edges.length := by
  obtain ⟨lo, hi, hlo, hhi, _⟩ := h
  exact ⟨(elem_range hlo).1, (elem_range hhi).2⟩

theorem inBlock_cons {a : K} {edges : List K} {m : ℕ} {v : K} (hm : 1 ≤ m) :
    InBlock (a :: edges) (m + 1) v ↔ InBlock edges m v := by
  obtain ⟨m, rfl⟩ := Nat.exists_eq_add_of_le' hm
  simp [InBlock]

theorem firstBlock_spec (edges : List K) (v : K) (covered : ∃ m, InBlock edges m v) :
    InBlock edges (firstBlock edges v) v ∧
      ∀ m, m < firstBlock edges v → ¬ InBlock edges m v := by
  induction edges with
  | nil =>
    obtain ⟨m, lo, hi, hlo, _⟩ := covered
    exact absurd (elem_range hlo).2 (by have := (elem_range hlo).1; simp; omega)
  | cons lo rest ih =>
    cases rest with
    | nil =>
      obtain ⟨m, hm⟩ := covered
      have := inBlock_range hm
      simp at this
      omega
    | cons hi rest =>
      rw [firstBlock]
      split_ifs with hin
      · refine ⟨⟨lo, hi, rfl, rfl, hin⟩, fun m hm hb => ?_⟩
        have := inBlock_range hb
        omega
      · have hone : ¬ InBlock (lo :: hi :: rest) 1 v := by
          rintro ⟨lo', hi', hlo, hhi, hv⟩
          obtain rfl : lo = lo' := Option.some.inj hlo
          obtain rfl : hi = hi' := Option.some.inj hhi
          exact hin hv
        have hcovered : ∃ m, InBlock (hi :: rest) m v := by
          obtain ⟨m, hm⟩ := covered
          have hrange := inBlock_range hm
          obtain rfl | hlt := hrange.1.eq_or_lt
          · exact absurd hm hone
          · obtain ⟨m, rfl⟩ := Nat.exists_eq_add_of_le' hrange.1
            exact ⟨m, (inBlock_cons (by omega)).mp hm⟩
        obtain ⟨hfirst, hleast⟩ := ih hcovered
        have hpos := (inBlock_range hfirst).1
        refine ⟨(inBlock_cons hpos).mpr hfirst, fun m hm hb => ?_⟩
        have hrange := inBlock_range hb
        obtain rfl | hlt := hrange.1.eq_or_lt
        · exact hone hb
        · obtain ⟨m, rfl⟩ := Nat.exists_eq_add_of_le' hrange.1
          exact hleast m (by omega) ((inBlock_cons (by omega)).mp hb)

theorem covered_of_between {edges : List K} {v lo hi : K} (htwo : 2 ≤ edges.length)
    (hlo : edges.head? = some lo) (hhi : edges.getLast? = some hi) (h₁ : lo ≤ v)
    (h₂ : v ≤ hi) : ∃ m, InBlock edges m v := by
  induction edges generalizing lo with
  | nil => simp at htwo
  | cons a rest ih =>
    cases rest with
    | nil => simp at htwo
    | cons b rest =>
      obtain rfl : a = lo := Option.some.inj hlo
      by_cases hvb : v ≤ b
      · exact ⟨1, a, b, rfl, rfl, h₁, hvb⟩
      · cases rest with
        | nil =>
          obtain rfl : b = hi := by simpa using hhi
          exact absurd h₂ hvb
        | cons c rest =>
          obtain ⟨m, hm⟩ := @ih b (by simp) rfl (by simpa using hhi) (not_le.mp hvb).le
          exact ⟨m + 1, (inBlock_cons (inBlock_range hm).1).mpr hm⟩

theorem firstBlock_mono {edges : List K} (sorted : edges.Pairwise (· ≤ ·)) {u v : K}
    (huv : u ≤ v) (hu : ∃ m, InBlock edges m u) (hv : ∃ m, InBlock edges m v) :
    firstBlock edges u ≤ firstBlock edges v := by
  obtain ⟨⟨lo, _, hlo, _, hlou, _⟩, hleast⟩ := firstBlock_spec edges u hu
  obtain ⟨⟨lo', hi', hlo', hhi', _, hvhi⟩, _⟩ := firstBlock_spec edges v hv
  by_contra hlt
  rw [not_le] at hlt
  -- the block of `v` ends at or before the block of `u` starts, so it contains `u` as well
  have hhilo : hi' ≤ lo := by
    obtain heq | hlt' := (Nat.succ_le_of_lt hlt).eq_or_lt
    · rw [Nat.succ_eq_add_one] at heq
      rw [heq, hlo] at hhi'
      exact (Option.some.inj hhi').ge
    · exact pairwise_iff_elem.mp sorted _ _ hi' lo hlt' hhi' hlo
  have hlohi : lo' ≤ hi' := pairwise_iff_elem.mp sorted _ _ lo' hi' (by omega) hlo' hhi'
  exact hleast _ hlt ⟨lo', hi', hlo', hhi', hlohi.trans (hhilo.trans hlou), huv.trans hvhi⟩

theorem advance_eq {edges : List K} {v lo hi : K} {i : ℕ} (hlo : elem edges i = some lo)
    (hhi : elem edges (i + 1) = some hi) :
    advance edges v i = if ¬ (lo ≤ v ∧ v ≤ hi) ∧ i < edges.length - 1
      then advance edges v (i + 1) else some i := by
  rw [advance, hlo, hhi]
  simp only [Option.bind_eq_bind, Option.bind_some, dite_eq_ite]

theorem advance_spec (edges : List K) (v : K) (i : ℕ) (hi₁ : 1 ≤ i)
    (hi₂ : i + 1 ≤ edges.length) :
    ∃ j, advance edges v i = some j ∧ i ≤ j ∧ j + 1 ≤ edges.length ∧
      (∀ m, i ≤ m → m < j → ¬ InBlock edges m v) ∧
      (InBlock edges j v ∨ j = edges.length - 1) := by
  obtain ⟨d, hd⟩ := Nat.exists_eq_add_of_le hi₂
  induction d generalizing i with
  | zero =>
    obtain ⟨lo, hlo⟩ := exists_elem (a := edges) hi₁ (by omega)
    obtain ⟨hi, hhi⟩ := exists_elem (a := edges) (i := i + 1) (by omega) (by omega)
    refine ⟨i, ?_, le_rfl, hi₂, fun m h₁ h₂ => absurd h₁ (by omega), .inr (by omega)⟩
    rw [advance_eq hlo hhi, if_neg (by omega)]
  | succ d ih =>
    obtain ⟨lo, hlo⟩ := exists_elem (a := edges) hi₁ (by omega)
    obtain ⟨hi, hhi⟩ := exists_elem (a := edges) (i := i + 1) (by omega) (by omega)
    rw [advance_eq hlo hhi]
    by_cases hin : lo ≤ v ∧ v ≤ hi
    · rw [if_neg (fun h => h.1 hin)]
      exact ⟨i, rfl, le_rfl, hi₂, fun m h₁ h₂ => absurd h₁ (by omega),
        .inl ⟨lo, hi, hlo, hhi, hin⟩⟩
    · obtain ⟨j, hj, hij, hjl, hskip, hstop⟩ := ih (i + 1) (by omega) (by omega) (by omega)
      refine ⟨j, by rw [if_pos ⟨hin, by omega⟩, hj], by omega, hjl, ?_, hstop⟩
      intro m hm hmj hb
      obtain rfl | hlt := hm.eq_or_lt
      · obtain ⟨lo', hi', hlo', hhi', hv⟩ := hb
        obtain rfl : lo' = lo := Option.some.inj (hlo'.symm.trans hlo)
        obtain rfl : hi' = hi := Option.some.inj (hhi'.symm.trans hhi)
        exact hin hv
      · exact hskip m hlt hmj hb

/-- A pointer that has not passed the first block of a value stops there. -/
theorem advance_eq_firstBlock {edges : List K} {v : K} {i : ℕ}
    (covered : ∃ m, InBlock edges m v) (hi₁ : 1 ≤ i) (hi₂ : i ≤ firstBlock edges v) :
    advance edges v i = some (firstBlock edges v) := by
  obtain ⟨hfirst, hleast⟩ := firstBlock_spec edges v covered
  have hrange := inBlock_range hfirst
  obtain ⟨j, hj, hij, hjl, hskip, hstop⟩ := advance_spec edges v i hi₁ (by omega)
  suffices j = firstBlock edges v by rw [hj, this]
  obtain hlt | heq | hgt := lt_trichotomy j (firstBlock edges v)
  · obtain hb | hlast := hstop
    · exact absurd hb (hleast j hlt)
    · omega
  · exact heq
  · exact absurd hfirst (hskip _ hi₂ hgt)

end Pointer

section Sums

variable [Field K]

/-- `counts(m) = counts(m) + w` -/
def addTo (counts : List K) (m : ℕ) (w : K) : Option (List K) := do
  let c ← elem counts m
  put counts m (c + w)

/-- The weights of the values that `owner` sends to `j`. -/
def tally (owner : K → ℕ) (j : ℕ) : List K → List K → K
  | v :: x, w :: weights => (if owner v = j then w else 0) + tally owner j x weights
  | _, _ => 0

def cumsumLoop (prev : K) : List K → List K
  | [] => []
  | v :: rest => (prev + v) :: cumsumLoop (prev + v) rest

/-- `x(i) = x(i-1) + x(i)` for `i = 2, 3, ...` -/
def cumsum : List K → List K
  | [] => []
  | v :: rest => v :: cumsumLoop v rest

theorem addTo_spec (counts : List K) {m : ℕ} (w : K) (h₁ : 1 ≤ m) (h₂ : m ≤ counts.length) :
    ∃ counts', addTo counts m w = some counts' ∧ counts'.length = counts.length ∧
      counts'.sum = counts.sum + w ∧
      ∀ k c, elem counts k = some c →
        elem counts' k = some (c + if m = k then w else 0) := by
  obtain ⟨c₀, hc₀⟩ := exists_elem h₁ h₂
  have hput := put_eq_some (a := counts) (c₀ + w) h₁ h₂
  refine ⟨_, by rw [addTo, hc₀, Option.bind_eq_bind, Option.bind_some, hput],
    length_put hput, ?_, ?_⟩
  · obtain ⟨_, hget⟩ := elem_eq_some_iff.mp hc₀
    rw [List.sum_set', dif_pos (by omega), hget, neg_add_cancel_left]
  · intro k c hc
    rw [elem_put hput]
    by_cases hk : k = m
    · subst hk
      obtain rfl : c = c₀ := Option.some.inj (hc.symm.trans hc₀)
      simp
    · rw [if_neg hk, hc, if_neg (Ne.symm hk), add_zero]

theorem tally_map (owner : K → ℕ) (j : ℕ) (f : K → K) (x : List K) :
    tally owner j x (x.map f) = ((x.filter fun v => owner v = j).map f).sum := by
  induction x with
  | nil => rfl
  | cons v x ih =>
    rw [List.map_cons, tally, ih]
    by_cases h : owner v = j <;> simp [h]

theorem tally_numbered (owner : K → ℕ) (d j : ℕ) (x weights : List K)
    (hw : x.length = weights.length) (numbered : ∀ k v, elem x k = some v → owner v = k + d) :
    tally owner j x weights = if j ≤ d then 0 else (elem weights (j - d)).getD 0 := by
  induction x generalizing d weights with
  | nil =>
    obtain rfl : weights = [] := List.length_eq_zero_iff.mp hw.symm
    have hnone : elem ([] : List K) (j - d) = none := by
      cases j - d <;> rfl
    simp [tally, hnone]
  | cons v x ih =>
    cases weights with
    | nil => simp at hw
    | cons w weights =>
      have hv := numbered 1 v rfl
      have hrest : ∀ k u, elem x k = some u → owner u = k + (d + 1) := by
        intro k u hu
        have hk := (elem_range hu).1
        obtain ⟨k, rfl⟩ := Nat.exists_eq_add_of_le' hk
        rw [numbered (k + 1 + 1) u (by simpa using hu)]
        omega
      rw [tally, ih (d + 1) weights (by simpa using hw) hrest, hv]
      obtain hlt | rfl | hgt := lt_trichotomy j (d + 1)
      · simp [show ¬ (1 + d = j) by omega, show j ≤ d by omega, show j ≤ d + 1 by omega]
      · simp [Nat.add_comm 1 d]
      · obtain ⟨m, rfl⟩ := Nat.exists_eq_add_of_lt hgt
        have hsub : d + 1 + m + 1 - d = m + 1 + 1 := by omega
        have hsub' : d + 1 + m + 1 - (d + 1) = m + 1 := by omega
        simp [show ¬ (1 + d = d + 1 + m + 1) by omega, show ¬ (d + 1 + m + 1 ≤ d) by omega,
          show ¬ (d + 1 + m + 1 ≤ d + 1) by omega, hsub, hsub']

theorem elem_cumsumLoop (prev : K) (x : List K) (k : ℕ) (hk : k < x.length) :
    elem (cumsumLoop prev x) (k + 1) = some (prev + (x.take (k + 1)).sum) := by
  induction x generalizing prev k with
  | nil => simp at hk
  | cons v x ih =>
    cases k with
    | zero => simp [cumsumLoop]
    | succ k =>
      have step := ih (prev + v) k (by simpa using hk)
      simp only [cumsumLoop, elem_succ, List.getElem?_cons_succ, List.take_succ_cons,
        List.sum_cons] at step ⊢
      rw [step, add_assoc]

theorem elem_cumsum (x : List K) (k : ℕ) (h₁ : 1 ≤ k) (h₂ : k ≤ x.length) :
    elem (cumsum x) k = some (x.take k).sum := by
  obtain ⟨k, rfl⟩ := Nat.exists_eq_add_of_le' h₁
  cases x with
  | nil => simp at h₂
  | cons v x =>
    cases k with
    | zero => simp [cumsum]
    | succ k =>
      rw [cumsum, elem_succ, List.getElem?_cons_succ, ← elem_succ,
        elem_cumsumLoop v x k (by rw [List.length_cons] at h₂; omega)]
      simp

theorem length_cumsum (x : List K) : (cumsum x).length = x.length := by
  have loop : ∀ (prev : K) (x : List K), (cumsumLoop prev x).length = x.length := by
    intro prev x
    induction x generalizing prev with
    | nil => rfl
    | cons v x ih => simp [cumsumLoop, ih]
  cases x with
  | nil => rfl
  | cons v x => simp [cumsum, loop]

end Sums

variable [Field K] [LinearOrder K]

/-- The loop over `x(k)` and `weights(k)`. -/
def countLoop (edges : List K) (shift : ℕ) : ℕ → List K → List K → List K → Option (List K)
  | _, [], _, counts => some counts
  | i, v :: x, weights, counts => do
    let i ← advance edges v i
    let w ← elem weights 1
    let counts ← addTo counts (i + shift) w
    countLoop edges shift i x weights.tail counts

def countBetweenEdges (x edges weights : List K) (shift : ℕ) : Option (List K) :=
  countLoop edges shift 1 x weights (List.replicate (edges.length - 1 + shift) 0)

/-- With two edges or more every access of the counting loop is in bounds, and
the counts add up to the weights, whatever the order of the data. -/
theorem countLoop_total (edges : List K) (shift i : ℕ) (x weights counts : List K)
    (hi₁ : 1 ≤ i) (hi₂ : i + 1 ≤ edges.length) (hw : x.length = weights.length)
    (hc : counts.length = edges.length - 1 + shift) :
    ∃ counts', countLoop edges shift i x weights counts = some counts' ∧
      counts'.length = counts.length ∧ counts'.sum = counts.sum + weights.sum := by
  induction x generalizing i weights counts with
  | nil =>
    obtain rfl : weights = [] := List.length_eq_zero_iff.mp hw.symm
    exact ⟨counts, rfl, rfl, by simp⟩
  | cons v x ih =>
    cases weights with
    | nil => simp at hw
    | cons w weights =>
      obtain ⟨j, hj, hij, hjl, _⟩ := advance_spec edges v i hi₁ hi₂
      obtain ⟨c₁, hadd, hlen, hsum, _⟩ :=
        addTo_spec counts (m := j + shift) w (by omega) (by omega)
      obtain ⟨c₂, hloop, hlen', hsum'⟩ := ih j weights c₁ (by omega) hjl (by simpa using hw)
        (by rw [hlen, hc])
      refine ⟨c₂, ?_, hlen'.trans hlen, by rw [hsum', hsum, List.sum_cons, add_assoc]⟩
      simp only [countLoop, hj, Option.bind_eq_bind, Option.bind_some, elem_succ,
        List.getElem?_cons_zero, hadd, List.tail_cons, hloop]

/-- A single edge has no second one to compare with: the loop fails at once. -/
theorem countBetweenEdges_eq_none {x edges weights : List K} (shift : ℕ) (hx : x ≠ [])
    (hone : edges.length ≤ 1) : countBetweenEdges x edges weights shift = none := by
  cases x with
  | nil => exact absurd rfl hx
  | cons v x =>
    have hhi : elem edges 2 = none := elem_eq_none_iff.mpr (.inr (by omega))
    rw [countBetweenEdges, countLoop, advance, hhi]
    cases elem edges 1 <;> rfl

theorem countBetweenEdges_total (x edges weights : List K) (shift : ℕ)
    (htwo : 2 ≤ edges.length) (hw : x.length = weights.length) :
    ∃ counts, countBetweenEdges x edges weights shift = some counts ∧
      counts.length = edges.length - 1 + shift ∧ counts.sum = weights.sum := by
  obtain ⟨counts, hloop, hlen, hsum⟩ := countLoop_total edges shift 1 x weights
    (List.replicate (edges.length - 1 + shift) 0) le_rfl htwo hw (by simp)
  exact ⟨counts, hloop, by simpa using hlen, by simpa using hsum⟩

theorem countLoop_tally {edges : List K} (sorted : edges.Pairwise (· ≤ ·)) (shift i : ℕ)
    (x weights counts : List K) (hi₁ : 1 ≤ i) (hw : x.length = weights.length)
    (hc : counts.length = edges.length - 1 + shift) (hx : x.Pairwise (· ≤ ·))
    (covered : ∀ v ∈ x, ∃ m, InBlock edges m v) (hi : ∀ v ∈ x, i ≤ firstBlock edges v) :
    ∃ counts', countLoop edges shift i x weights counts = some counts' ∧
      ∀ k c, elem counts k = some c →
        elem counts' k = some (c + tally (fun v => firstBlock edges v + shift) k x weights) := by
  induction x generalizing i weights counts with
  | nil =>
    refine ⟨counts, rfl, fun k c hk => ?_⟩
    rw [tally, add_zero, hk]
    simp
  | cons v x ih =>
    cases weights with
    | nil => simp at hw
    | cons w weights =>
      have hv := covered v (by simp)
      have hadvance := advance_eq_firstBlock hv hi₁ (hi v (by simp))
      have hrange := inBlock_range (firstBlock_spec edges v hv).1
      obtain ⟨c₁, hadd, hlen, _, hread⟩ := addTo_spec counts
        (m := firstBlock edges v + shift) w (by omega) (by omega)
      obtain ⟨c₂, hloop, hread'⟩ := ih (firstBlock edges v) weights c₁ (by omega)
        (by simpa using hw) (by rw [hlen, hc]) hx.of_cons
        (fun u hu => covered u (List.mem_cons_of_mem v hu))
        (fun u hu => firstBlock_mono sorted (List.rel_of_pairwise_cons hx hu) hv
          (covered u (List.mem_cons_of_mem v hu)))
      refine ⟨c₂, ?_, fun k c hk => ?_⟩
      · simp only [countLoop, hadvance, Option.bind_eq_bind, Option.bind_some, elem_succ,
          List.getElem?_cons_zero, hadd, List.tail_cons, hloop]
      · rw [hread' k _ (hread k c hk), tally, add_assoc]

/-- On sorted data covered by sorted edges, the count of block `k` is the total
weight of the values whose first containing block is `k`. -/
theorem countBetweenEdges_tally {x edges weights : List K} (shift : ℕ)
    (sorted : edges.Pairwise (· ≤ ·)) (hw : x.length = weights.length)
    (hx : x.Pairwise (· ≤ ·)) (covered : ∀ v ∈ x, ∃ m, InBlock edges m v) :
    ∃ counts, countBetweenEdges x edges weights shift = some counts ∧
      ∀ k, 1 ≤ k → k ≤ edges.length - 1 + shift →
        elem counts k = some (tally (fun v => firstBlock edges v + shift) k x weights) := by
  obtain ⟨counts, hloop, hread⟩ := countLoop_tally sorted shift 1 x weights
    (List.replicate (edges.length - 1 + shift) 0) le_rfl hw (by simp) hx covered
    (fun v hv => (inBlock_range (firstBlock_spec edges v (covered v hv)).1).1)
  refine ⟨counts, hloop, fun k h₁ h₂ => ?_⟩
  obtain ⟨k, rfl⟩ := Nat.exists_eq_add_of_le' h₁
  rw [hread (k + 1) 0 (by simp only [elem_succ, List.getElem?_replicate]; rw [if_pos (by omega)]),
    zero_add]

end XWebQL.CountBetweenEdges
