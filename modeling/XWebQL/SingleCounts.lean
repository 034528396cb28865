import XWebQL.SingleBinning

/-! What the weights count in single precision.
A weight stops growing where one more is rounded off, and so do the sums of weights.
Below 20 events all of them are exact, and from 20 on they stay at 20 or more. Nothing
overflows, however many events there are. -/

namespace XWebQL.SingleCounts

open FloatFormat FloatFormat.Format FloatArithmetic FloatValues FortranArray SingleBinning
open RunLength (DistinctRev distinctRev_single)

section Constants

theorem precision_eq : (binary32.precision : ℤ) = 24 := rfl

theorem isFinite_natCast {n : ℕ} (hn : n < 2 ^ 24) : binary32.IsFinite n := by
  refine ⟨isFloat_natCast (by decide) hn, ?_⟩
  rw [Nat.abs_cast]
  calc (n : ℚ) < 2 ^ 24 := by exact_mod_cast hn
    _ ≤ 2 ^ binary32.maxExponent := by
      rw [← zpow_natCast]
      exact zpow_le_zpow_right₀ one_le_two (by decide)

theorem real_natCast {n : ℕ} (hn : n < 2 ^ 24) : (real n).Is n :=
  Number.is_ofRat_of_isFinite (isFinite_natCast hn)

theorem real_zero : (real 0).Is 0 := by simpa using real_natCast (n := 0) (by decide)

theorem real_one : (real 1).Is 1 := by simpa using real_natCast (n := 1) (by decide)

theorem minCounts_is : minCounts.Is 20 := by
  show (real 20).Is 20
  simpa using real_natCast (n := 20) (by decide)

end Constants

/-- A sum of weights of `n` events, at most `2 ^ k`. -/
def Counted (k : ℤ) (s : CFloat) (n : ℕ) : Prop :=
  ∃ q, s.Is q ∧ 0 ≤ q ∧ q ≤ 2 ^ k ∧ (n < 20 → q = n) ∧ (20 ≤ n → 20 ≤ q)

variable {k l : ℤ} {s t : CFloat} {n m : ℕ}

theorem counted_zero (k : ℤ) : Counted k (real 0) 0 :=
  ⟨0, real_zero, le_rfl, (zpow_pos two_pos k).le, fun _ => Nat.cast_zero.symm, fun h => by omega⟩

theorem counted_one (hk : 0 ≤ k) : Counted k (real 1) 1 :=
  ⟨1, real_one, zero_le_one, one_le_zpow₀ one_le_two hk, fun _ => Nat.cast_one.symm,
    fun h => by omega⟩

theorem Counted.mono (h : Counted k s n) (hl : k ≤ l) : Counted l s n := by
  obtain ⟨q, hq, hpos, hle, hn⟩ := h
  exact ⟨q, hq, hpos, hle.trans (zpow_le_zpow_right₀ one_le_two hl), hn⟩

theorem Counted.add (hs : Counted (k + 26) s n) (ht : Counted k t m) (hk : 0 ≤ k)
    (hmax : k + 26 < 128) : Counted (k + 26) (s + t) (n + m) := by
  obtain ⟨p, hp, hp₀, hp₁, hn, hn'⟩ := hs
  obtain ⟨q, hq, hq₀, hq₁, hm, hm'⟩ := ht
  have hmin : binary32.minExponent ≤ k + binary32.precision + 2 := by
    rw [precision_eq]
    show (-149 : ℤ) ≤ _
    omega
  have hle : binary32.round (p + q) ≤ 2 ^ (k + 26) := by
    have h := round_add_le (G := binary32.toFormat) (k := k) (p := p) (q := q) hmin
      (by rw [precision_eq, add_assoc]; exact hp₁) hq₁
    rw [precision_eq, add_assoc] at h
    exact h
  have hnonneg : 0 ≤ binary32.round (p + q) := round_nonneg (add_nonneg hp₀ hq₀)
  refine ⟨binary32.round (p + q), ?_, hnonneg, hle, fun hlt => ?_, fun hge => ?_⟩
  · rw [hp.add hq]
    refine Number.is_ofRat ?_
    rw [abs_of_nonneg hnonneg]
    exact hle.trans_lt (zpow_lt_zpow_right₀ one_lt_two hmax)
  · rw [hn (by omega), hm (by omega), ← Nat.cast_add]
    exact round_of_isFloat (isFinite_natCast (by omega)).1
  · have htwenty : binary32.round 20 = 20 := round_of_isFloat
      (by simpa using (isFinite_natCast (n := 20) (by decide)).1)
    have hq20 : 20 ≤ p + q := by
      rcases Nat.lt_or_ge n 20 with hn₀ | hn₀
      · rcases Nat.lt_or_ge m 20 with hm₀ | hm₀
        · rw [hn hn₀, hm hm₀, ← Nat.cast_add]
          exact_mod_cast hge
        · exact le_add_of_nonneg_of_le hp₀ (hm' hm₀)
      · exact le_add_of_le_of_nonneg (hn' hn₀) hq₀
    rw [← htwenty]
    exact round_mono _ hq20

/-- The entries of an array count `n` events together. -/
inductive Total (R : CFloat → ℕ → Prop) : List CFloat → ℕ → Prop
  | nil : Total R [] 0
  | cons {w : CFloat} {ws : List CFloat} {n m : ℕ} :
    R w n → Total R ws m → Total R (w :: ws) (n + m)

section Totals

variable {R T : CFloat → ℕ → Prop} {ws ws' : List CFloat}

theorem Total.append (h : Total R ws n) (h' : Total R ws' m) : Total R (ws ++ ws') (n + m) := by
  induction h with
  | nil => simpa using h'
  | cons hw _ ih =>
    rw [List.cons_append, Nat.add_assoc]
    exact .cons hw ih

theorem Total.reverse (h : Total R ws n) : Total R ws.reverse n := by
  induction h with
  | nil => exact .nil
  | cons hw _ ih =>
    rw [List.reverse_cons, Nat.add_comm]
    exact ih.append (.cons hw .nil)

theorem total_replicate {w : CFloat} (hw : R w 0) (n : ℕ) : Total R (List.replicate n w) 0 := by
  induction n with
  | zero => exact .nil
  | succ n ih => exact .cons hw ih

theorem total_any (ws : List CFloat) : Total (fun _ _ => True) ws 0 := by
  induction ws with
  | nil => exact .nil
  | cons w ws ih => exact .cons (n := 0) trivial ih

theorem Total.set (h : Total T ws m) {i : ℕ} {c w : CFloat} (hc : ws[i]? = some c)
    (hadd : ∀ m, T c m → T (c + w) (m + n)) : Total T (ws.set i (c + w)) (m + n) := by
  induction h generalizing i with
  | nil => cases hc
  | cons hw hws ih =>
    cases i with
    | zero =>
      obtain rfl := Option.some.inj hc
      rw [Nat.add_right_comm]
      exact .cons (hadd _ hw) hws
    | succ i =>
      rw [Nat.add_assoc]
      exact .cons hw (ih hc)

end Totals

section RunLength

/-- The distinct values in increasing order, and weights that count all events. -/
structure Encoded (x unique : List Single) (weights : List CFloat) : Prop where
  increasing : unique.Pairwise (· < ·)
  mem : ∀ v, v ∈ unique ↔ v ∈ x
  length_eq : unique.length = weights.length
  total : Total (Counted 26) weights x.length

/-- The processed prefix, with the last entries in front. -/
structure EncodedRev (done unique : List Single) (weights : List CFloat) (prev : Single) : Prop
    extends DistinctRev done unique prev where
  length_eq : unique.length = weights.length
  total : Total (Counted 26) weights done.length

variable {done unique : List Single} {weights : List CFloat} {prev next : Single}

theorem EncodedRev.same (h : EncodedRev done unique weights prev) :
    EncodedRev (done ++ [prev]) unique (bumpHead weights) prev := by
  refine ⟨h.toDistinctRev.same, ?_, ?_⟩
  · rw [h.length_eq]
    cases weights <;> rfl
  · have htotal := h.total
    rw [List.length_append, List.length_singleton]
    generalize done.length = N at htotal ⊢
    cases htotal with
    | nil =>
      have hlength := h.length_eq
      rw [List.length_nil, List.length_eq_zero_iff] at hlength
      rw [hlength] at h
      cases h.head
    | cons hw hws =>
      rw [Nat.add_right_comm]
      exact .cons (Counted.add hw (counted_one le_rfl) le_rfl (by decide)) hws

theorem EncodedRev.fresh (h : EncodedRev done unique weights prev) (hlt : ∀ v ∈ done, v < next) :
    EncodedRev (done ++ [next]) (next :: unique) (real 1 :: weights) next := by
  refine ⟨h.toDistinctRev.fresh hlt, congrArg (· + 1) h.length_eq, ?_⟩
  rw [List.length_append, List.length_singleton, Nat.add_comm]
  exact .cons (counted_one (by decide)) h.total

theorem runLengthLoop_spec (rest : List Single) (h : EncodedRev done unique weights prev)
    (sorted : (done ++ rest).Pairwise (· ≤ ·)) :
    Encoded (done ++ rest) (runLengthLoop prev rest unique weights).1
      (runLengthLoop prev rest unique weights).2 := by
  induction rest generalizing done unique weights prev with
  | nil =>
    rw [List.append_nil]
    refine ⟨List.pairwise_reverse.mpr h.decreasing, fun v => ?_, ?_, h.total.reverse⟩
    · rw [runLengthLoop, List.mem_reverse, h.mem]
    · rw [runLengthLoop, List.length_reverse, List.length_reverse, h.length_eq]
  | cons xi rest ih =>
    have happend : done ++ xi :: rest = (done ++ [xi]) ++ rest := by simp
    have hsorted := happend ▸ sorted
    rw [runLengthLoop, happend]
    split_ifs with heq
    · rw [heq] at hsorted ⊢
      exact ih h.same hsorted
    · exact ih (h.fresh (h.lt sorted heq)) hsorted

theorem runLength_spec {x : List Single} (hne : x ≠ []) (sorted : x.Pairwise (· ≤ ·)) :
    ∃ unique weights, runLength x = some (unique, weights) ∧ Encoded x unique weights := by
  cases x with
  | nil => exact absurd rfl hne
  | cons x₁ rest =>
    have hstart : EncodedRev [x₁] [x₁] [real 1] x₁ :=
      ⟨distinctRev_single x₁, rfl, .cons (n := 1) (m := 0) (counted_one (by decide)) .nil⟩
    exact ⟨_, _, rfl, runLengthLoop_spec rest hstart sorted⟩

end RunLength

section Counts

variable {R T : CFloat → ℕ → Prop} {edges : List CFloat} {i : ℕ}

theorem advance_spec (v : CFloat) (hi₁ : 1 ≤ i) (hi₂ : i + 1 ≤ edges.length) :
    ∃ j, advance edges v i = some j ∧ i ≤ j ∧ j + 1 ≤ edges.length := by
  obtain ⟨d, hd⟩ := Nat.exists_eq_add_of_le hi₂
  induction d generalizing i with
  | zero =>
    obtain ⟨lo, hlo⟩ := exists_elem (a := edges) hi₁ (by omega)
    obtain ⟨hi, hhi⟩ := exists_elem (a := edges) (i := i + 1) (by omega) (by omega)
    refine ⟨i, ?_, le_rfl, hi₂⟩
    rw [advance, hlo, hhi]
    exact dif_neg fun h => by omega
  | succ d ih =>
    obtain ⟨lo, hlo⟩ := exists_elem (a := edges) hi₁ (by omega)
    obtain ⟨hi, hhi⟩ := exists_elem (a := edges) (i := i + 1) (by omega) (by omega)
    rw [advance, hlo, hhi]
    by_cases hgo : ¬ (lo ≤ v ∧ v ≤ hi) ∧ i < edges.length - 1
    · obtain ⟨j, hj, hij, hjl⟩ := ih (i := i + 1) (by omega) (by omega) (by omega)
      exact ⟨j, (dif_pos hgo).trans hj, by omega, hjl⟩
    · exact ⟨i, dif_neg hgo, le_rfl, hi₂⟩

theorem addTo_spec {counts : List CFloat} {k : ℕ} {w : CFloat} (h₁ : 1 ≤ k)
    (h₂ : k ≤ counts.length) (hadd : ∀ c m, T c m → T (c + w) (m + n)) (htotal : Total T counts m) :
    ∃ counts', addTo counts k w = some counts' ∧ counts'.length = counts.length ∧
      (∀ j, j < k → elem counts' j = elem counts j) ∧ Total T counts' (m + n) := by
  obtain ⟨c, hc⟩ := exists_elem h₁ h₂
  have hput := put_eq_some (a := counts) (c + w) h₁ h₂
  refine ⟨_, by rw [addTo, hc]; exact hput, length_put hput, fun j hj => ?_, ?_⟩
  · rw [elem_put hput, if_neg hj.ne]
  · obtain ⟨k, rfl⟩ := Nat.exists_eq_add_of_le' h₁
    rw [elem_succ] at hc
    exact htotal.set hc fun m => hadd c m

theorem countLoop_spec (shift : ℕ) (hadd : ∀ c m w n, T c m → R w n → T (c + w) (m + n))
    (x : List Single) {weights counts : List CFloat} (hi₁ : 1 ≤ i) (hi₂ : i + 1 ≤ edges.length)
    (hlen : x.length = weights.length) (hcounts : counts.length = edges.length - 1 + shift)
    (hw : Total R weights n) (hc : Total T counts m) :
    ∃ counts', countLoop edges shift i x weights counts = some counts' ∧
      counts'.length = counts.length ∧ (∀ j ≤ shift, elem counts' j = elem counts j) ∧
      Total T counts' (m + n) := by
  induction x generalizing i weights counts m n with
  | nil =>
    cases hw with
    | nil => exact ⟨counts, rfl, rfl, fun _ _ => rfl, hc⟩
    | cons => cases hlen
  | cons v x ih =>
    cases hw with
    | nil => cases hlen
    | cons hw hws =>
      rename_i w ws n n'
      obtain ⟨j, hj, hij, hjl⟩ := advance_spec (.value v) hi₁ hi₂
      obtain ⟨c₁, hadd', hlen₁, hsame₁, htotal₁⟩ := addTo_spec (k := j + shift) (w := w) (n := n)
        (by omega) (by omega) (fun c m hc => hadd c m w n hc hw) hc
      obtain ⟨c₂, hloop, hlen₂, hsame₂, htotal₂⟩ := ih (i := j) (by omega) hjl (by simpa using hlen)
        (by rw [hlen₁, hcounts]) hws htotal₁
      refine ⟨c₂, ?_, hlen₂.trans hlen₁, fun k hk => ?_, by rwa [← Nat.add_assoc]⟩
      · simp only [countLoop, hj, Option.bind_eq_bind, Option.bind_some, elem_succ,
          List.getElem?_cons_zero, hadd', List.tail_cons, hloop]
      · rw [hsame₂ k hk, hsame₁ k (by omega)]

theorem countBetweenEdges_spec (shift : ℕ) (hadd : ∀ c m w n, T c m → R w n → T (c + w) (m + n))
    (hzero : T (real 0) 0) (x : List Single) {weights : List CFloat} (htwo : 2 ≤ edges.length)
    (hlen : x.length = weights.length) (hw : Total R weights n) :
    ∃ counts, countBetweenEdges x edges weights shift = some counts ∧
      counts.length = edges.length - 1 + shift ∧
      (∀ j, 1 ≤ j → j ≤ shift → elem counts j = some (real 0)) ∧ Total T counts n := by
  obtain ⟨counts, hloop, hlength, hsame, htotal⟩ := countLoop_spec shift hadd x le_rfl htwo hlen
    (List.length_replicate : (List.replicate _ (real 0)).length = _) hw (total_replicate hzero _)
  rw [List.length_replicate] at hlength
  refine ⟨counts, hloop, hlength, fun j h₁ h₂ => ?_, by rwa [Nat.zero_add] at htotal⟩
  obtain ⟨j, rfl⟩ := Nat.exists_eq_add_of_le' h₁
  rw [hsame _ h₂, elem_succ, List.getElem?_replicate, if_pos (by omega)]

theorem countBetweenEdges_eq_none {x : List Single} {weights : List CFloat} (shift : ℕ)
    (hx : x ≠ []) (hone : edges.length ≤ 1) :
    countBetweenEdges x edges weights shift = none := by
  cases x with
  | nil => exact absurd rfl hx
  | cons v x =>
    have hhi : elem edges 2 = none := elem_eq_none_iff.mpr (.inr (by omega))
    rw [countBetweenEdges, countLoop, advance, hhi]
    cases elem edges 1 <;> rfl

theorem length_cumsum (x : List CFloat) : (cumsum x).length = x.length := by
  have loop : ∀ (prev : CFloat) (x : List CFloat), (cumsumLoop prev x).length = x.length := by
    intro prev x
    induction x generalizing prev with
    | nil => rfl
    | cons v x ih => simp [cumsumLoop, ih]
  cases x with
  | nil => rfl
  | cons v x => simp [cumsum, loop]

theorem elem_one_cumsum (x : List CFloat) : elem (cumsum x) 1 = elem x 1 := by
  cases x <;> rfl

theorem cumsumLoop_last {prev : CFloat} {x : List CFloat} (hprev : Counted 78 prev n)
    (h : Total (Counted 52) x m) :
    ∃ s, (prev :: cumsumLoop prev x).getLast? = some s ∧ Counted 78 s (n + m) := by
  induction h generalizing prev n with
  | nil => exact ⟨prev, rfl, hprev⟩
  | cons hw _ ih =>
    obtain ⟨s, hlast, hs⟩ := ih (Counted.add hprev hw (by decide) (by decide))
    refine ⟨s, ?_, by rwa [← Nat.add_assoc]⟩
    rw [cumsumLoop, List.getLast?_cons_cons, hlast]

theorem cumsum_last {x : List CFloat} (hne : x ≠ []) (h : Total (Counted 52) x m) :
    ∃ s, elem (cumsum x) x.length = some s ∧ Counted 78 s m := by
  cases h with
  | nil => exact absurd rfl hne
  | cons hw hws =>
    obtain ⟨s, hlast, hs⟩ := cumsumLoop_last (hw.mono (by decide)) hws
    refine ⟨s, ?_, hs⟩
    rw [← length_cumsum, elem_length]
    exact hlast

end Counts

end XWebQL.SingleCounts
