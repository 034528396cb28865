import XWebQL.OptimalSegmentation
import Mathlib.Algebra.Order.Group.Unbundled.Abs
import Mathlib.Tactic.Linarith

/-! A finite sentinel in place of `⊥`.
A table that starts every scan from a large negative number instead of `⊥`
holds the same totals and back pointers at the nodes that are reached, and at
the others a value that stays close to the sentinel, as long as the sentinel
lies far below every total. -/

namespace XWebQL.SentinelSegmentation

open OptimalSegmentation

variable {V : Type*} [Field V] [LinearOrder V]

/-- `value` is a total above `-slack`, and the same in both tables, or the node
is not reached and the other table has not left the sentinel by more than `slack`. -/
inductive Shadow (sentinel slack : V) : WithBot V → WithBot V → Prop
  | reached (v : V) : -slack ≤ v → Shadow sentinel slack v v
  | unreached (value : WithBot V) : value ≤ ((sentinel + slack : V) : WithBot V) →
      Shadow sentinel slack ⊥ value

def ShadowScan (sentinel slack : V) (acc acc' : WithBot V × ℕ) : Prop :=
  Shadow sentinel slack acc.1 acc'.1 ∧ (acc.1 ≠ ⊥ → acc'.2 = acc.2)

section Scan

variable {sentinel slack : V}

theorem Shadow.add [IsStrictOrderedRing V] {β φ : WithBot V} (h : Shadow sentinel slack β φ)
    {score bound : V} (hscore : |score| ≤ bound) :
    Shadow sentinel (slack + bound) (β + score) (φ + score) := by
  obtain ⟨hlo, hhi⟩ := abs_le.mp hscore
  cases h with
  | reached v hv =>
    rw [← WithBot.coe_add]
    exact .reached _ (by linarith)
  | unreached φ hφ =>
    rw [WithBot.bot_add]
    refine .unreached _ ?_
    calc
      φ + score ≤ ((sentinel + slack : V) : WithBot V) + score := by gcongr
      _ = ((sentinel + slack + score : V) : WithBot V) := (WithBot.coe_add _ _).symm
      _ ≤ ((sentinel + (slack + bound) : V) : WithBot V) :=
        WithBot.coe_le_coe.mpr (by linarith)

theorem ShadowScan.step (hfar : sentinel + slack < -slack) {acc acc' : WithBot V × ℕ}
    (h : ShadowScan sentinel slack acc acc') {β φ : WithBot V} (i : ℕ)
    (hvalue : Shadow sentinel slack β φ) :
    ShadowScan sentinel slack (if acc.1 < β then (β, i) else acc)
      (if acc'.1 < φ then (φ, i) else acc') := by
  obtain ⟨best, k⟩ := acc
  obtain ⟨best', k'⟩ := acc'
  obtain ⟨hbest, hidx⟩ := h
  have below : ∀ v : V, -slack ≤ v → ((sentinel + slack : V) : WithBot V) < v :=
    fun v hv => WithBot.coe_lt_coe.mpr (hfar.trans_le hv)
  dsimp only at hbest hidx ⊢
  cases hbest with
  | reached v hv =>
    have hk := hidx WithBot.coe_ne_bot
    cases hvalue with
    | reached u hu =>
      split_ifs
      · exact ⟨.reached u hu, fun _ => rfl⟩
      · exact ⟨.reached v hv, fun _ => hk⟩
    | unreached φ hφ =>
      rw [if_neg not_lt_bot, if_neg (hφ.trans_lt (below v hv)).not_gt]
      exact ⟨.reached v hv, fun _ => hk⟩
  | unreached _ hs =>
    cases hvalue with
    | reached u hu =>
      rw [if_pos (WithBot.bot_lt_coe u), if_pos (hs.trans_lt (below u hu))]
      exact ⟨.reached u hu, fun _ => rfl⟩
    | unreached φ hφ =>
      rw [if_neg not_lt_bot]
      split_ifs
      · exact ⟨.unreached φ hφ, fun hbot => absurd rfl hbot⟩
      · exact ⟨.unreached best' hs, fun hbot => absurd rfl hbot⟩

theorem scanBest_shadow (hfar : sentinel + slack < -slack) (ok : ℕ → Prop) [DecidablePred ok]
    {value value' : ℕ → WithBot V} (is : List ℕ) {acc acc' : WithBot V × ℕ}
    (hvalue : ∀ i ∈ is, ok i → Shadow sentinel slack (value i) (value' i))
    (h : ShadowScan sentinel slack acc acc') :
    ShadowScan sentinel slack (scanBest ok value is acc) (scanBest ok value' is acc') := by
  induction is generalizing acc acc' with
  | nil => exact h
  | cons i is ih =>
    rw [scanBest, scanBest]
    by_cases hok : ok i
    · rw [if_pos hok, if_pos hok]
      exact ih (fun k hk => hvalue k (List.mem_cons_of_mem i hk))
        (h.step hfar i (hvalue i (by simp) hok))
    · rw [if_neg hok, if_neg hok]
      exact h

end Scan

/-- Back pointers that agree with those of a solved table at its reached nodes
lead along the same path. -/
theorem Backtrace.congr_reached {ok : ℕ → ℕ → Prop} {score : ℕ → ℕ → V} {s n : ℕ}
    {best : ℕ → WithBot V} {pred pred' : ℕ → ℕ} (table : Bellman ok score s n best pred)
    (increasing : ∀ i j, ok i j → i < j)
    (agree : ∀ j, s < j → j ≤ n → best j ≠ ⊥ → pred' j = pred j) {j : ℕ} {cuts : List ℕ}
    (h : Backtrace pred s j cuts) (hj : j ≤ n) (reached : best j ≠ ⊥) :
    Backtrace pred' s j cuts := by
  induction h with
  | source => exact .source
  | @step j cuts hlt _ ih =>
    obtain ⟨_, hok, hbest⟩ := table.attained j hlt hj reached
    have hless := increasing (pred j) j hok
    have hreached : best (pred j) ≠ ⊥ := by
      intro hbot
      rw [hbot, WithBot.bot_add] at hbest
      exact reached hbest
    have hrest := ih (hless.le.trans hj) hreached
    rw [← agree j hlt hj reached] at hrest
    exact .step hlt hrest

end XWebQL.SentinelSegmentation
