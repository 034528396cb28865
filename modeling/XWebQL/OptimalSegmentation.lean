import Mathlib.Algebra.Order.Monoid.WithTop
import Mathlib.Data.List.Chain
import Mathlib.Order.WithBot

/-! Optimal segmentation of a line of nodes by dynamic programming.
A segmentation from `s` to `j` is a list of nodes whose consecutive pairs are
admissible segments; its total is the sum of the scores of its segments.
`Bellman` states what a table of best totals and back pointers has to satisfy,
and `scanBest` is the usual inner loop: it keeps the first strict maximum and
leaves at the first inadmissible candidate. Values live in `WithBot V`, where
`⊥` marks a node that no segmentation reaches. -/

namespace XWebQL.OptimalSegmentation

/-- Scan the candidates in order, keep the first strict maximum together with
its candidate, and leave at the first inadmissible one. -/
def scanBest {W : Type*} [LinearOrder W] (ok : ℕ → Prop) [DecidablePred ok] (value : ℕ → W) :
    List ℕ → W × ℕ → W × ℕ
  | [], acc => acc
  | i :: is, acc =>
    if ok i then scanBest ok value is (if acc.1 < value i then (value i, i) else acc) else acc

section ScanBest

variable {W : Type*} [LinearOrder W] (ok : ℕ → Prop) [DecidablePred ok] (value : ℕ → W)

theorem scanBest_acc_le (is : List ℕ) (acc : W × ℕ) :
    acc.1 ≤ (scanBest ok value is acc).1 := by
  induction is generalizing acc with
  | nil => exact le_rfl
  | cons i is ih =>
    rw [scanBest]
    split_ifs with hok hlt
    · exact hlt.le.trans (ih (value i, i))
    · exact ih _
    · exact le_rfl

/-- Leaving early loses nothing where admissibility only shrinks along the
list: every admissible candidate is dominated by the result. -/
theorem scanBest_bound (is : List ℕ) (acc : W × ℕ)
    (shrinking : is.Pairwise fun i k => ok k → ok i) (i : ℕ) (hi : i ∈ is) (hok : ok i) :
    value i ≤ (scanBest ok value is acc).1 := by
  induction is generalizing acc with
  | nil => cases hi
  | cons k is ih =>
    have hk : ok k := by
      obtain rfl | hmem := List.mem_cons.mp hi
      · exact hok
      · exact List.rel_of_pairwise_cons shrinking hmem hok
    rw [scanBest, if_pos hk]
    obtain rfl | hmem := List.mem_cons.mp hi
    · refine le_trans ?_ (scanBest_acc_le ok value is _)
      split_ifs with hlt
      · exact le_rfl
      · exact not_lt.mp hlt
    · exact ih _ shrinking.of_cons hmem

variable {ok value} in
theorem scanBest_congr {value' : ℕ → W} (is : List ℕ) (acc : W × ℕ)
    (h : ∀ i ∈ is, value i = value' i) : scanBest ok value is acc = scanBest ok value' is acc := by
  induction is generalizing acc with
  | nil => rfl
  | cons i is ih =>
    rw [scanBest, scanBest, h i (by simp)]
    split_ifs
    · exact ih _ fun k hk => h k (List.mem_cons_of_mem i hk)
    · exact ih _ fun k hk => h k (List.mem_cons_of_mem i hk)
    · rfl

theorem scanBest_attained (is : List ℕ) (acc : W × ℕ) :
    scanBest ok value is acc = acc ∨
      ∃ i ∈ is, ok i ∧ scanBest ok value is acc = (value i, i) ∧ acc.1 < value i := by
  induction is generalizing acc with
  | nil => exact .inl rfl
  | cons k is ih =>
    rw [scanBest]
    split_ifs with hok hlt
    · obtain heq | ⟨i, hi, hoki, heq, hless⟩ := ih (value k, k)
      · exact .inr ⟨k, by simp, hok, heq, hlt⟩
      · exact .inr ⟨i, by simp [hi], hoki, heq, hlt.trans hless⟩
    · obtain heq | ⟨i, hi, hoki, heq, hless⟩ := ih acc
      · exact .inl heq
      · exact .inr ⟨i, by simp [hi], hoki, heq, hless⟩
    · exact .inl rfl

end ScanBest

variable {V : Type*} [AddCommMonoid V]

def total (score : ℕ → ℕ → V) : List ℕ → V
  | a :: b :: rest => score a b + total score (b :: rest)
  | _ => 0

structure Segmentation (ok : ℕ → ℕ → Prop) (a b : ℕ) (cuts : List ℕ) : Prop where
  first : cuts.head? = some a
  last : cuts.getLast? = some b
  chain : cuts.IsChain ok

theorem segmentation_single (ok : ℕ → ℕ → Prop) (a : ℕ) : Segmentation ok a a [a] :=
  ⟨rfl, rfl, .singleton a⟩

theorem Segmentation.snoc {ok : ℕ → ℕ → Prop} {a b c : ℕ} {cuts : List ℕ}
    (h : Segmentation ok a b cuts) (hbc : ok b c) : Segmentation ok a c (cuts ++ [c]) where
  first := by simp [List.head?_append, h.first]
  last := by simp
  chain := by
    refine h.chain.append (.singleton c) ?_
    intro x hx y hy
    rw [h.last] at hx
    simp only [Option.mem_def, Option.some.injEq, List.head?_cons] at hx hy
    exact hx ▸ hy ▸ hbc

theorem Segmentation.cases_last {ok : ℕ → ℕ → Prop} {a c : ℕ} {cuts : List ℕ}
    (h : Segmentation ok a c cuts) :
    (a = c ∧ cuts = [a]) ∨
      ∃ b rest, cuts = rest ++ [c] ∧ Segmentation ok a b rest ∧ ok b c := by
  obtain rfl | ⟨rest, d, rfl⟩ := cuts.eq_nil_or_concat'
  · exact absurd h.first (by simp)
  have hd : d = c := by simpa using h.last
  subst hd
  cases hr : rest.getLast? with
  | none =>
    have hnil : rest = [] := List.getLast?_eq_none_iff.mp hr
    subst hnil
    exact .inl ⟨by simpa using h.first.symm, by simpa using h.first⟩
  | some b =>
    have hne : rest ≠ [] := by
      rintro rfl
      simp at hr
    have hchain := List.isChain_append.mp h.chain
    refine .inr ⟨b, rest, rfl, ⟨?_, hr, hchain.1⟩, hchain.2.2 b hr d rfl⟩
    have hf := h.first
    rwa [List.head?_append_of_ne_nil _ hne] at hf

theorem total_snoc (score : ℕ → ℕ → V) (cuts : List ℕ) (b c : ℕ)
    (h : cuts.getLast? = some b) : total score (cuts ++ [c]) = total score cuts + score b c := by
  induction cuts with
  | nil => simp at h
  | cons a rest ih =>
    cases rest with
    | nil =>
      have hab : a = b := by simpa using h
      simp [total, hab]
    | cons a' rest =>
      have hlast : (a' :: rest).getLast? = some b := by simpa using h
      have step := ih hlast
      simp only [List.cons_append] at step ⊢
      rw [total, step, total, add_assoc]

variable [LinearOrder V]

/-- `best` and `pred` form a solved table for the nodes `s..n`: no admissible
last segment improves an entry, and an entry other than `⊥` is attained by the
last segment its back pointer names. -/
structure Bellman (ok : ℕ → ℕ → Prop) (score : ℕ → ℕ → V) (s n : ℕ)
    (best : ℕ → WithBot V) (pred : ℕ → ℕ) : Prop where
  source : best s = 0
  bound : ∀ i j, s ≤ i → j ≤ n → ok i j → best i + score i j ≤ best j
  attained : ∀ j, s < j → j ≤ n → best j ≠ ⊥ →
    s ≤ pred j ∧ ok (pred j) j ∧ best j = best (pred j) + score (pred j) j

/-- The nodes met by following back pointers from `j` down to `s`. -/
inductive Backtrace (pred : ℕ → ℕ) (s : ℕ) : ℕ → List ℕ → Prop
  | source : Backtrace pred s s [s]
  | step {j : ℕ} {cuts : List ℕ} : s < j → Backtrace pred s (pred j) cuts →
      Backtrace pred s j (cuts ++ [j])

section Optimality

variable {ok : ℕ → ℕ → Prop} {score : ℕ → ℕ → V} {s n : ℕ}
  {best : ℕ → WithBot V} {pred : ℕ → ℕ}

theorem Segmentation.source_le (increasing : ∀ i j, ok i j → i < j) {j : ℕ} {cuts : List ℕ}
    (h : Segmentation ok s j cuts) : s ≤ j := by
  induction cuts using List.reverseRecOn generalizing j with
  | nil => simpa using h.first
  | append_singleton cuts c ih =>
    obtain ⟨rfl, _⟩ | ⟨b, rest, heq, hseg, hok⟩ := h.cases_last
    · exact le_rfl
    · obtain ⟨rfl, rfl⟩ : cuts = rest ∧ c = j := by simpa using heq
      exact (ih hseg).trans (increasing b c hok).le

theorem Segmentation.mem_range (increasing : ∀ i j, ok i j → i < j) {j : ℕ} {cuts : List ℕ}
    (h : Segmentation ok s j cuts) : ∀ i ∈ cuts, s ≤ i ∧ i ≤ j := by
  induction cuts using List.reverseRecOn generalizing j with
  | nil => simp
  | append_singleton cuts c ih =>
    intro i hi
    obtain ⟨rfl, heq⟩ | ⟨b, rest, heq, hseg, hok⟩ := h.cases_last
    · rw [heq, List.mem_singleton] at hi
      exact ⟨hi.ge, hi.le⟩
    · obtain ⟨rfl, rfl⟩ : cuts = rest ∧ c = j := by simpa using heq
      obtain hmem | hmem := List.mem_append.mp hi
      · have := ih hseg i hmem
        exact ⟨this.1, this.2.trans (increasing b c hok).le⟩
      · rw [List.mem_singleton.mp hmem]
        exact ⟨h.source_le increasing, le_rfl⟩

theorem Bellman.reached_of_ok (table : Bellman ok score s n best pred) {j : ℕ} (hj : j ≤ n)
    (hok : ok s j) : best j ≠ ⊥ := by
  intro hbot
  have hle := table.bound s j le_rfl hj hok
  rw [table.source, zero_add, hbot] at hle
  exact WithBot.coe_ne_bot (le_bot_iff.mp hle)

theorem Bellman.total_le [IsOrderedAddMonoid V] (table : Bellman ok score s n best pred)
    (increasing : ∀ i j, ok i j → i < j) {j : ℕ} {cuts : List ℕ}
    (h : Segmentation ok s j cuts) (hj : j ≤ n) : ((total score cuts : V) : WithBot V) ≤ best j := by
  induction cuts using List.reverseRecOn generalizing j with
  | nil => simpa using h.first
  | append_singleton cuts c ih =>
    obtain ⟨rfl, heq⟩ | ⟨b, rest, heq, hseg, hok⟩ := h.cases_last
    · rw [heq, table.source]
      exact le_rfl
    · obtain ⟨rfl, rfl⟩ : cuts = rest ∧ c = j := by simpa using heq
      have hb : b ≤ n := (increasing b c hok).le.trans hj
      rw [total_snoc score cuts b c hseg.last, WithBot.coe_add]
      calc
        _ ≤ best b + score b c := by
          gcongr
          exact ih hseg hb
        _ ≤ best c := table.bound b c (hseg.source_le increasing) hj hok

/-- Following the back pointers from a reached node never stops before the
source, and spells out a segmentation that attains the table entry. -/
theorem Bellman.exists_backtrace (table : Bellman ok score s n best pred)
    (increasing : ∀ i j, ok i j → i < j) (j : ℕ) (hs : s ≤ j) (hj : j ≤ n)
    (reached : best j ≠ ⊥) :
    ∃ cuts, Backtrace pred s j cuts ∧ Segmentation ok s j cuts ∧
      ((total score cuts : V) : WithBot V) = best j := by
  induction j using Nat.strong_induction_on with
  | _ j ih =>
    obtain rfl | hlt := hs.eq_or_lt
    · exact ⟨[s], .source, segmentation_single ok s, by rw [table.source]; rfl⟩
    · obtain ⟨hp, hok, hbest⟩ := table.attained j hlt hj reached
      have hless := increasing _ _ hok
      have hreached : best (pred j) ≠ ⊥ := by
        intro hbot
        rw [hbot, WithBot.bot_add] at hbest
        exact reached hbest
      obtain ⟨cuts, htrace, hseg, htotal⟩ := ih (pred j) hless hp (by omega) hreached
      refine ⟨cuts ++ [j], .step hlt htrace, hseg.snoc hok, ?_⟩
      rw [total_snoc score cuts (pred j) j hseg.last, WithBot.coe_add, htotal, hbest]

end Optimality

end XWebQL.OptimalSegmentation
