import XWebQL.QuicksortTasks
import Mathlib.Algebra.Order.Ring.Rat
import Mathlib.Tactic.NormNum

/-! The default integers of the sorts.
The sum `first + last` leaves the 32-bit integers when both bounds are large.
It never does up to `2^30` elements. Beyond that it does on a constant array:
every window is then split in its middle, and the right halves shrink towards
the end of the array. -/

namespace XWebQL.QuicksortIntegers

open FortranArray Quicksort ForkJoin QuicksortTasks

variable {K : Type}

/-- No run of the sort of an array of `n` elements fails: every integer fits, and
every element it uses, the pivot included, is in its window. -/
def IndexSafe (sort : SortTask K) (n : ℕ) : Prop :=
  ∀ a : List K, a.length = n → ∀ e, ¬ CanFail sort a e

section Failures

variable {range : ℕ → Prop} [DecidablePred range] {m m' : List K} {first last : ℕ}

theorem canFail_overflow {v : ℕ} {next : SortTask K} (hv : ¬ range v) :
    CanFail (withInt range v next) m .overflow := by
  rw [withInt, if_neg hv]
  exact CanFail.fail m Fault.overflow

theorem canFail_withInt (v : ℕ) {next : SortTask K} (h : CanFail next m .overflow) :
    CanFail (withInt range v next) m .overflow := by
  by_cases hv : range v
  · rwa [withInt, if_pos hv]
  · exact canFail_overflow hv

theorem canFail_readWindow {e : Fault} {i : ℕ} {v : K} {next : K → SortTask K} (h₁ : first ≤ i)
    (h₂ : i ≤ last) (hv : elem m i = some v) (h : CanFail (next v) m e) :
    CanFail (readWindow first last i next) m e := by
  rw [readWindow, if_pos ⟨h₁, h₂⟩]
  exact h.read hv

theorem canFail_writeWindow {e : Fault} {i : ℕ} {v : K} {next : SortTask K} (h₁ : first ≤ i)
    (h₂ : i ≤ last) (hput : put m i v = some m') (h : CanFail next m' e) :
    CanFail (writeWindow first last i v next) m e := by
  rw [writeWindow, if_pos ⟨h₁, h₂⟩]
  exact h.write hput

end Failures

section Constant

variable [LinearOrder K] {range : ℕ → Prop} [DecidablePred range] {c : K} {n : ℕ}

omit [LinearOrder K] in
theorem elem_constant (c : K) {n i : ℕ} (h₁ : 1 ≤ i) (h₂ : i ≤ n) :
    elem (List.replicate n c) i = some c := by
  obtain ⟨v, hv⟩ := exists_elem (a := List.replicate n c) h₁ (by simpa using h₂)
  rw [hv, List.eq_of_mem_replicate (mem_of_elem hv)]

omit [LinearOrder K] in
theorem put_constant (c : K) {n i : ℕ} (h₁ : 1 ≤ i) (h₂ : i ≤ n) :
    put (List.replicate n c) i c = some (List.replicate n c) := by
  have hput := put_eq_some (a := List.replicate n c) c h₁ (by simpa using h₂)
  rw [hput, Option.some.injEq]
  apply ext_elem
  intro k
  rw [elem_put hput]
  split_ifs with hk
  · rw [hk, elem_constant c h₁ h₂]
  · rfl

omit [LinearOrder K] in
theorem canFail_swap {e : Fault} {first last i j : ℕ} {next : SortTask K} (hpos : 1 ≤ first)
    (hlast : last ≤ n) (hi : first ≤ i) (hij : i < j) (hj : j ≤ last)
    (h : CanFail next (List.replicate n c) e) :
    CanFail (swapTask first last i j next) (List.replicate n c) e := by
  have hci := elem_constant c (n := n) (i := i) (by omega) (by omega)
  have hcj := elem_constant c (n := n) (i := j) (by omega) (by omega)
  have hpi := put_constant c (n := n) (i := i) (by omega) (by omega)
  have hpj := put_constant c (n := n) (i := j) (by omega) (by omega)
  exact canFail_readWindow hi (by omega) hci (canFail_readWindow (by omega) hj hcj
    (canFail_writeWindow hi (by omega) hpi (canFail_writeWindow (by omega) hj hpj h)))

theorem canFail_partition {first last steps i j : ℕ} {next : ℕ → ℕ → SortTask K}
    (hpos : 1 ≤ first) (hlast : last ≤ n) (hsum : i + j = first + last) (hmeet : i ≤ j + 1)
    (hi : first ≤ i) (hi' : i ≤ last) (hj : first ≤ j) (hj' : j ≤ last)
    (hsteps : j < steps + i) (hstart : 0 < steps)
    (h : CanFail (next (first + last - (first + last) / 2) ((first + last) / 2))
      (List.replicate n c) .overflow) :
    CanFail (partitionTask range c first last steps i j next) (List.replicate n c)
      .overflow := by
  induction steps generalizing i j with
  | zero => omega
  | succ steps ih =>
    have hci := elem_constant c (n := n) (i := i) (by omega) (by omega)
    have hcj := elem_constant c (n := n) (i := j) (by omega) (by omega)
    obtain ⟨j, rfl⟩ := Nat.exists_eq_add_of_le' (show 1 ≤ j by omega)
    rw [partitionTask, scanUpTask, if_pos ⟨hi, hi'⟩]
    refine .read hci ?_
    rw [if_neg (lt_irrefl c), scanDownTask]
    refine canFail_readWindow hj hj' hcj ?_
    rw [if_neg (lt_irrefl c)]
    by_cases hexit : i ≥ j + 1
    · rw [if_pos hexit]
      rwa [show i = first + last - (first + last) / 2 by omega,
        show j + 1 = (first + last) / 2 by omega]
    · rw [if_neg hexit]
      refine canFail_swap hpos hlast hi (by omega) hj'
        (canFail_withInt _ (canFail_withInt _ ?_))
      exact ih (by omega) (by omega) (by omega) (by omega) (by omega) (by omega) (by omega)
        (by omega)

theorem canFail_body {first last : ℕ} {next : ℕ → ℕ → SortTask K} (hpos : 1 ≤ first)
    (hle : first ≤ last) (hlast : last ≤ n)
    (h : CanFail (next (first + last - (first + last) / 2) ((first + last) / 2))
      (List.replicate n c) .overflow) :
    CanFail (withInt range (first + last) (readWindow first last ((first + last) / 2) fun x =>
      partitionTask range x first last (last + 1 - first) first last next))
      (List.replicate n c) .overflow := by
  have hc := elem_constant c (n := n) (i := (first + last) / 2) (by omega) (by omega)
  refine canFail_withInt _ (canFail_readWindow (by omega) (by omega) hc ?_)
  exact canFail_partition hpos hlast rfl (by omega) le_rfl hle hle le_rfl (by omega) (by omega) h

omit [LinearOrder K] in
theorem canFail_callIf {lo hi : ℕ} {sort : ℕ → ℕ → SortTask K → SortTask K}
    {next : SortTask K} {m : List K} {e : Fault}
    (hsort : lo < hi → CanFail (sort lo hi next) m e) (h : CanFail next m e) :
    CanFail (callIfTask lo hi sort next) m e := by
  unfold callIfTask
  split_ifs with hlt
  · exact hsort hlt
  · exact h

theorem canFail_sort (depth : ℕ) {first last : ℕ} {next : SortTask K} (hpos : 1 ≤ first)
    (hle : first ≤ last) (hlast : last ≤ n) (hdepth : last < depth + first)
    (h : CanFail next (List.replicate n c) .overflow) :
    CanFail (quicksortTaskDepth range depth first last next) (List.replicate n c)
      .overflow := by
  induction depth generalizing first last next with
  | zero => omega
  | succ depth ih =>
    refine canFail_body hpos hle hlast ?_
    have hright : CanFail (withInt range ((first + last) / 2 + 1)
        (callIfTask ((first + last) / 2 + 1) last (quicksortTaskDepth range depth) next))
        (List.replicate n c) .overflow :=
      canFail_withInt _ (canFail_callIf
        (fun hlt => ih (by omega) hlt.le hlast (by omega) h) h)
    exact canFail_withInt _ (canFail_callIf
      (fun hlt => ih hpos hlt.le (by omega) (by omega) hright) hright)

/-- Beyond `2^30` elements a sort of the end of a constant array overflows. -/
theorem canFail_tail (hn : 2 ^ 30 < n) (depth : ℕ) {first : ℕ} (next : SortTask K)
    (hpos : 1 ≤ first) (hlt : first < n) (hdepth : n < depth + first) :
    CanFail (quicksortTaskDepth int32 depth first n next) (List.replicate n c) .overflow := by
  induction depth generalizing first with
  | zero => omega
  | succ depth ih =>
    by_cases hfit : first + n < 2 ^ 31
    · refine canFail_body hpos hlt.le le_rfl ?_
      have hright : CanFail (withInt int32 ((first + n) / 2 + 1)
          (callIfTask ((first + n) / 2 + 1) n (quicksortTaskDepth int32 depth) next))
          (List.replicate n c) .overflow := by
        refine canFail_withInt _ ?_
        rw [callIfTask, if_pos (by omega)]
        exact ih (by omega) (by omega) (by omega)
      exact canFail_withInt _ (canFail_callIf
        (fun hlt' => canFail_sort depth hpos hlt'.le (by omega) (by omega) hright) hright)
    · exact canFail_overflow hfit

theorem canFail_tail_omp (hn : 2 ^ 30 < n) (depth : ℕ) {first : ℕ} (hpos : 1 ≤ first)
    (hlt : first < n) (hdepth : n < depth + first) :
    CanFail (quicksortOmpTaskDepth int32 depth first n : SortTask K) (List.replicate n c)
      .overflow := by
  induction depth generalizing first with
  | zero => omega
  | succ depth ih =>
    rw [quicksortOmpTaskDepth]
    refine canFail_withInt _ ?_
    split_ifs
    · exact canFail_tail hn _ _ hpos hlt (by omega)
    · by_cases hfit : first + n < 2 ^ 31
      · refine canFail_body hpos hlt.le le_rfl (.right (canFail_withInt _ ?_))
        rw [if_pos (by omega)]
        exact ih (by omega) (by omega) (by omega)
      · exact canFail_overflow hfit

end Constant

variable [LinearOrder K]

theorem indexSafe_of_le {n : ℕ} (hpos : 1 ≤ n) (hn : n ≤ 2 ^ 30) :
    IndexSafe (quicksortTask int32 1 n : SortTask K) n ∧
      IndexSafe (quicksortOmpTask int32 1 n : SortTask K) n := by
  have hsafe : SafeInts int32 1 n := safeInts_int32 hn (by omega)
  constructor
  · rintro a rfl e
    obtain ⟨b, hb, _⟩ := quicksort_sorts a.length 1 a.length le_rfl hpos le_rfl a rfl
    exact (sortsTo_quicksortTask hsafe hb).runsTo.not_canFail e
  · rintro a rfl e
    obtain ⟨b, hb, _⟩ := quicksort_sorts a.length 1 a.length le_rfl hpos le_rfl a rfl
    exact (sortsTo_quicksortOmpTask hsafe le_rfl hpos le_rfl hb).runsTo.not_canFail e

/-- The index arithmetic of the two sorts stays within the default integers on
all arrays of a length up to `2^30`, and of no length above. -/
theorem indexSafe_iff [Inhabited K] (n : ℕ) (hpos : 1 ≤ n) (hn : n < 2 ^ 31) :
    (IndexSafe (quicksortTask int32 1 n : SortTask K) n ↔ n ≤ 2 ^ 30) ∧
      (IndexSafe (quicksortOmpTask int32 1 n : SortTask K) n ↔ n ≤ 2 ^ 30) := by
  refine ⟨⟨fun hsafe => ?_, fun hle => (indexSafe_of_le hpos hle).1⟩,
    fun hsafe => ?_, fun hle => (indexSafe_of_le hpos hle).2⟩
  · by_contra hlarge
    have hfail := canFail_tail (c := (default : K)) (not_le.mp hlarge) (n + 1 - 1) (.done ())
      le_rfl (show 1 < n by omega) (by omega)
    exact hsafe (List.replicate n default) (by simp) .overflow hfail
  · by_contra hlarge
    have hfail := canFail_tail_omp (c := (default : K)) (not_le.mp hlarge) (n + 1 - 1)
      le_rfl (show 1 < n by omega) (by omega)
    exact hsafe (List.replicate n default) (by simp) .overflow hfail

theorem indexSafe_hundred_elements :
    IndexSafe (quicksortTask int32 1 100 : SortTask ℚ) 100 ∧
      IndexSafe (quicksortOmpTask int32 1 100 : SortTask ℚ) 100 := by
  obtain ⟨hseq, homp⟩ := indexSafe_iff (K := ℚ) 100 (by norm_num) (by norm_num)
  exact ⟨hseq.mpr (by norm_num), homp.mpr (by norm_num)⟩

/-- With `2^31 - 1` elements the first call computes `2^31`. -/
theorem canFail_longest_array :
    CanFail (quicksortTask int32 1 (2 ^ 31 - 1)) (List.replicate (2 ^ 31 - 1) (0 : ℚ))
        .overflow ∧
      CanFail (quicksortOmpTask int32 1 (2 ^ 31 - 1)) (List.replicate (2 ^ 31 - 1) (0 : ℚ))
        .overflow :=
  ⟨canFail_tail (by norm_num) _ _ le_rfl (by norm_num) (by norm_num),
    canFail_tail_omp (by norm_num) _ le_rfl (by norm_num) (by norm_num)⟩

end XWebQL.QuicksortIntegers
