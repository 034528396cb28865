import XWebQL.ForkJoin
import XWebQL.Quicksort
import Mathlib.Data.List.Sort

/-! The two sorts as programs whose tasks interleave.
`quicksort` and `quicksort_omp` step by step over the shared array: every
element access is checked against the window of the call, and every integer the
code computes against the integers the machine has (`range`). A run that breaks
either check fails. -/

namespace XWebQL.QuicksortTasks

open FortranArray Quicksort ForkJoin

/-- What a run can fail with: an integer out of range, an access outside the
window, a used up step budget. -/
inductive Fault where
  | overflow
  | outside
  | exhausted

abbrev SortTask (K : Type) : Type := Task Fault K Unit

variable {K : Type}

/-- The code computes `v` and goes on. -/
def withInt (range : ℕ → Prop) [DecidablePred range] (v : ℕ) (next : SortTask K) :
    SortTask K :=
  if range v then next else .fail .overflow

def readWindow (first last i : ℕ) (next : K → SortTask K) : SortTask K :=
  if first ≤ i ∧ i ≤ last then .read i next else .fail .outside

def writeWindow (first last i : ℕ) (v : K) (next : SortTask K) : SortTask K :=
  if first ≤ i ∧ i ≤ last then .write i v next else .fail .outside

/-- `t = a(i); a(i) = a(j); a(j) = t` -/
def swapTask (first last i j : ℕ) (next : SortTask K) : SortTask K :=
  readWindow first last i fun t =>
    readWindow first last j fun u =>
      writeWindow first last i u (writeWindow first last j t next)

/-- `if (lo < hi) call sort(a, lo, hi)` -/
def callIfTask (lo hi : ℕ) (sort : ℕ → ℕ → SortTask K → SortTask K) (next : SortTask K) :
    SortTask K :=
  if lo < hi then sort lo hi next else next

variable [LinearOrder K] (range : ℕ → Prop) [DecidablePred range]

/-- `do while (a(i) < x); i = i + 1; end do` -/
def scanUpTask (x : K) (first last i : ℕ) (next : ℕ → SortTask K) : SortTask K :=
  if first ≤ i ∧ i ≤ last then
    .read i fun v =>
      if v < x then withInt range (i + 1) (scanUpTask x first last (i + 1) next) else next i
  else .fail .outside
termination_by last + 1 - i

/-- `do while (x < a(j)); j = j - 1; end do` -/
def scanDownTask (x : K) (first last : ℕ) : ℕ → (ℕ → SortTask K) → SortTask K
  | 0, _ => .fail .outside
  | j + 1, next =>
    readWindow first last (j + 1) fun v =>
      if x < v then withInt range j (scanDownTask x first last j next) else next (j + 1)

/-- The outer `do` loop. -/
def partitionTask (x : K) (first last : ℕ) :
    ℕ → ℕ → ℕ → (ℕ → ℕ → SortTask K) → SortTask K
  | 0, _, _, _ => .fail .exhausted
  | steps + 1, i, j, next =>
    scanUpTask range x first last i fun i =>
      scanDownTask range x first last j fun j =>
        if i ≥ j then next i j
        else swapTask first last i j
          (withInt range (i + 1) (withInt range (j - 1)
            (partitionTask x first last steps (i + 1) (j - 1) next)))

def quicksortTaskDepth : ℕ → ℕ → ℕ → SortTask K → SortTask K
  | 0, _, _, _ => .fail .exhausted
  | depth + 1, first, last, next =>
    withInt range (first + last)
      (readWindow first last ((first + last) / 2) fun x =>
        partitionTask range x first last (last + 1 - first) first last fun i j =>
          withInt range (i - 1) (callIfTask first (i - 1) (quicksortTaskDepth depth)
            (withInt range (j + 1) (callIfTask (j + 1) last (quicksortTaskDepth depth) next))))

def quicksortTask (first last : ℕ) : SortTask K :=
  quicksortTaskDepth range (last + 1 - first) first last (.done ())

/-- `quicksort_omp`: the two recursive calls are tasks, and the caller waits for
both. -/
def quicksortOmpTaskDepth : ℕ → ℕ → ℕ → SortTask K
  | 0, _, _ => .fail .exhausted
  | depth + 1, first, last =>
    withInt range (last - first + 1)
      (if last - first + 1 ≤ WORKSIZE then quicksortTask range first last
      else
        withInt range (first + last)
          (readWindow first last ((first + last) / 2) fun x =>
            partitionTask range x first last (last + 1 - first) first last fun i j =>
              .fork
                (withInt range (i - 1)
                  (if first < i - 1 then quicksortOmpTaskDepth depth first (i - 1) else .done ()))
                (withInt range (j + 1)
                  (if j + 1 < last then quicksortOmpTaskDepth depth (j + 1) last else .done ()))
                fun _ _ => .done ()))

def quicksortOmpTask (first last : ℕ) : SortTask K :=
  quicksortOmpTaskDepth range (last + 1 - first) first last

/-- The footprint of a call on `first..last`. -/
def window (first last : ℕ) : Footprint :=
  ⟨fun i => first ≤ i ∧ i ≤ last, fun i => first ≤ i ∧ i ≤ last⟩

section Windows

variable {range} {f : Footprint} {first last : ℕ}

def Covers (f : Footprint) (first last : ℕ) : Prop :=
  ∀ i, first ≤ i → i ≤ last → f.uses i ∧ f.writes i

theorem Covers.sub (h : Covers f first last) {lo hi : ℕ} (hlo : first ≤ lo) (hhi : hi ≤ last) :
    Covers f lo hi :=
  fun i h₁ h₂ => h i (hlo.trans h₁) (h₂.trans hhi)

omit [LinearOrder K] in
theorem withInt_within {v : ℕ} {next : SortTask K} (h : Within f next) :
    Within f (withInt range v next) := by
  unfold withInt
  split_ifs
  · exact h
  · trivial

omit [LinearOrder K] in
theorem readWindow_within (hf : Covers f first last) {i : ℕ} {next : K → SortTask K}
    (h : first ≤ i → i ≤ last → ∀ v, Within f (next v)) :
    Within f (readWindow first last i next) := by
  unfold readWindow
  split_ifs with hi
  · exact ⟨(hf i hi.1 hi.2).1, h hi.1 hi.2⟩
  · trivial

omit [LinearOrder K] in
theorem writeWindow_within (hf : Covers f first last) {i : ℕ} {v : K} {next : SortTask K}
    (h : Within f next) : Within f (writeWindow first last i v next) := by
  unfold writeWindow
  split_ifs with hi
  · exact ⟨(hf i hi.1 hi.2).1, (hf i hi.1 hi.2).2, h⟩
  · trivial

omit [LinearOrder K] in
theorem swapTask_within (hf : Covers f first last) {i j : ℕ} {next : SortTask K}
    (h : Within f next) : Within f (swapTask first last i j next) :=
  readWindow_within hf fun _ _ _ => readWindow_within hf fun _ _ _ =>
    writeWindow_within hf (writeWindow_within hf h)

omit [LinearOrder K] in
theorem callIfTask_within {lo hi : ℕ} {sort : ℕ → ℕ → SortTask K → SortTask K}
    {next : SortTask K} (hsort : ∀ next, Within f next → Within f (sort lo hi next))
    (h : Within f next) : Within f (callIfTask lo hi sort next) := by
  unfold callIfTask
  split_ifs
  · exact hsort next h
  · exact h

theorem scanUpTask_within (hf : Covers f first last) {x : K} {i : ℕ} {next : ℕ → SortTask K}
    (h : ∀ i, i ≤ last → Within f (next i)) :
    Within f (scanUpTask range x first last i next) := by
  induction i using scanUpTask.induct first last with
  | case1 i hi ih =>
    rw [scanUpTask, if_pos hi]
    refine ⟨(hf i hi.1 hi.2).1, fun v => ?_⟩
    dsimp only
    split_ifs
    · exact withInt_within ih
    · exact h i hi.2
  | case2 i hi =>
    rw [scanUpTask, if_neg hi]
    trivial

theorem scanDownTask_within (hf : Covers f first last) {x : K} {j : ℕ} {next : ℕ → SortTask K}
    (h : ∀ j, first ≤ j → Within f (next j)) :
    Within f (scanDownTask range x first last j next) := by
  induction j with
  | zero => trivial
  | succ j ih =>
    refine readWindow_within hf fun hj _ v => ?_
    split_ifs
    · exact withInt_within ih
    · exact h (j + 1) hj

theorem partitionTask_within (hf : Covers f first last) {x : K} {steps i j : ℕ}
    {next : ℕ → ℕ → SortTask K}
    (h : ∀ i j, i ≤ last → first ≤ j → Within f (next i j)) :
    Within f (partitionTask range x first last steps i j next) := by
  induction steps generalizing i j with
  | zero => trivial
  | succ steps ih =>
    refine scanUpTask_within hf fun i hi => scanDownTask_within hf fun j hj => ?_
    split_ifs
    · exact h i j hi hj
    · exact swapTask_within hf (withInt_within (withInt_within ih))

theorem quicksortTaskDepth_within (depth : ℕ) {first last : ℕ} (hf : Covers f first last)
    {next : SortTask K} (h : Within f next) :
    Within f (quicksortTaskDepth range depth first last next) := by
  induction depth generalizing first last next with
  | zero => trivial
  | succ depth ih =>
    refine withInt_within (readWindow_within hf fun _ _ x => partitionTask_within hf ?_)
    intro i j hi hj
    exact withInt_within (callIfTask_within (fun next h => ih (hf.sub le_rfl (by omega)) h)
      (withInt_within (callIfTask_within (fun next h => ih (hf.sub (by omega) le_rfl) h) h)))

theorem quicksortOmpTaskDepth_within (depth : ℕ) {first last : ℕ} (hf : Covers f first last) :
    Within f (quicksortOmpTaskDepth range depth first last : SortTask K) := by
  induction depth generalizing first last with
  | zero => trivial
  | succ depth ih =>
    rw [quicksortOmpTaskDepth]
    apply withInt_within
    split_ifs
    · exact quicksortTaskDepth_within _ hf trivial
    · refine withInt_within (readWindow_within hf fun _ _ x => partitionTask_within hf ?_)
      intro i j hi hj
      refine ⟨withInt_within ?_, withInt_within ?_, fun _ _ => trivial⟩
      · split_ifs
        · exact ih (hf.sub le_rfl (by omega))
        · trivial
      · split_ifs
        · exact ih (hf.sub (by omega) le_rfl)
        · trivial

end Windows

structure SafeInts (range : ℕ → Prop) (first last : ℕ) : Prop where
  upTo : ∀ v, v ≤ last + 1 → range v
  whole : range (first + last)
  sums : ∀ f l, first ≤ f → f < l → l ≤ last → range (f + l)

theorem SafeInts.sub {range : ℕ → Prop} {first last lo hi : ℕ} (h : SafeInts range first last)
    (hlo : first ≤ lo) (hlt : lo < hi) (hhi : hi ≤ last) : SafeInts range lo hi where
  upTo v hv := h.upTo v (by omega)
  whole := h.sums lo hi hlo hlt hhi
  sums f l hf hfl hl := h.sums f l (hlo.trans hf) hfl (hl.trans hhi)

section Runs

variable {range} {first last : ℕ} {post : Unit → List K → Prop} {a b : List K} {x : K}

omit [LinearOrder K] in
theorem withInt_wp {v : ℕ} {next : SortTask K} (hv : range v) (h : wp next post a) :
    wp (withInt range v next) post a := by
  rwa [withInt, if_pos hv]

omit [LinearOrder K] in
theorem readWindow_wp {i : ℕ} {v : K} {next : K → SortTask K}
    (hv : windowElem a first last i = some v) (h : wp (next v) post a) :
    wp (readWindow first last i next) post a := by
  obtain ⟨h₁, h₂, helem⟩ := windowElem_eq_some.mp hv
  rw [readWindow, if_pos ⟨h₁, h₂⟩]
  exact ⟨v, helem, h⟩

omit [LinearOrder K] in
theorem swapTask_wp {i j : ℕ} {next : SortTask K} (hswap : swap a first last i j = some b)
    (h : wp next post b) : wp (swapTask first last i j next) post a := by
  simp only [swap, Option.bind_eq_bind, Option.bind_eq_some_iff] at hswap
  obtain ⟨t, ht, u, hu, c, hc, hb⟩ := hswap
  obtain ⟨hi₁, hi₂, _⟩ := windowElem_eq_some.mp ht
  obtain ⟨hj₁, hj₂, _⟩ := windowElem_eq_some.mp hu
  refine readWindow_wp ht (readWindow_wp hu ?_)
  rw [writeWindow, if_pos ⟨hi₁, hi₂⟩, writeWindow, if_pos ⟨hj₁, hj₂⟩]
  exact ⟨c, hc, b, hb, h⟩

theorem scanUpTask_wp (hrange : ∀ v, v ≤ last + 1 → range v) {i k : ℕ}
    {next : ℕ → SortTask K} (hscan : scanUp a x first last i = some k)
    (h : k ≤ last → wp (next k) post a) :
    wp (scanUpTask range x first last i next) post a := by
  induction i using scanUpTask.induct first last with
  | case1 i hi ih =>
    rw [scanUp, if_pos hi, Option.bind_eq_bind, Option.bind_eq_some_iff] at hscan
    obtain ⟨v, hv, hscan⟩ := hscan
    rw [scanUpTask, if_pos hi]
    refine ⟨v, hv, ?_⟩
    dsimp only
    split_ifs at hscan ⊢
    · exact withInt_wp (hrange _ (by omega)) (ih hscan)
    · obtain rfl := Option.some.inj hscan
      exact h hi.2
  | case2 i hi =>
    rw [scanUp, if_neg hi] at hscan
    cases hscan

theorem scanDownTask_wp (hrange : ∀ v, v ≤ last + 1 → range v) {j k : ℕ}
    {next : ℕ → SortTask K} (hscan : scanDown a x first last j = some k)
    (h : first ≤ k → k ≤ last → wp (next k) post a) :
    wp (scanDownTask range x first last j next) post a := by
  induction j with
  | zero => cases hscan
  | succ j ih =>
    rw [scanDown] at hscan
    split_ifs at hscan with hj
    rw [Option.bind_eq_bind, Option.bind_eq_some_iff] at hscan
    obtain ⟨v, hv, hscan⟩ := hscan
    refine readWindow_wp (windowElem_eq_some.mpr ⟨hj.1, hj.2, hv⟩) ?_
    split_ifs at hscan ⊢
    · exact withInt_wp (hrange _ (by omega)) (ih hscan)
    · obtain rfl := Option.some.inj hscan
      exact h hj.1 hj.2

theorem partitionTask_wp (hrange : ∀ v, v ≤ last + 1 → range v) {steps i j p q : ℕ}
    {next : ℕ → ℕ → SortTask K}
    (hloop : partitionLoop x first last steps a i j = some (b, p, q))
    (h : p ≤ last → first ≤ q → q ≤ last → wp (next p q) post b) :
    wp (partitionTask range x first last steps i j next) post a := by
  induction steps generalizing a i j with
  | zero => cases hloop
  | succ steps ih =>
    simp only [partitionLoop, Option.bind_eq_bind, Option.bind_eq_some_iff] at hloop
    obtain ⟨i', hup, j', hdown, hloop⟩ := hloop
    refine scanUpTask_wp hrange hup fun hi => scanDownTask_wp hrange hdown fun hj hj' => ?_
    split_ifs at hloop ⊢
    · simp only [Option.some.injEq, Prod.mk.injEq] at hloop
      obtain ⟨rfl, rfl, rfl⟩ := hloop
      exact h hi hj hj'
    · obtain ⟨c, hswap, hloop⟩ := Option.bind_eq_some_iff.mp hloop
      exact swapTask_wp hswap (withInt_wp (hrange _ (by omega))
        (withInt_wp (hrange _ (by omega)) (ih hloop)))

omit [LinearOrder K] in
theorem callIfTask_wp {lo hi : ℕ} {sort : List K → ℕ → ℕ → Option (List K)}
    {task : ℕ → ℕ → SortTask K → SortTask K} {next : SortTask K}
    (hcall : callIf lo hi sort a = some b)
    (htask : lo < hi → sort a lo hi = some b → wp (task lo hi next) post a)
    (h : wp next post b) : wp (callIfTask lo hi task next) post a := by
  unfold callIf at hcall
  unfold callIfTask
  split_ifs at hcall ⊢ with hlt
  · exact htask hlt hcall
  · obtain rfl := Option.some.inj hcall
    exact h

theorem quicksortTaskDepth_wp (depth : ℕ) {first last : ℕ} {a b : List K}
    {next : SortTask K} (hsafe : SafeInts range first last)
    (hsort : quicksortDepth depth a first last = some b) (h : wp next post b) :
    wp (quicksortTaskDepth range depth first last next) post a := by
  induction depth generalizing first last a b next with
  | zero => cases hsort
  | succ depth ih =>
    simp only [quicksortDepth, Option.bind_eq_bind, Option.bind_eq_some_iff] at hsort
    obtain ⟨x, hx, ⟨c, i, j⟩, hloop, d, hleft, hright⟩ := hsort
    refine withInt_wp hsafe.whole (readWindow_wp hx (partitionTask_wp hsafe.upTo hloop ?_))
    intro hi hj hj'
    have hnext : wp (withInt range (j + 1)
        (callIfTask (j + 1) last (quicksortTaskDepth range depth) next)) post d :=
      withInt_wp (hsafe.upTo _ (by omega)) (callIfTask_wp hright
        (fun hlt hcall => ih (hsafe.sub (by omega) hlt le_rfl) hcall h) h)
    exact withInt_wp (hsafe.upTo _ (by omega)) (callIfTask_wp hleft
      (fun hlt hcall => ih (hsafe.sub le_rfl hlt (by omega)) hcall hnext) hnext)

omit [LinearOrder K] in
theorem ompCall_wp {lo hi v : ℕ} {sort : List K → ℕ → ℕ → Option (List K)} {task : SortTask K}
    (hv : range v) (hcall : callIf lo hi sort a = some b)
    (htask : lo < hi → sort a lo hi = some b → wp task (fun _ m => m = b) a) :
    wp (withInt range v (if lo < hi then task else .done ())) (fun _ m => m = b) a := by
  refine withInt_wp hv ?_
  unfold callIf at hcall
  split_ifs at hcall ⊢ with hlt
  · exact htask hlt hcall
  · exact Option.some.inj hcall

theorem quicksortOmpTaskDepth_wp (depth : ℕ) (path : List Bool) {first last : ℕ}
    {a b : List K} (hpos : 1 ≤ first) (hle : first ≤ last) (hlen : last ≤ a.length)
    (hdepth : last < depth + first) (hsafe : SafeInts range first last)
    (hsort : quicksortOmpDepth (fun _ => true) depth path a first last = some b) :
    wp (quicksortOmpTaskDepth range depth first last) (fun _ m => m = b) a := by
  induction depth generalizing first last path a b with
  | zero => cases hsort
  | succ depth ih =>
    simp only [quicksortOmpDepth, if_true] at hsort
    rw [quicksortOmpTaskDepth]
    refine withInt_wp (hsafe.upTo _ (by omega)) ?_
    split_ifs at hsort ⊢
    · exact quicksortTaskDepth_wp _ hsafe hsort rfl
    · obtain ⟨x, c, i, j, hx, hloop, split⟩ := partition_window hpos hle hlen
      simp only [hx, hloop, Option.bind_eq_bind, Option.bind_some] at hsort
      obtain ⟨d, hleft, hright⟩ := Option.bind_eq_some_iff.mp hsort
      have hc := split.rearranged.length_eq
      have hmeet := split.meet
      refine withInt_wp hsafe.whole (readWindow_wp hx (partitionTask_wp hsafe.upTo hloop ?_))
      intro hi hj hj'
      have hd : d.length = c.length := by
        obtain ⟨d', hd', hre, _⟩ := callIf_sorts
          (fun hlt => quicksortOmpDepth_sorts (fun _ => true) depth c.length first (i - 1)
            (true :: path) hpos hlt.le (by omega) (by omega)) c rfl
        obtain rfl : d' = d := Option.some.inj (hd'.symm.trans hleft)
        exact hre.length_eq
      refine ⟨⟨window first (i - 1), window (j + 1) last, ⟨?_, ?_⟩, ?_, ?_⟩, ?_⟩
      · rintro k ⟨_, hk⟩ ⟨hk', _⟩
        omega
      · rintro k ⟨hk, _⟩ ⟨_, hk'⟩
        omega
      · apply withInt_within
        split_ifs
        · exact quicksortOmpTaskDepth_within depth fun k h₁ h₂ => ⟨⟨h₁, h₂⟩, h₁, h₂⟩
        · trivial
      · apply withInt_within
        split_ifs
        · exact quicksortOmpTaskDepth_within depth fun k h₁ h₂ => ⟨⟨h₁, h₂⟩, h₁, h₂⟩
        · trivial
      · refine (ompCall_wp (hsafe.upTo _ (by omega)) hleft fun hlt hcall =>
          ih (true :: path) hpos hlt.le (by omega) (by omega)
            (hsafe.sub le_rfl hlt (by omega)) hcall).mono ?_
        rintro _ m rfl
        refine (ompCall_wp (hsafe.upTo _ (by omega)) hright fun hlt hcall =>
          ih (false :: path) (by omega) hlt.le (by omega) (by omega)
            (hsafe.sub (by omega) hlt le_rfl) hcall).mono ?_
        rintro _ m' rfl
        exact ⟨rfl, rfl⟩

end Runs

section Unique

variable {first last : ℕ} {a b c : List K}

/-- The part `a(first:last)`. -/
def part (a : List K) (first last : ℕ) : List K := (a.take last).drop (first - 1)

omit [LinearOrder K] in
theorem elem_part (a : List K) {first last k : ℕ} (hk : 1 ≤ k)
    (hle : first - 1 + k ≤ last) : elem (part a first last) k = elem a (first - 1 + k) := by
  rw [part, elem_drop _ _ hk, elem_take hle]

omit [LinearOrder K] in
theorem take_part_drop (a : List K) {first last : ℕ} (hle : first - 1 ≤ last) :
    a.take (first - 1) ++ part a first last ++ a.drop last = a := by
  have htake : a.take (first - 1) = (a.take last).take (first - 1) := by
    rw [List.take_take, min_eq_left hle]
  rw [htake, part, List.take_append_drop, List.take_append_drop]

omit [LinearOrder K] in
theorem Rearranges.surroundings (h : Rearranges first last a b) (hpos : 1 ≤ first) :
    b.take (first - 1) = a.take (first - 1) ∧ b.drop last = a.drop last := by
  constructor
  · apply ext_elem
    intro k
    by_cases hk : k ≤ first - 1
    · rw [elem_take hk, elem_take hk, h.frame k (by omega)]
    · rw [elem_eq_none_iff.mpr (.inr (by rw [List.length_take]; omega)),
        elem_eq_none_iff.mpr (.inr (by rw [List.length_take]; omega))]
  · apply ext_elem
    intro k
    obtain rfl | hk := Nat.eq_zero_or_pos k
    · rfl
    · rw [elem_drop _ _ hk, elem_drop _ _ hk, h.frame (last + k) (by omega)]

omit [LinearOrder K] in
theorem Rearranges.part_perm (h : Rearranges first last a b) (hpos : 1 ≤ first)
    (hle : first - 1 ≤ last) :
    (part b first last).Perm (part a first last) := by
  obtain ⟨hbefore, hafter⟩ := Rearranges.surroundings h hpos
  have hperm := h.perm
  rw [← take_part_drop a hle, ← take_part_drop b hle, hbefore, hafter] at hperm
  exact (List.perm_append_left_iff _).mp ((List.perm_append_right_iff _).mp hperm)

theorem SortedOn.part_sorted (h : SortedOn first last a) (hpos : 1 ≤ first) :
    (part a first last).Pairwise (· ≤ ·) := by
  rw [pairwise_iff_elem]
  intro k l u v hkl hu hv
  have hk := elem_range hu
  have hl := elem_range hv
  have hlen : (part a first last).length ≤ last - (first - 1) := by
    simp [part]
    omega
  rw [elem_part a hk.1 (by omega)] at hu
  rw [elem_part a (by omega) (by omega)] at hv
  exact h _ _ u v (by omega) (by omega) (by omega) hu hv

/-- Two sorted rearrangements of one window are the same array. -/
theorem Rearranges.unique (hb : Rearranges first last a b) (hc : Rearranges first last a c)
    (hpos : 1 ≤ first) (hle : first ≤ last) (hsb : SortedOn first last b)
    (hsc : SortedOn first last c) : b = c := by
  have hperm : (part b first last).Perm (part c first last) :=
    (Rearranges.part_perm hb hpos (by omega)).trans
      (Rearranges.part_perm hc hpos (by omega)).symm
  have hpart : part b first last = part c first last :=
    hperm.eq_of_pairwise' (SortedOn.part_sorted hsb hpos) (SortedOn.part_sorted hsc hpos)
  have hbefore := (Rearranges.surroundings hb hpos).1.trans (Rearranges.surroundings hc hpos).1.symm
  have hafter := (Rearranges.surroundings hb hpos).2.trans (Rearranges.surroundings hc hpos).2.symm
  have hle' : first - 1 ≤ last := by omega
  rw [← take_part_drop b hle', hbefore, hpart, hafter, take_part_drop c hle']

end Unique

abbrev anyInt : ℕ → Prop := fun _ => True

theorem safeInts_any (first last : ℕ) : SafeInts anyInt first last :=
  ⟨fun _ _ => trivial, trivial, fun _ _ _ _ _ => trivial⟩

theorem quicksortOmpTask_whole {a b : List K} (hlen : 1 ≤ a.length) (hperm : b.Perm a)
    (hsorted : b.Pairwise (· ≤ ·)) :
    RunsTo (quicksortOmpTask anyInt 1 a.length) a (fun _ m => m = b) := by
  obtain ⟨c, hc, hcperm, hcsorted⟩ :=
    (quicksortOmp_sorts (fun _ => true) a.length 1 a.length le_rfl hlen le_rfl).whole a rfl
  obtain rfl : c = b := (hcperm.trans hperm.symm).eq_of_pairwise' hcsorted hsorted
  exact (quicksortOmpTaskDepth_wp _ [] le_rfl hlen le_rfl (by omega) (safeInts_any _ _) hc).runsTo

/-- The non-negative values of `integer`. -/
abbrev int32 : ℕ → Prop := fun v => v < 2 ^ 31

theorem safeInts_int32 {first last : ℕ} (hlast : last ≤ 2 ^ 30) (hsum : first + last < 2 ^ 31) :
    SafeInts int32 first last where
  upTo v hv := by
    show v < 2 ^ 31
    omega
  whole := hsum
  sums f l _ hfl hl := by
    show f + l < 2 ^ 31
    omega

/-- The runs of a sort: they end with `b` and stay in their window. -/
structure SortsTo (sort : SortTask K) (first last : ℕ) (a b : List K) : Prop where
  staysIn : StaysIn (window first last) sort a
  runsTo : RunsTo sort a (fun _ m => m = b)

theorem window_covers (first last : ℕ) : Covers (window first last) first last :=
  fun _ h₁ h₂ => ⟨⟨h₁, h₂⟩, h₁, h₂⟩

section Machines

variable {range : ℕ → Prop} [DecidablePred range] {first last : ℕ} {a b : List K}

theorem sortsTo_quicksortTask (hsafe : SafeInts range first last)
    (hb : quicksort a first last = some b) :
    SortsTo (quicksortTask range first last) first last a b := by
  have hwithin : Within (window first last) (.done () : SortTask K) := trivial
  have hdone : wp (.done () : SortTask K) (fun _ m => m = b) b := rfl
  exact ⟨(quicksortTaskDepth_within _ (window_covers first last) hwithin).staysIn a,
    (quicksortTaskDepth_wp _ hsafe hb hdone).runsTo⟩

theorem sortsTo_quicksortOmpTask (hsafe : SafeInts range first last) (hpos : 1 ≤ first)
    (hle : first ≤ last) (hlen : last ≤ a.length) (hb : quicksort a first last = some b) :
    SortsTo (quicksortOmpTask range first last) first last a b := by
  obtain ⟨b', hb', hre, hsorted⟩ := quicksort_sorts a.length first last hpos hle hlen a rfl
  obtain rfl : b' = b := Option.some.inj (hb'.symm.trans hb)
  obtain ⟨c, hc, hre', hsorted'⟩ :=
    quicksortOmp_sorts (fun _ => true) a.length first last hpos hle hlen a rfl
  obtain rfl : c = b' := Rearranges.unique hre' hre hpos hle hsorted' hsorted
  exact ⟨(quicksortOmpTaskDepth_within _ (window_covers first last)).staysIn a,
    (quicksortOmpTaskDepth_wp _ [] hpos hle hlen (by omega) hsafe hc).runsTo⟩

end Machines

/-- Both sorts end, stay inside their window, and leave it sorted, permuted and
the rest as it was; every interleaving of the tasks of `quicksort_omp` gives the
array of `quicksort`. The integers of the machine suffice up to `2^30`. -/
theorem quicksort_correct (a : List K) (first last : ℕ) (hpos : 1 ≤ first)
    (hle : first ≤ last) (hlen : last ≤ a.length) :
    ∃ b, quicksort a first last = some b ∧ b.length = a.length ∧
      SortedOn first last b ∧ (part b first last).Perm (part a first last) ∧
      (∀ k, k < first ∨ last < k → elem b k = elem a k) ∧
      SortsTo (quicksortTask anyInt first last) first last a b ∧
      SortsTo (quicksortOmpTask anyInt first last) first last a b ∧
      (last ≤ 2 ^ 30 → first + last < 2 ^ 31 →
        SortsTo (quicksortTask int32 first last) first last a b ∧
        SortsTo (quicksortOmpTask int32 first last) first last a b) := by
  obtain ⟨b, hb, hre, hsorted⟩ := quicksort_sorts a.length first last hpos hle hlen a rfl
  have hany := safeInts_any first last
  refine ⟨b, hb, hre.length_eq, hsorted, Rearranges.part_perm hre hpos (by omega), hre.frame,
    sortsTo_quicksortTask hany hb, sortsTo_quicksortOmpTask hany hpos hle hlen hb, ?_⟩
  intro hlast hsum
  have hint := safeInts_int32 hlast hsum
  exact ⟨sortsTo_quicksortTask hint hb, sortsTo_quicksortOmpTask hint hpos hle hlen hb⟩

theorem quicksort_correct_three_elements :
    ∃ b, quicksort [(2 : ℕ), 3, 1, 0] 1 3 = some b ∧ b.length = 4 ∧
      SortedOn 1 3 b ∧ (part b 1 3).Perm (part [2, 3, 1, 0] 1 3) ∧
      (∀ k, k < 1 ∨ 3 < k → elem b k = elem [2, 3, 1, 0] k) ∧
      SortsTo (quicksortTask int32 1 3) 1 3 [2, 3, 1, 0] b ∧
      SortsTo (quicksortOmpTask int32 1 3) 1 3 [2, 3, 1, 0] b := by
  obtain ⟨b, hb, hlength, hsorted, hperm, hframe, -, -, hint⟩ :=
    quicksort_correct [2, 3, 1, 0] 1 3 le_rfl (by norm_num) (by simp)
  exact ⟨b, hb, hlength, hsorted, hperm, hframe, hint (by decide) (by decide)⟩

end XWebQL.QuicksortTasks
