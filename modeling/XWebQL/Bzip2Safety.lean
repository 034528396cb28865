import XWebQL.Bzip2Rotations
import XWebQL.Bzip2Symbols
import XWebQL.JsNumber

/-! What the decoder does with any bytes whatever.
It reads forward and ends after finitely many steps: a stream that is not a
compressed text ends in one of the exceptions that the decoder throws itself. From
outside an array it takes the limit of a code of 20 bits, which leads to such an
exception, and the selector of an index that is none, which counts as zero. -/

namespace XWebQL.Bzip2Safety

open Bzip2Reader Bzip2Decoder Bzip2Tables Bzip2Symbols Bzip2Rotations JsNumber

section Rules

variable {α β : Type} {P : α → Prop} {Q : β → Prop}

/-- The result satisfies `P`, or is an exception of the decoder. -/
def Safe (result : Except Failure α) (P : α → Prop) : Prop :=
  (∀ x, result = .ok x → P x) ∧ ∀ e, result = .error e → ∃ message, e = .thrown message

def Sound (op : Bits α) (P : α → Prop) : Prop :=
  ∀ r, Safe (op.run r) fun p => P p.1 ∧ p.2.left ≤ r.left

theorem Safe.ok {x : α} (h : P x) : Safe (.ok x) P := by
  refine ⟨fun y hy => ?_, fun e he => ?_⟩
  · cases hy
    exact h
  · cases he

theorem Safe.throwing (message : String) : Safe (throwing message) P := by
  refine ⟨fun y hy => ?_, fun e he => ?_⟩
  · cases hy
  · cases he
    exact ⟨message, rfl⟩

theorem Safe.bind {result : Except Failure α} {f : α → Except Failure β} (h : Safe result P)
    (h' : ∀ x, P x → Safe (f x) Q) : Safe (result >>= f) Q := by
  cases result with
  | ok x => exact h' x (h.1 x rfl)
  | error e =>
    refine ⟨fun y hy => ?_, fun e' he => ?_⟩
    · cases hy
    · cases he
      exact h.2 e rfl

theorem Safe.mono {result : Except Failure α} {P' : α → Prop} (h : Safe result P)
    (h' : ∀ x, P x → P' x) : Safe result P' :=
  ⟨fun x hx => h' x (h.1 x hx), h.2⟩

theorem Sound.pure {x : α} (h : P x) : Sound (pure x) P := fun _ => Safe.ok ⟨h, le_rfl⟩

theorem Sound.bind {op : Bits α} {f : α → Bits β} (h : Sound op P)
    (h' : ∀ x, P x → Sound (f x) Q) : Sound (op >>= f) Q := by
  intro r
  rw [StateT.run_bind]
  refine (h r).bind fun p hp => ?_
  exact (h' p.1 hp.1 p.2).mono fun q hq => ⟨hq.1, hq.2.trans hp.2⟩

theorem Sound.lift {result : Except Failure α} (h : Safe result P) : Sound (liftM result) P := by
  intro r
  refine ⟨fun p hp => ?_, fun e he => ?_⟩
  · obtain ⟨hresult, hr⟩ := BitStream.run_lift_ok hp
    exact ⟨h.1 _ hresult, hr ▸ le_rfl⟩
  · cases result with
    | ok x => cases he
    | error e' =>
      cases he
      exact h.2 e rfl

theorem Sound.bits (n : ℕ) : Sound (bits n) fun _ => True := by
  intro r
  refine Safe.ok ⟨trivial, ?_⟩
  rw [left_read]
  exact Nat.sub_le _ _

theorem Sound.throwing (message : String) : Sound (liftM (throwing message)) P :=
  Sound.lift (Safe.throwing message)

theorem Sound.guard {c : Prop} [Decidable c] {message : String} {next : Unit → Bits β}
    (h : ¬ c → Sound (next ()) Q) :
    Sound (if c then (liftM (Bzip2Decoder.throwing message) : Bits Unit) >>= next else next ())
      Q := by
  split_ifs with hc
  · exact (Sound.throwing (P := fun _ => False) message).bind fun _ h => h.elim
  · exact h hc

end Rules

section Fields

theorem sound_symbolRange (t i : ℕ) (symToByte : List ℕ)
    (h : symToByte.length ≤ 16 * i ∧ ∀ b ∈ symToByte, b < 16 * i) :
    Sound (symbolRange t symToByte i) fun l =>
      l.length ≤ 16 * (i + 1) ∧ ∀ b ∈ l, b < 16 * (i + 1) := by
  rw [symbolRange]
  split_ifs with htest
  · refine (Sound.bits 16).bind fun k _ => Sound.pure ⟨?_, fun b hb => ?_⟩
    · have hlen := List.length_filterMap_le (fun j =>
        if k &&& 1 <<< (15 - j) ≠ 0 then some (16 * i + j) else none) (List.range 16)
      rw [List.length_range] at hlen
      rw [List.length_append]
      omega
    · rcases List.mem_append.mp hb with hb | hb
      · have := h.2 b hb
        omega
      · obtain ⟨j, hj, hbyte⟩ := List.mem_filterMap.mp hb
        rw [List.mem_range] at hj
        split_ifs at hbyte with hbit
        · cases hbyte
          omega
  · refine Sound.pure ⟨by omega, fun b hb => ?_⟩
    have := h.2 b hb
    omega

theorem sound_symbolMap : Sound symbolMap fun l => l.length ≤ 256 ∧ ∀ b ∈ l, b < 256 := by
  refine (Sound.bits 16).bind fun t _ => ?_
  have hfold : ∀ n, Sound ((List.range n).foldlM (symbolRange t) []) fun l =>
      l.length ≤ 16 * n ∧ ∀ b ∈ l, b < 16 * n := by
    intro n
    induction n with
    | zero => exact Sound.pure ⟨le_rfl, List.forall_mem_nil _⟩
    | succ n ih =>
      rw [List.range_succ, List.foldlM_append]
      refine ih.bind fun l hl => ?_
      rw [List.foldlM_cons]
      exact (sound_symbolRange t n l hl).bind fun l' hl' => Sound.pure hl'
  exact hfold 16

theorem sound_selectorIndex (groupCount j : ℕ) :
    Sound (selectorIndex groupCount j) fun _ => True := by
  induction hn : groupCount - j generalizing j with
  | zero =>
    rw [selectorIndex]
    refine (Sound.bits 1).bind fun b _ => ?_
    split_ifs with hb hj
    · exact Sound.pure trivial
    · exact Sound.throwing _
    · omega
  | succ n ih =>
    rw [selectorIndex]
    refine (Sound.bits 1).bind fun b _ => ?_
    split_ifs with hb hj
    · exact Sound.pure trivial
    · omega
    · exact ih (j + 1) (by omega)

/-- Every selector is the number of a table, also behind an index that is none. -/
theorem sound_readSelectors {groupCount : ℕ} (hpos : 0 < groupCount) (n : ℕ)
    (mtfSymbol : List (Option ℕ)) (h : ∀ k, some k ∈ mtfSymbol → k < groupCount) :
    Sound (readSelectors groupCount n mtfSymbol) fun l => ∀ i ∈ l, i < groupCount := by
  induction n generalizing mtfSymbol with
  | zero => exact Sound.pure (List.forall_mem_nil _)
  | succ n ih =>
    rw [readSelectors]
    refine (sound_selectorIndex groupCount 0).bind fun j _ => ?_
    have hfront : ∀ k, mtfSymbol[j]?.join = some k → k < groupCount := by
      intro k hk
      rw [Option.join_eq_some_iff] at hk
      exact h k (List.mem_of_getElem? hk)
    refine (ih _ fun k hk => ?_).bind fun l hl => Sound.pure ?_
    · rcases List.mem_cons.mp hk with hk | hk
      · exact hfront k hk.symm
      · exact h k (List.mem_of_mem_eraseIdx hk)
    · intro i hi
      rcases List.mem_cons.mp hi with rfl | hi
      · cases huc : mtfSymbol[j]?.join with
        | none => exact hpos
        | some k => exact hfront k huc
      · exact hl i hi

theorem sound_lengthLoop (t : ℕ) : Sound (lengthLoop t : Bits ℕ) fun _ => True := by
  intro r
  induction hn : r.left using Nat.strong_induction_on generalizing t r with
  | _ n ih =>
    subst hn
    have hrun : StateT.run (m := Except Failure) (lengthLoop t) r = lengthLoop t r := rfl
    rw [hrun, lengthLoop]
    split_ifs with ht hmore
    · exact Safe.throwing _
    · refine Safe.ok ⟨trivial, ?_⟩
      rw [left_read]
      exact Nat.sub_le _ _
    · have hleft : r.left ≠ 0 := fun hzero => hmore (read_eq_zero hzero 1)
      refine (ih _ ?_ _ _ rfl).mono fun p hp => ⟨trivial, hp.2.trans ?_⟩
      · rw [left_read, left_read]
        omega
      · rw [left_read, left_read]
        omega

theorem sound_codeLengths (n t : ℕ) : Sound (codeLengths n t) fun _ => True := by
  induction n generalizing t with
  | zero => exact Sound.pure trivial
  | succ n ih =>
    rw [codeLengths]
    exact (sound_lengthLoop t).bind fun l _ => (ih l).bind fun ls _ => Sound.pure trivial

def Sized (g : HufGroup) : Prop :=
  g.limit.length = 20 ∧ g.base.length = 20 ∧ MAX_SYMBOLS ≤ g.permute.length

theorem sized_hufGroup (length : List ℕ) : Sized (hufGroup length) := by
  refine ⟨length_limit length, length_base length, ?_⟩
  have hdef : (hufGroup length).permute = sortedSymbols length (lengthBounds length).1
      (lengthBounds length).2 ++ List.replicate (MAX_SYMBOLS - (sortedSymbols length
      (lengthBounds length).1 (lengthBounds length).2).length) 0 := rfl
  rw [hdef, List.length_append, List.length_replicate]
  omega

theorem sound_readGroups (symCount n : ℕ) :
    Sound (readGroups symCount n) fun l => l.length = n ∧ ∀ g ∈ l, Sized g := by
  induction n with
  | zero => exact Sound.pure ⟨rfl, List.forall_mem_nil _⟩
  | succ n ih =>
    rw [readGroups]
    refine (Sound.bits 5).bind fun t _ => (sound_codeLengths symCount t).bind fun length _ => ?_
    refine ih.bind fun l hl => Sound.pure ⟨?_, fun g hg => ?_⟩
    · rw [List.length_cons, hl.1]
    · rcases List.mem_cons.mp hg with rfl | hg
      · exact sized_hufGroup length
      · exact hl.2 g hg

end Fields

section Loop

variable {bufsize : ℕ} {symToByte : List ℕ} {s : Symbols} {g : HufGroup}

theorem safe_fetch {l : List ℕ} {i : ℕ} (hi : i < l.length) {P : ℕ → Prop} (h : ∀ b ∈ l, P b) :
    Safe (fetch l i) P := by
  rw [fetch, List.getElem?_eq_getElem hi]
  exact Safe.ok (h _ (List.getElem_mem hi))

/-- A code that has got past the limits ends in an exception. -/
theorem symbolLoop_outside (hg : g.limit.length = 20) {i : ℕ} (hi : 20 ≤ i) (j : ℕ) (r : Reader) :
    (symbolLoop g i j).run r = throwing "rawr i'm a dinosaur" := by
  induction hn : g.maxLen + 1 - i generalizing i j r with
  | zero =>
    rw [symbolLoop, dif_pos (by omega)]
    rfl
  | succ n ih =>
    have hnone : ¬ g.limit[i]?.any (j ≤ ·) = true := by
      rw [List.getElem?_eq_none (by omega), Option.any_none]
      exact Bool.false_ne_true
    rw [symbolLoop_reject (by omega) hnone]
    exact ih (Nat.le_succ_of_le hi) _ _ (by omega)

theorem sound_symbolLoop (hg : g.limit.length = 20) (i j : ℕ) :
    Sound (symbolLoop g i j) fun p => p.1 < 20 := by
  induction hn : g.maxLen + 1 - i generalizing i j with
  | zero =>
    rw [symbolLoop, dif_pos (by omega)]
    exact Sound.throwing _
  | succ n ih =>
    rcases Nat.lt_or_ge i 20 with hi | hi
    · rw [symbolLoop, dif_neg (by omega)]
      split_ifs with haccept
      · exact Sound.pure hi
      · exact (Sound.bits 1).bind fun b _ => ih (i + 1) _ (by omega)
    · intro r
      rw [symbolLoop_outside hg hi]
      exact Safe.throwing _

theorem sound_nextSymbol (hg : Sized g) : Sound (nextSymbol g) fun _ => True := by
  rw [nextSymbol]
  refine (Sound.bits g.minLen).bind fun j _ => (sound_symbolLoop hg.1 _ _).bind fun p hp => ?_
  refine (Sound.lift (safe_fetch (P := fun _ => True) (by rw [hg.2.1]; exact hp)
    fun _ _ => trivial)).bind fun b _ => ?_
  dsimp only
  refine Sound.guard fun hcow => ?_
  refine Sound.lift (safe_fetch (by have := hg.2.2; omega) fun _ _ => trivial)

/-- A run of `k` symbols, as far as an integer holds its weight. -/
def RunOk (s : Symbols) : Prop :=
  s.runPos = 0 ∨ ∃ k ≤ 31, s.runPos = Int.bmod (2 ^ k) (2 ^ 32) ∧ 2 ^ k - 1 ≤ s.t

/-- The buffer holds bytes that are counted, and the symbols have places among 256. -/
structure Valid (bufsize : ℕ) (s : Symbols) : Prop where
  holds : ∃ out, Holds bufsize out s ∧ ∀ b ∈ out, b < 256
  mtf : s.mtfSymbol.length = 256 ∧ ∀ i ∈ s.mtfSymbol, i < 256
  run : RunOk s

theorem double_bmod (k : ℕ) :
    double (Int.bmod (2 ^ k) (2 ^ 32)) = Int.bmod (2 ^ (k + 1)) (2 ^ 32) := by
  rw [double, Int.mul_bmod_bmod, ← pow_succ']

theorem bmod_two_pow {k : ℕ} (hk : k ≤ 30) : Int.bmod (2 ^ k) (2 ^ 32) = 2 ^ k := by
  have hpow : (2 : ℤ) ^ k ≤ 2 ^ 30 := pow_le_pow_right₀ (by norm_num) hk
  have hpos : (0 : ℤ) < 2 ^ k := by positivity
  rw [Int.bmod_eq_of_le] <;> norm_num at hpow ⊢ <;> omega

/-- The weight of a run that an integer does not hold is zero again, before its
length could become negative. -/
theorem runOk_extendRun (h : RunOk s) (d : ℕ) : RunOk (s.extendRun d) := by
  have hstep : ∀ {s : Symbols} {k : ℕ}, k ≤ 31 → s.runPos = Int.bmod (2 ^ k) (2 ^ 32) →
      2 ^ k - 1 ≤ s.t → s.runPos ≠ 0 → RunOk (s.extendRun d) := by
    intro s k hk hrun ht hne
    rw [Symbols.extendRun, if_neg hne, RunOk]
    dsimp only
    rw [hrun, double_bmod]
    rcases Nat.lt_succ_iff_lt_or_eq.mp (Nat.lt_succ_of_le hk) with hlt | rfl
    · refine Or.inr ⟨k + 1, hlt, rfl, ?_⟩
      have hpos : (0 : ℤ) < 2 ^ k := by positivity
      rw [bmod_two_pow (by omega), pow_succ]
      split_ifs <;> omega
    · exact Or.inl (by decide)
  by_cases hzero : s.runPos = 0
  · have hstart : s.extendRun d = Symbols.extendRun d { s with runPos := 1, t := 0 } := by
      simp only [Symbols.extendRun, hzero, one_ne_zero, ↓reduceIte]
    rw [hstart]
    exact hstep (k := 0) (by norm_num) (show (1 : ℤ) = _ by decide) (by norm_num) one_ne_zero
  · rcases h with h | ⟨k, hk, hrun, ht⟩
    · exact absurd h hzero
    · exact hstep hk hrun ht hzero

theorem extendRun_frame (d : ℕ) (s : Symbols) : (s.extendRun d).mtfSymbol = s.mtfSymbol ∧
    (s.extendRun d).byteCount = s.byteCount ∧ (s.extendRun d).buf = s.buf ∧
    (s.extendRun d).count = s.count := by
  rw [Symbols.extendRun]
  split_ifs <;> exact ⟨rfl, rfl, rfl, rfl⟩

theorem valid_extendRun (h : Valid bufsize s) (d : ℕ) : Valid bufsize (s.extendRun d) := by
  obtain ⟨hmtf, hbyteCount, hbuf, hcount⟩ := extendRun_frame d s
  obtain ⟨out, hholds, hout⟩ := h.holds
  refine ⟨⟨out, ⟨?_, ?_, ?_, hholds.fits⟩, hout⟩, ?_, runOk_extendRun h.run d⟩
  · rw [hcount, hholds.count]
  · rw [hbuf, hholds.buf]
  · rw [hbyteCount, hholds.byteCount]
  · rw [hmtf]
    exact h.mtf

theorem exists_byteOf (hbytes : ∀ b ∈ symToByte, b < 256) {i : ℕ} (hi : i < 256) :
    ∃ b < 256, byteOf symToByte i = .ok b := by
  have hlen : i < (symToByte ++ List.replicate (256 - symToByte.length) 0).length := by
    rw [List.length_append, List.length_replicate]
    omega
  have hmem := List.getElem_mem hlen
  refine ⟨_, ?_, fetch_eq_ok (List.getElem?_eq_getElem hlen)⟩
  rcases List.mem_append.mp hmem with hmem | hmem
  · exact hbytes _ hmem
  · rw [List.eq_of_mem_replicate hmem]
    norm_num

theorem valid_append {out : List ℕ} {n b : ℕ} (hout : ∀ b ∈ out, b < 256) (hb : b < 256) :
    ∀ c ∈ out ++ List.replicate n b, c < 256 := by
  intro c hc
  rcases List.mem_append.mp hc with hc | hc
  · exact hout c hc
  · rwa [List.eq_of_mem_replicate hc]

theorem safe_endRun (hbytes : ∀ b ∈ symToByte, b < 256) (h : Valid bufsize s) :
    Safe (s.endRun bufsize symToByte) fun s' => Valid bufsize s' ∧ s'.runPos = 0 := by
  by_cases hzero : s.runPos = 0
  · rw [endRun_zero hzero]
    exact Safe.ok ⟨h, hzero⟩
  · by_cases hboom : (bufsize : ℤ) ≤ s.count + s.t
    · rw [Symbols.endRun, if_neg hzero, if_pos hboom]
      exact Safe.throwing _
    · obtain ⟨out, hholds, hout⟩ := h.holds
      obtain ⟨k, hk, hrun, ht⟩ := h.run.resolve_left hzero
      have hpos : (1 : ℤ) ≤ 2 ^ k := one_le_pow₀ (by norm_num)
      have htn : s.t = (s.t.toNat : ℤ) := (Int.toNat_of_nonneg (by omega)).symm
      have hlen : 0 < s.mtfSymbol.length := by
        rw [h.mtf.1]
        norm_num
      have hfront := List.getElem?_eq_getElem hlen
      obtain ⟨b, hb, hbyte⟩ := exists_byteOf hbytes (h.mtf.2 _ (List.mem_of_getElem? hfront))
      rw [hholds.count] at hboom
      obtain ⟨s', hend, hholds', hrun', hmtf'⟩ := endRun_eq hholds hzero htn (by omega) hfront hbyte
      rw [hend]
      refine Safe.ok ⟨⟨⟨_, hholds', valid_append hout hb⟩, ?_, Or.inl hrun'⟩, hrun'⟩
      rw [hmtf']
      exact h.mtf

theorem safe_byte (hbytes : ∀ b ∈ symToByte, b < 256) {nextSym : ℕ} (hsym : nextSym ≤ 256)
    (hrun : s.runPos = 0) (h : Valid bufsize s) :
    Safe (s.byte bufsize symToByte nextSym) fun s' => Valid bufsize s' := by
  obtain ⟨out, hholds, hout⟩ := h.holds
  by_cases hfull : bufsize ≤ s.count
  · rw [Symbols.byte, if_pos hfull]
    exact Safe.throwing _
  · have hlt : nextSym - 1 < s.mtfSymbol.length := by
      rw [h.mtf.1]
      omega
    have hget := List.getElem?_eq_getElem hlt
    have hi := h.mtf.2 _ (List.getElem_mem hlt)
    obtain ⟨b, hb, hbyte⟩ := exists_byteOf hbytes hi
    rw [hholds.count] at hfull
    obtain ⟨s', hs', hholds', hrun', hmtf'⟩ := byte_eq _ hholds (by omega) hget hbyte
    rw [hs']
    refine Safe.ok ⟨⟨_, hholds', valid_append (n := 1) hout hb⟩, ?_, Or.inl (hrun'.trans hrun)⟩
    rw [hmtf', List.length_cons, List.length_eraseIdx_of_lt hlt, h.mtf.1]
    refine ⟨rfl, fun i hmem => ?_⟩
    rcases List.mem_cons.mp hmem with rfl | hmem
    · exact hi
    · exact h.mtf.2 i (List.mem_of_mem_eraseIdx hmem)

theorem safe_next (hbytes : ∀ b ∈ symToByte, b < 256) (hlen : symToByte.length ≤ 256)
    (d : ℕ) (h : Valid bufsize s) :
    Safe (s.next bufsize symToByte d) fun p => Valid bufsize p.1 := by
  rw [Symbols.next]
  by_cases hrun : d = SYMBOL_RUNA ∨ d = SYMBOL_RUNB
  · rw [if_pos hrun]
    exact Safe.ok (valid_extendRun h d)
  · rw [if_neg hrun]
    refine (safe_endRun hbytes h).bind fun s' hs' => ?_
    split_ifs with hlast
    · exact Safe.ok hs'.1
    · exact (safe_byte hbytes (by omega) hs'.2 hs'.1).bind fun s'' hs'' => Safe.ok hs''

theorem sound_groupLoop (hbytes : ∀ b ∈ symToByte, b < 256) (hlen : symToByte.length ≤ 256)
    (hg : Sized g) (n : ℕ) (h : Valid bufsize s) :
    Sound (groupLoop bufsize symToByte g n s) fun p => Valid bufsize p.1 := by
  induction n generalizing s with
  | zero => exact Sound.pure h
  | succ n ih =>
    rw [groupLoop]
    refine (sound_nextSymbol hg).bind fun d _ => ?_
    refine (Sound.lift (safe_next hbytes hlen d h)).bind fun p hp => ?_
    dsimp only
    split_ifs with hlast
    · exact Sound.pure hp
    · exact ih hp

theorem sound_selectorLoop (hbytes : ∀ b ∈ symToByte, b < 256) (hlen : symToByte.length ≤ 256)
    {groups : List HufGroup} (hgroups : ∀ g ∈ groups, Sized g) (selectors : List ℕ)
    (hselectors : ∀ i ∈ selectors, i < groups.length) (h : Valid bufsize s) :
    Sound (selectorLoop bufsize symToByte groups selectors s) (Valid bufsize) := by
  induction selectors generalizing s with
  | nil => exact Sound.throwing _
  | cons selector selectors ih =>
    have hlt := hselectors selector List.mem_cons_self
    have hfetch : Safe (fetch groups selector) Sized := by
      rw [fetch, List.getElem?_eq_getElem hlt]
      exact Safe.ok (hgroups _ (List.getElem_mem hlt))
    rw [selectorLoop]
    refine (Sound.lift hfetch).bind fun g hg => ?_
    refine (sound_groupLoop hbytes hlen hg GROUP_SIZE h).bind fun p hp => ?_
    dsimp only
    split_ifs with hlast
    · exact Sound.pure hp
    · exact ih (fun i hi => hselectors i (List.mem_cons_of_mem selector hi)) hp

theorem valid_start (bufsize : ℕ) : Valid bufsize (Symbols.start bufsize) where
  holds := ⟨[], holds_start bufsize, List.forall_mem_nil _⟩
  mtf := by
    simp only [Symbols.start, List.length_range, List.mem_range, true_and]
    exact fun i hi => hi
  run := Or.inl rfl

theorem safe_output {origPtr : ℕ} (h : Valid bufsize s) (horig : origPtr < s.count) :
    Safe (output origPtr s) fun _ => True := by
  obtain ⟨out, hholds, hout⟩ := h.holds
  rw [hholds.count] at horig
  obtain ⟨buf, -, houtput⟩ := output_eq hout hholds.count ⟨_, hholds.buf⟩ hholds.byteCount horig
  rw [houtput]
  exact Safe.ok trivial

theorem sound_block (bufsize : ℕ) : Sound (block bufsize) fun _ => True := by
  rw [block]
  refine (Sound.bits 32).bind fun _ _ => (Sound.bits 1).bind fun obsolete _ => ?_
  refine Sound.guard fun _ => (Sound.bits 24).bind fun origPtr _ => ?_
  refine Sound.guard fun _ => sound_symbolMap.bind fun symToByte hsym => ?_
  refine (Sound.bits 3).bind fun groupCount _ => ?_
  refine Sound.guard fun hcount => (Sound.bits 15).bind fun nSelectors _ => ?_
  refine Sound.guard fun _ => ?_
  refine (sound_readSelectors (show 0 < groupCount by omega) nSelectors _ fun k hk => ?_).bind
    fun selectors hselectors => ?_
  · obtain ⟨i, hi, hki⟩ := List.mem_map.mp hk
    cases hki
    exact List.mem_range.mp hi
  · refine (sound_readGroups _ groupCount).bind fun groups hgroups => ?_
    refine (sound_selectorLoop hsym.2 hsym.1 hgroups.2 selectors (by rwa [hgroups.1])
      (valid_start bufsize)).bind fun s hs => ?_
    refine Sound.guard fun horig => ?_
    exact Sound.lift (safe_output hs (by omega))

end Loop

section Stream

variable {size : ℕ} {r r' : Reader} {text : List Char}

theorem sound_hexDigits (n : ℕ) : Sound (hexDigits n) fun _ => True := by
  induction n with
  | zero => exact Sound.pure trivial
  | succ n ih =>
    rw [hexDigits]
    exact (Sound.bits 8).bind fun b _ => ih.bind fun h _ => Sound.pure trivial

theorem sound_decompress (size : ℕ) : Sound (decompress size) fun _ => True := by
  rw [decompress]
  refine (sound_hexDigits 6).bind fun h _ => ?_
  split_ifs with hend hmagic
  · exact Sound.pure trivial
  · exact (Sound.throwing (P := fun _ => False) _).bind fun _ h => h.elim
  · exact (sound_block _).bind fun text _ => Sound.pure trivial

theorem hexDigits_eq (n : ℕ) (r : Reader) : ∃ h r', (hexDigits n).run r = .ok (h, r') ∧
    r'.left = r.left - 8 * n ∧ (r.left = 0 → h = List.replicate n '0') := by
  induction n generalizing r with
  | zero => exact ⟨[], r, rfl, rfl, fun _ => rfl⟩
  | succ n ih =>
    obtain ⟨h, r', hrun, hleft, hzeros⟩ := ih (r.read 8).2
    rw [left_read] at hleft hzeros
    refine ⟨Nat.toDigits 16 (r.read 8).1 ++ h, r', ?_, by omega, fun hzero => ?_⟩
    · rw [hexDigits, StateT.run_bind]
      have hbits : (bits 8).run r = .ok (r.read 8) := rfl
      rw [hbits]
      change (hexDigits n >>= fun h => pure (Nat.toDigits 16 (r.read 8).1 ++ h)).run _ = _
      rw [StateT.run_bind, hrun]
      rfl
    · rw [read_eq_zero hzero, hzeros (by omega), List.replicate_succ]
      rfl

theorem decompress_left (h : (decompress size).run r = .ok (some text, r')) :
    r'.left < r.left := by
  obtain ⟨digits, r1, hrun, hleft, hzeros⟩ := hexDigits_eq 6 r
  rw [decompress, StateT.run_bind, hrun] at h
  change (if digits = endMagic then pure none else _ : Bits (Option (List Char))).run r1 = _ at h
  by_cases hend : digits = endMagic
  · rw [if_pos hend] at h
    cases h
  · rw [if_neg hend] at h
    by_cases hmagic : digits = blockMagic
    · rw [if_neg (not_not.mpr hmagic)] at h
      obtain ⟨text', r2, hblock, hsome⟩ := BitStream.run_bind_ok h
      cases hsome
      have hafter := ((sound_block _ r1).1 _ hblock).2
      have hpos : r.left ≠ 0 := by
        intro hzero
        rw [hzeros hzero] at hmagic
        exact absurd hmagic (by decide)
      dsimp only at hafter
      omega
    · rw [if_pos hmagic] at h
      cases h

/-- `do { all += chunk; chunk = bzip2.decompress(bits, size); } while (chunk != -1)`:
the comparison takes a text with the value -1 for the end. The loop makes at most
`n` turns here; each takes bits from the stream, so that it never wants more. -/
def simpleLoop (size : ℕ) : ℕ → List Char → Reader → Except Failure (List Char)
  | 0, _, _ => .error .hang
  | n + 1, all, r => do
    let (chunk, r) ← (decompress size).run r
    match chunk with
    | none => .ok all
    | some text => if minusOne text then .ok all else simpleLoop size n (all ++ text) r

def simple (r : Reader) : Except Failure (List Char) := do
  let (size, r) ← header.run r
  simpleLoop size (r.left + 1) [] r

theorem simpleLoop_end {n : ℕ} (all : List Char) (h : (decompress size).run r = .ok (none, r')) :
    simpleLoop size (n + 1) all r = .ok all := by
  rw [simpleLoop, h]
  rfl

theorem simpleLoop_chunk {n : ℕ} (all : List Char)
    (h : (decompress size).run r = .ok (some text, r')) : simpleLoop size (n + 1) all r =
      if minusOne text then .ok all else simpleLoop size n (all ++ text) r' := by
  rw [simpleLoop, h]
  rfl

theorem safe_simpleLoop (size n : ℕ) (all : List Char) (hn : r.left < n) :
    Safe (simpleLoop size n all r) fun _ => True := by
  induction n generalizing all r with
  | zero => exact absurd hn (Nat.not_lt_zero _)
  | succ n ih =>
    rw [simpleLoop]
    have hsound := sound_decompress size r
    cases hrun : (decompress size).run r with
    | error e =>
      refine ⟨fun _ _ => trivial, fun e' he => ?_⟩
      cases he
      exact hsound.2 e hrun
    | ok p =>
      obtain ⟨chunk, r'⟩ := p
      cases chunk with
      | none => exact Safe.ok trivial
      | some text =>
        change Safe (if minusOne text then .ok all else simpleLoop size n (all ++ text) r') _
        split_ifs with hminus
        · exact Safe.ok trivial
        · have hless := decompress_left hrun
          exact ih (all ++ text) (by omega)

theorem sound_header : Sound header fun _ => True := by
  rw [header]
  refine (Sound.bits _).bind fun magic _ => ?_
  refine Sound.guard fun _ => (Sound.bits 8).bind fun level _ => ?_
  exact Sound.guard fun _ => Sound.pure trivial

/-- Whatever the bytes are, the decoder ends: with a text or with an exception of its
own. -/
theorem simple_safe (bytes : List UInt8) :
    (∃ text, simple (array bytes) = .ok text) ∨
      ∃ message, simple (array bytes) = .error (.thrown message) := by
  have h : Safe (simple (array bytes)) fun _ => True := by
    refine Safe.bind (sound_header (array bytes)) fun p _ => ?_
    exact safe_simpleLoop p.1 (p.2.left + 1) [] (Nat.lt_succ_self _)
  cases hresult : simple (array bytes) with
  | ok text => exact Or.inl ⟨text, rfl⟩
  | error e =>
    obtain ⟨message, rfl⟩ := h.2 e hresult
    exact Or.inr ⟨message, rfl⟩

end Stream

end XWebQL.Bzip2Safety
