import XWebQL.Bzip2Tables
import XWebQL.MoveToFront
import Mathlib.Data.List.InsertIdx

/-! The loop over the symbols of a block.
The bytes in front of a symbol lie in the buffer and are counted. A run is only
written out by the symbol behind it, so the loop always ends with a run written. -/

namespace XWebQL.Bzip2Symbols

open BitStream Bzip2Reader Bzip2Decoder Bzip2Tables MoveToFront

variable {bufsize : ℕ} {symToByte out : List ℕ} {s : Symbols}

/-- The buffer holds `out`. -/
structure Holds (bufsize : ℕ) (out : List ℕ) (s : Symbols) : Prop where
  count : s.count = out.length
  buf : s.buf = out ++ List.replicate (bufsize - out.length) 0
  byteCount : s.byteCount = (List.range 256).map fun b => out.count b
  fits : out.length ≤ bufsize

theorem holds_start (bufsize : ℕ) : Holds bufsize [] (Symbols.start bufsize) where
  count := rfl
  buf := rfl
  byteCount := by
    simp only [List.count_nil, List.map_const', List.length_range]
    rfl
  fits := Nat.zero_le _

theorem set_append {n : ℕ} (out : List ℕ) (b : ℕ) :
    (out ++ List.replicate (n + 1) 0).set out.length b = (out ++ [b]) ++ List.replicate n 0 := by
  rw [List.set_append_right _ _ le_rfl, Nat.sub_self, List.replicate_succ, List.set_cons_zero,
    List.append_assoc, List.singleton_append]

theorem iterate_store {b : ℕ} (hbuf : s.buf = out ++ List.replicate (bufsize - out.length) 0)
    (hcount : s.count = out.length) (n : ℕ) (hn : out.length + n ≤ bufsize) :
    (Symbols.store b)^[n] s =
      { s with
        buf := (out ++ List.replicate n b) ++ List.replicate (bufsize - (out.length + n)) 0
        count := out.length + n } := by
  induction n with
  | zero =>
    rw [Function.iterate_zero, id, List.replicate_zero, List.append_nil, Nat.add_zero, ← hbuf,
      ← hcount]
  | succ n ih =>
    rw [Function.iterate_succ_apply', ih (by omega), Symbols.store]
    dsimp only
    have hlen : (out ++ List.replicate n b).length = out.length + n := by
      rw [List.length_append, List.length_replicate]
    have hroom : bufsize - (out.length + n) = bufsize - (out.length + (n + 1)) + 1 := by omega
    rw [hroom, ← hlen, set_append, List.append_assoc out, ← List.replicate_succ', hlen,
      Nat.add_assoc]

theorem modify_count (out : List ℕ) (b n : ℕ) :
    ((List.range 256).map fun c => out.count c).modify b (· + n) =
      (List.range 256).map fun c => (out ++ List.replicate n b).count c := by
  refine List.ext_getElem (by simp) fun c hc _ => ?_
  rw [List.getElem_modify, List.getElem_map, List.getElem_map, List.getElem_range,
    List.count_append, List.count_replicate]
  split_ifs with h1 h2 h2 <;> simp_all

theorem holds_replicate {b n : ℕ} (h : Holds bufsize out s) (hn : out.length + n ≤ bufsize) :
    Holds bufsize (out ++ List.replicate n b)
      ((Symbols.store b)^[n] { s with byteCount := s.byteCount.modify b (· + n) }) := by
  have hstore := iterate_store (s := { s with byteCount := s.byteCount.modify b (· + n) }) (b := b)
    h.buf h.count n hn
  have hlen : (out ++ List.replicate n b).length = out.length + n := by
    rw [List.length_append, List.length_replicate]
  rw [hstore]
  refine ⟨hlen.symm, ?_, ?_, hlen.trans_le hn⟩
  · rw [hlen]
  · rw [← modify_count, ← h.byteCount]

theorem iterate_store_frame (b n : ℕ) (s : Symbols) :
    ((Symbols.store b)^[n] s).runPos = s.runPos ∧
      ((Symbols.store b)^[n] s).mtfSymbol = s.mtfSymbol := by
  induction n with
  | zero => exact ⟨rfl, rfl⟩
  | succ n ih =>
    rw [Function.iterate_succ_apply']
    exact ih

theorem fetch_eq_ok {l : List ℕ} {i b : ℕ} (h : l[i]? = some b) : fetch l i = .ok b := by
  rw [fetch, h]
  rfl

theorem endRun_eq {b i n : ℕ} (h : Holds bufsize out s) (hrun : s.runPos ≠ 0) (ht : s.t = n)
    (hfits : out.length + n < bufsize) (hfront : s.mtfSymbol[0]? = some i)
    (hb : byteOf symToByte i = .ok b) :
    ∃ s', s.endRun bufsize symToByte = .ok s' ∧ Holds bufsize (out ++ List.replicate n b) s' ∧
      s'.runPos = 0 ∧ s'.mtfSymbol = s.mtfSymbol := by
  have hframe := iterate_store_frame b n
    { s with runPos := 0, byteCount := s.byteCount.modify b (· + n) }
  refine ⟨_, ?_, holds_replicate (s := { s with runPos := 0 }) ⟨h.count, h.buf, h.byteCount, h.fits⟩
    hfits.le, hframe.1, hframe.2⟩
  have hroom : ¬ (bufsize : ℤ) ≤ s.count + s.t := by
    rw [h.count, ht]
    omega
  rw [Symbols.endRun, if_neg hrun, if_neg hroom, fetch_eq_ok hfront]
  simp only [bind, Except.bind, hb]
  rw [if_neg (by omega), ht, Int.toNat_natCast]

theorem endRun_zero (hrun : s.runPos = 0) : s.endRun bufsize symToByte = .ok s := if_pos hrun

theorem byte_eq (nextSym : ℕ) {b i : ℕ} (h : Holds bufsize out s) (hfits : out.length < bufsize)
    (hi : s.mtfSymbol[nextSym - 1]? = some i) (hb : byteOf symToByte i = .ok b) :
    ∃ s', s.byte bufsize symToByte nextSym = .ok s' ∧ Holds bufsize (out ++ [b]) s' ∧
      s'.runPos = s.runPos ∧ s'.mtfSymbol = i :: s.mtfSymbol.eraseIdx (nextSym - 1) := by
  refine ⟨_, ?_, holds_replicate (b := b) (n := 1)
    (s := { s with mtfSymbol := i :: s.mtfSymbol.eraseIdx (nextSym - 1) })
    ⟨h.count, h.buf, h.byteCount, h.fits⟩ hfits, rfl, rfl⟩
  rw [Symbols.byte, if_neg (by rw [h.count]; omega)]
  simp only [fetch_eq_ok hi, bind, Except.bind, hb]
  rfl

section Runs

theorem double_two_pow {k : ℕ} (hk : k < 30) : double (2 ^ k) = 2 ^ (k + 1) := by
  have hpow : (2 : ℤ) ^ (k + 1) ≤ 2 ^ 30 := pow_le_pow_right₀ (by norm_num) (by omega)
  have hpos : (0 : ℤ) < 2 ^ (k + 1) := by positivity
  rw [double, ← pow_succ', Int.bmod_eq_of_le] <;> norm_num at hpow ⊢ <;> omega

/-- The run adds up the digits with their weights while these fit in an integer. -/
theorem foldl_extendRun (ds : List ℕ) (t k : ℕ) (hds : ∀ d ∈ ds, d < 2) (hk : k + ds.length ≤ 30)
    (hrun : s.runPos = 2 ^ k) (ht : s.t = t) :
    ds.foldl (fun s d => s.extendRun d) s =
      { s with
        runPos := ((ds.foldl weigh (t, 2 ^ k)).2 : ℕ)
        t := ((ds.foldl weigh (t, 2 ^ k)).1 : ℕ) } := by
  induction ds generalizing s t k with
  | nil =>
    have hpow : s.runPos = ((2 ^ k : ℕ) : ℤ) := by rw [hrun, Nat.cast_pow, Nat.cast_ofNat]
    rw [List.foldl_nil, List.foldl_nil, ← hpow, ← ht]
  | cons d ds ih =>
    rw [List.length_cons] at hk
    have hd := hds d List.mem_cons_self
    have hdigit : (if d = SYMBOL_RUNA then s.runPos else 2 * s.runPos) =
        (2 ^ k * (d + 1) : ℕ) := by
      rw [hrun, SYMBOL_RUNA]
      interval_cases d <;> simp [mul_comm]
    rw [List.foldl_cons, List.foldl_cons, Symbols.extendRun, if_neg (by rw [hrun]; positivity),
      ih (t + 2 ^ k * (d + 1)) (k + 1) (fun e he => hds e (List.mem_cons_of_mem d he)) (by omega)
        (by rw [hrun, double_two_pow (by omega)]) (by rw [ht, hdigit, Nat.cast_add]),
      pow_succ']
    rfl

theorem foldl_digits_start {n : ℕ} (hn : n ≠ 0) (hlen : (digits n).length ≤ 30)
    (hrun : s.runPos = 0) : (digits n).foldl (fun s d => s.extendRun d) s =
      { s with runPos := 2 ^ (digits n).length, t := n } := by
  have hstart : ∀ d, s.extendRun d = Symbols.extendRun d { s with runPos := 1, t := 0 } := by
    intro d
    simp only [Symbols.extendRun, hrun, one_ne_zero, ↓reduceIte]
  have hfirst : ∀ ds, ds ≠ [] → ds.foldl (fun s d => s.extendRun d) s =
      ds.foldl (fun s d => Symbols.extendRun d s) { s with runPos := 1, t := 0 } := by
    intro ds hds
    cases ds with
    | nil => exact absurd rfl hds
    | cons d ds => rw [List.foldl_cons, List.foldl_cons, hstart]
  have hne : digits n ≠ [] := by
    obtain ⟨m, rfl⟩ := Nat.exists_eq_succ_of_ne_zero hn
    rw [digits]
    exact List.cons_ne_nil _ _
  rw [hfirst _ hne, foldl_extendRun (s := { s with runPos := 1, t := 0 }) (digits n) 0 0
    (fun d hd => digits_lt hd) (by omega) (by norm_num) rfl, foldl_weigh]
  simp

end Runs

section Feeding

variable {table l : List ℕ} {s1 s2 s' : Symbols}

/-- The symbols lead from `s` to `s'`, none of them the last one. -/
def Feeds (bufsize : ℕ) (symToByte : List ℕ) : List ℕ → Symbols → Symbols → Prop
  | [], s, s' => s = s'
  | d :: ds, s, s' =>
    ∃ s1, s.next bufsize symToByte d = .ok (s1, false) ∧ Feeds bufsize symToByte ds s1 s'

theorem feeds_append (ds es : List ℕ) (s s1 s2 : Symbols) (h : Feeds bufsize symToByte ds s s1)
    (h' : Feeds bufsize symToByte es s1 s2) : Feeds bufsize symToByte (ds ++ es) s s2 := by
  induction ds generalizing s with
  | nil =>
    rw [Feeds] at h
    rwa [h, List.nil_append]
  | cons d ds ih =>
    obtain ⟨s3, hnext, hrest⟩ := h
    exact ⟨s3, hnext, ih s3 hrest⟩

theorem feeds_split (ds es : List ℕ) (s s2 : Symbols)
    (h : Feeds bufsize symToByte (ds ++ es) s s2) :
    ∃ s1, Feeds bufsize symToByte ds s s1 ∧ Feeds bufsize symToByte es s1 s2 := by
  induction ds generalizing s with
  | nil => exact ⟨s, rfl, h⟩
  | cons d ds ih =>
    obtain ⟨s3, hnext, hrest⟩ := h
    obtain ⟨s1, hfirst, hsecond⟩ := ih s3 hrest
    exact ⟨s1, ⟨s3, hnext, hfirst⟩, hsecond⟩

theorem feeds_run (ds : List ℕ) (hds : ∀ d ∈ ds, d < 2) (s : Symbols) :
    Feeds bufsize symToByte ds s (ds.foldl (fun s d => s.extendRun d) s) := by
  induction ds generalizing s with
  | nil => rfl
  | cons d ds ih =>
    refine ⟨s.extendRun d, ?_, ih (fun e he => hds e (List.mem_cons_of_mem d he)) _⟩
    have hd := hds d List.mem_cons_self
    rw [Symbols.next, if_pos (by rw [SYMBOL_RUNA, SYMBOL_RUNB]; omega)]

/-- The front of `mtfSymbol` stands for the bytes of the table. -/
def TableIs (symToByte table : List ℕ) (s : Symbols) : Prop :=
  ∃ places rest, s.mtfSymbol = places ++ rest ∧
    (places.map fun i => symToByte[i]?) = table.map some

theorem byteOf_eq {i b : ℕ} (h : symToByte[i]? = some b) : byteOf symToByte i = .ok b := by
  rw [byteOf]
  refine fetch_eq_ok ?_
  rw [List.getElem?_append_left (List.getElem?_eq_some_iff.mp h).1, h]

theorem TableIs.get {i b : ℕ} (h : TableIs symToByte table s) (hi : table[i]? = some b) :
    ∃ k, s.mtfSymbol[i]? = some k ∧ byteOf symToByte k = .ok b := by
  obtain ⟨places, rest, hsplit, hplaces⟩ := h
  have hboth : (places.map fun i => symToByte[i]?)[i]? = some (some b) := by
    rw [hplaces, List.getElem?_map, hi, Option.map_some]
  rw [List.getElem?_map, Option.map_eq_some_iff] at hboth
  obtain ⟨k, hk, hbyte⟩ := hboth
  refine ⟨k, ?_, byteOf_eq hbyte⟩
  rw [hsplit, List.getElem?_append_left (List.getElem?_eq_some_iff.mp hk).1, hk]

theorem TableIs.move {i k b : ℕ} (h : TableIs symToByte table s) (hi : table[i]? = some b)
    (hk : s.mtfSymbol[i]? = some k) (hs : s'.mtfSymbol = k :: s.mtfSymbol.eraseIdx i) :
    TableIs symToByte (b :: table.eraseIdx i) s' := by
  obtain ⟨places, rest, hsplit, hplaces⟩ := h
  have hlen : places.length = table.length := by
    have := congrArg List.length hplaces
    rwa [List.length_map, List.length_map] at this
  have hlt : i < places.length := by
    rw [hlen]
    exact (List.getElem?_eq_some_iff.mp hi).1
  have hbyte : symToByte[k]? = some b := by
    have hboth : (places.map fun i => symToByte[i]?)[i]? = some (some b) := by
      rw [hplaces, List.getElem?_map, hi, Option.map_some]
    rw [hsplit, List.getElem?_append_left hlt] at hk
    rw [List.getElem?_map, hk, Option.map_some] at hboth
    exact Option.some.inj hboth
  refine ⟨k :: places.eraseIdx i, rest, ?_, ?_⟩
  · rw [hs, hsplit, List.eraseIdx_append_of_lt_length hlt, List.cons_append]
  · rw [List.map_cons, hbyte, ← List.eraseIdx_map, hplaces, List.eraseIdx_map, List.map_cons]

theorem tableIs_congr (h : TableIs symToByte table s) (hs : s'.mtfSymbol = s.mtfSymbol) :
    TableIs symToByte table s' := by
  rw [TableIs, hs]
  exact h

theorem tableIs_start (hlen : symToByte.length ≤ 256) :
    TableIs symToByte symToByte (Symbols.start bufsize) := by
  refine ⟨List.range symToByte.length, List.range' symToByte.length (256 - symToByte.length),
    ?_, ?_⟩
  · have hrange := List.range'_append_1 (s := 0) (m := symToByte.length)
      (n := 256 - symToByte.length)
    rw [Nat.zero_add, Nat.add_sub_cancel' hlen, ← List.range_eq_range', ← List.range_eq_range']
      at hrange
    have hstart : (Symbols.start bufsize).mtfSymbol = List.range 256 := by
      simp only [Symbols.start]
    rw [hstart, hrange]
  · refine List.ext_getElem (by simp) fun i hi hi' => ?_
    rw [List.length_map] at hi'
    rw [List.getElem_map, List.getElem_map, List.getElem_range, List.getElem?_eq_getElem hi']

theorem endRun_digits {z : ℕ} (h : Holds bufsize out s) (ht : TableIs symToByte table s)
    (hrun : s.runPos = 0) (hne : table ≠ []) (hfits : out.length + z < bufsize)
    (hsize : bufsize ≤ 2 ^ 29) :
    ∃ s', ((digits z).foldl (fun s d => s.extendRun d) s).endRun bufsize symToByte = .ok s' ∧
      Holds bufsize (out ++ List.replicate z (table.headD 0)) s' ∧ TableIs symToByte table s' ∧
      s'.runPos = 0 := by
  by_cases hzero : z = 0
  · subst hzero
    have hnil : digits 0 = [] := by rw [digits]
    rw [hnil, List.foldl_nil, List.replicate_zero, List.append_nil]
    exact ⟨s, endRun_zero hrun, h, ht, hrun⟩
  · obtain ⟨b, table, rfl⟩ := List.exists_cons_of_ne_nil hne
    obtain ⟨k, hk, hbyte⟩ := ht.get (i := 0) rfl
    have hdigits : (digits z).length ≤ 30 := by
      have hpow := two_pow_digits_le z
      by_contra hlong
      have := Nat.pow_le_pow_right Nat.two_pos (show 31 ≤ (digits z).length by omega)
      omega
    rw [foldl_digits_start hzero hdigits hrun]
    obtain ⟨s', hend, hholds, hrun', hmtf⟩ := endRun_eq
      (s := { s with runPos := 2 ^ (digits z).length, t := z })
      ⟨h.count, h.buf, h.byteCount, h.fits⟩ (by positivity) rfl hfits hk hbyte
    exact ⟨s', hend, hholds, tableIs_congr ht hmtf, hrun'⟩

theorem next_end (hend : s.endRun bufsize symToByte = .ok s') (hlen : symToByte ≠ []) :
    s.next bufsize symToByte (symToByte.length + 1) = .ok (s', true) := by
  have hpos := List.length_pos_iff.mpr hlen
  rw [Symbols.next, if_neg (by rw [SYMBOL_RUNA, SYMBOL_RUNB]; omega), hend]
  exact if_pos (Nat.lt_succ_self _)

theorem next_byte {d : ℕ} (hend : s.endRun bufsize symToByte = .ok s1) (hd : 2 ≤ d)
    (hle : d ≤ symToByte.length) (hbyte : s1.byte bufsize symToByte d = .ok s') :
    s.next bufsize symToByte d = .ok (s', false) := by
  rw [Symbols.next, if_neg (by rw [SYMBOL_RUNA, SYMBOL_RUNB]; omega), hend]
  simp only [bind, Except.bind]
  rw [if_neg (by omega), hbyte]

theorem feeds_symbols (l : List ℕ) : ∀ (table : List ℕ) (z : ℕ) (s : Symbols) (out : List ℕ),
    Holds bufsize out s → TableIs symToByte table s → s.runPos = 0 → (∀ x ∈ l, x ∈ table) →
    table ≠ [] → out.length + z + l.length < bufsize → bufsize ≤ 2 ^ 29 →
    table.length = symToByte.length →
    ∃ s1 s2, Feeds bufsize symToByte (symbols table z l) s s1 ∧
      s1.next bufsize symToByte (symToByte.length + 1) = .ok (s2, true) ∧
      Holds bufsize (out ++ List.replicate z (table.headD 0) ++ l) s2 := by
  induction l with
  | nil =>
    intro table z s out h ht hrun _ hne hfits hsize hlen
    obtain ⟨s', hend, hholds, -, -⟩ := endRun_digits h ht hrun hne (by simpa using hfits) hsize
    refine ⟨_, s', feeds_run _ (fun d hd => digits_lt hd) s, ?_, ?_⟩
    · refine next_end hend fun hnil => hne ?_
      rwa [hnil, List.length_nil, List.length_eq_zero_iff] at hlen
    · rwa [List.append_nil]
  | cons x l ih =>
    intro table z s out h ht hrun hl hne hfits hsize hlen
    have hx := hl x List.mem_cons_self
    rw [List.length_cons] at hfits
    rw [symbols]
    split_ifs with hfront
    · -- the run goes on
      obtain ⟨s1, s2, hfeeds, hnext, hholds⟩ := ih table (z + 1) s out h ht hrun
        (fun y hy => hl y (List.mem_cons_of_mem x hy)) hne (by omega) hsize hlen
      refine ⟨s1, s2, hfeeds, hnext, ?_⟩
      have hhead : table.headD 0 = x := by
        rw [List.headD_eq_head?_getD, hfront, Option.getD_some]
      rw [hhead] at hholds ⊢
      rwa [List.replicate_succ', ← List.append_assoc, List.append_assoc _ [x],
        List.singleton_append] at hholds
    · -- the run ends and the byte moves to the front
      have hget : table[table.idxOf x]? = some x := by
        rw [List.getElem?_eq_getElem (List.idxOf_lt_length_of_mem hx), List.getElem_idxOf]
      have hpos : table.idxOf x ≠ 0 := by
        intro hzero
        rw [hzero, ← List.head?_eq_getElem?] at hget
        exact hfront hget
      obtain ⟨s3, hend, hholds3, ht3, hrun3⟩ := endRun_digits (z := z) h ht hrun hne (by omega)
        hsize
      obtain ⟨k, hk, hbyte⟩ := ht3.get hget
      have hroom : (out ++ List.replicate z (table.headD 0)).length < bufsize := by
        rw [List.length_append, List.length_replicate]
        omega
      obtain ⟨s4, hs4, hholds4, hrun4, hmtf4⟩ := byte_eq (table.idxOf x + 1) hholds3 hroom
        hk hbyte
      obtain ⟨s1, s2, hfeeds, hnext, hholds⟩ := ih (x :: table.eraseIdx (table.idxOf x)) 0 s4
        (out ++ List.replicate z (table.headD 0) ++ [x]) hholds4 (ht3.move hget hk hmtf4)
        (by rw [hrun4, hrun3]) (fun y hy => mem_toFront (hl y (List.mem_cons_of_mem x hy)))
        (List.cons_ne_nil _ _) (by
          rw [List.length_append, List.length_append, List.length_replicate, List.length_singleton]
          omega) hsize (by rw [length_toFront hx, hlen])
      refine ⟨s1, s2, feeds_append _ _ _ _ _ (feeds_run _ (fun d hd => digits_lt hd) s)
        ⟨s4, ?_, hfeeds⟩, hnext, ?_⟩
      · refine next_byte hend (by omega) ?_ hs4
        rw [← hlen]
        exact List.idxOf_lt_length_of_mem hx
      · rwa [List.replicate_zero, List.append_nil, List.append_assoc _ [x],
          List.singleton_append] at hholds

end Feeding

section Groups

open PrefixCode

variable {g : HufGroup} {length : List ℕ} {tables : List (List ℕ)} {s' s2 : Symbols}

theorem reading_groupLoop (hcode : ∀ d < length.length,
      Reading (nextSymbol g) (codeword length d) d)
    (ds : List ℕ) (hds : ∀ d ∈ ds, d < length.length) (s : Symbols)
    (h : Feeds bufsize symToByte ds s s') :
    Reading (groupLoop bufsize symToByte g ds.length s) (ds.flatMap (codeword length))
      (s', false) := by
  induction ds generalizing s with
  | nil =>
    rw [Feeds] at h
    rw [h]
    exact Reads.pure _
  | cons d ds ih =>
    obtain ⟨s1, hnext, hrest⟩ := h
    rw [List.flatMap_cons, List.length_cons, groupLoop]
    refine (hcode d (hds d List.mem_cons_self)).bind ?_
    exact Reads.lift_bind hnext
      (ih (fun e he => hds e (List.mem_cons_of_mem d he)) s1 hrest)

theorem reading_groupLoop_last {eob : ℕ} (hcode : ∀ d < length.length,
      Reading (nextSymbol g) (codeword length d) d)
    (ds : List ℕ) (hds : ∀ d ∈ ds, d < length.length) (heob : eob < length.length) (s : Symbols)
    (h : Feeds bufsize symToByte ds s s') (hlast : s'.next bufsize symToByte eob = .ok (s2, true))
    (n : ℕ) (hn : ds.length < n) :
    Reading (groupLoop bufsize symToByte g n s) ((ds ++ [eob]).flatMap (codeword length))
      (s2, true) := by
  induction ds generalizing s n with
  | nil =>
    rw [Feeds] at h
    obtain ⟨n, rfl⟩ := Nat.exists_eq_add_of_lt hn
    rw [h, List.nil_append, List.flatMap_cons, groupLoop]
    refine (hcode eob heob).bind ?_
    exact Reads.lift_bind hlast (Reads.pure _)
  | cons d ds ih =>
    obtain ⟨s1, hnext, hrest⟩ := h
    rw [List.length_cons] at hn
    obtain ⟨m, rfl⟩ := Nat.exists_eq_succ_of_ne_zero (show n ≠ 0 by omega)
    rw [List.cons_append, List.flatMap_cons, groupLoop]
    refine (hcode d (hds d List.mem_cons_self)).bind ?_
    exact Reads.lift_bind hnext
      (ih (fun e he => hds e (List.mem_cons_of_mem d he)) s1 hrest m (by omega))

/-- The codes of the symbols, fifty from the table of each selector, and of `eob`
at the end. -/
def encodeSymbols (tables : List (List ℕ)) (eob : ℕ) : List ℕ → List ℕ → List Bool
  | [], _ => []
  | selector :: selectors, ds =>
    let length := tables.getD selector []
    if ds.length < GROUP_SIZE then (ds ++ [eob]).flatMap (codeword length)
    else (ds.take GROUP_SIZE).flatMap (codeword length) ++
      encodeSymbols tables eob selectors (ds.drop GROUP_SIZE)

theorem reading_selectorLoop {eob n : ℕ} (htables : ∀ length ∈ tables, length.length = n ∧
      ∀ d < n, Reading (nextSymbol (hufGroup length)) (codeword length d) d)
    (heob : eob < n) (selectors : List ℕ) (hselectors : ∀ i ∈ selectors, i < tables.length)
    (ds : List ℕ) (hds : ∀ d ∈ ds, d < n) (hlen : ds.length < GROUP_SIZE * selectors.length)
    (s : Symbols) (h : Feeds bufsize symToByte ds s s')
    (hlast : s'.next bufsize symToByte eob = .ok (s2, true)) :
    Reading (selectorLoop bufsize symToByte (tables.map hufGroup) selectors s)
      (encodeSymbols tables eob selectors ds) s2 := by
  induction selectors generalizing ds s with
  | nil => exact absurd hlen (Nat.not_lt_zero _)
  | cons selector selectors ih =>
    have hlt := hselectors selector List.mem_cons_self
    have hmem : tables.getD selector [] ∈ tables := by
      rw [List.getD_eq_getElem _ _ hlt]
      exact List.getElem_mem hlt
    obtain ⟨hn, hcode⟩ := htables _ hmem
    have hfetch : fetch (tables.map hufGroup) selector =
        .ok (hufGroup (tables.getD selector [])) := by
      rw [fetch, List.getElem?_map, List.getElem?_eq_getElem hlt, List.getD_eq_getElem _ _ hlt]
      rfl
    rw [List.length_cons] at hlen
    rw [selectorLoop, encodeSymbols]
    refine Reads.lift_bind hfetch ?_
    by_cases hshort : ds.length < GROUP_SIZE
    · rw [if_pos hshort, ← List.append_nil (List.flatMap _ _)]
      refine (reading_groupLoop_last (by rwa [hn]) ds (by rwa [hn]) (by rwa [hn]) s h hlast _
        hshort).bind ?_
      exact Reads.pure _
    · rw [if_neg hshort]
      rw [← List.take_append_drop GROUP_SIZE ds] at h
      obtain ⟨s1, hfirst, hsecond⟩ := feeds_split _ _ _ _ h
      have htake : (ds.take GROUP_SIZE).length = GROUP_SIZE :=
        List.length_take_of_le (by omega)
      have hgroup := reading_groupLoop (by rwa [hn]) (ds.take GROUP_SIZE)
        (fun d hd => by rw [hn]; exact hds d (List.mem_of_mem_take hd)) s hfirst
      rw [htake] at hgroup
      refine hgroup.bind ?_
      refine ih (fun i hi => hselectors i (List.mem_cons_of_mem selector hi)) _
        (fun d hd => hds d (List.mem_of_mem_drop hd)) ?_ s1 hsecond
      rw [List.length_drop]
      rw [Nat.mul_succ] at hlen
      omega

end Groups

end XWebQL.Bzip2Symbols
