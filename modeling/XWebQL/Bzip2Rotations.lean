import XWebQL.Bzip2Decoder
import XWebQL.BurrowsWheeler
import XWebQL.PrefixCode

/-! The bytes of a block from the last column of its sorted rotations.
Each entry of the buffer keeps its byte and gets the number of the row that it
leads to. The walk over the rows gives the bytes of the block, and those that stand
for a number of copies are multiplied. -/

namespace XWebQL.Bzip2Rotations

open Bzip2Decoder BurrowsWheeler BucketSort PrefixCode

variable {column buf byteCount : List ℕ} {bufsize i p : ℕ}

theorem startPositions_map (count : ℕ → ℕ) (a n : ℕ) :
    startPositions ((List.range' a n).map count) (below count a) =
      (List.range' a n).map (below count) := by
  induction n generalizing a with
  | zero => rfl
  | succ n ih =>
    rw [List.range'_succ, List.map_cons, List.map_cons, startPositions, ← ih (a + 1), below]

theorem fetch_some {l : List ℕ} {i b : ℕ} (h : l[i]? = some b) : fetch l i = .ok b := by
  rw [fetch, h]
  rfl

theorem low_byte {b i : ℕ} (hb : b < 256) : (b ||| i <<< 8) &&& 0xff = b := by
  rw [Nat.or_comm, ← Nat.shiftLeft_add_eq_or_of_lt (show b < 2 ^ 8 from hb), Nat.shiftLeft_eq,
    show 0xff = 2 ^ 8 - 1 from rfl, Nat.and_two_pow_sub_one_eq_mod, Nat.mul_add_mod_self_right,
    Nat.mod_eq_of_lt hb]

theorem high_bits {b i : ℕ} (hb : b < 256) : (b ||| i <<< 8) >>> 8 = i := by
  rw [Nat.or_comm, ← Nat.shiftLeft_add_eq_or_of_lt (show b < 2 ^ 8 from hb), Nat.shiftLeft_eq,
    Nat.shiftRight_eq_div_pow, Nat.add_comm, Nat.add_mul_div_right _ _ (Nat.two_pow_pos 8),
    Nat.div_eq_of_lt hb, Nat.zero_add]

/-- The first `i` bytes of the column have been linked. -/
structure Linked (column : List ℕ) (i : ℕ) (buf byteCount : List ℕ) : Prop where
  byteCount : byteCount = (List.range 256).map fun c =>
    below column.count c + (column.take i).count c
  linked : ∀ j < i, buf[next id column j]? =
    some (column.getD (next id column j) 0 ||| j <<< 8)
  rest : ∀ p < column.length, (∀ j < i, next id column j ≠ p) →
    buf[p]? = some (column.getD p 0)

theorem next_eq (column : List ℕ) (i : ℕ) : next id column i =
    below column.count (column.getD i 0) + (column.take i).count (column.getD i 0) := by
  rw [next, place, ← countP_lt, List.count]
  congr 1

variable (hbytes : ∀ b ∈ column, b < 256)

include hbytes in
theorem getD_lt (p : ℕ) : column.getD p 0 < 256 := by
  rcases Nat.lt_or_ge p column.length with hp | hp
  · rw [List.getD_eq_getElem _ _ hp]
    exact hbytes _ (List.getElem_mem hp)
  · rw [List.getD_eq_default _ _ hp]
    norm_num

include hbytes in
theorem Linked.byte (h : Linked column i buf byteCount) (hp : p < column.length) :
    ∃ entry, buf[p]? = some entry ∧ entry &&& 0xff = column.getD p 0 := by
  by_cases hlinked : ∃ j < i, next id column j = p
  · obtain ⟨j, hj, rfl⟩ := hlinked
    exact ⟨_, h.linked j hj, low_byte (getD_lt hbytes _)⟩
  · refine ⟨_, h.rest p hp fun j hj hnext => hlinked ⟨j, hj, hnext⟩, ?_⟩
    rw [show 0xff = 2 ^ 8 - 1 from rfl, Nat.and_two_pow_sub_one_eq_mod,
      Nat.mod_eq_of_lt (getD_lt hbytes _)]

include hbytes in
theorem link_step (h : Linked column i buf byteCount) (hi : i < column.length) :
    ∃ buf' byteCount', link (buf, byteCount) i = .ok (buf', byteCount') ∧
      Linked column (i + 1) buf' byteCount' := by
  obtain ⟨entry, hentry, hbyte⟩ := h.byte hbytes hi
  have huc := getD_lt hbytes i
  have hplace : byteCount[column.getD i 0]? = some (next id column i) := by
    rw [h.byteCount, List.getElem?_map, List.getElem?_range huc, Option.map_some, next_eq]
  have hother : ∀ j < i, next id column j ≠ next id column i := by
    intro j hj heq
    have := next_injective (hj.trans hi) hi heq
    omega
  have hfree := h.rest _ (next_lt hi) hother
  have hlt := (List.getElem?_eq_some_iff.mp hfree).1
  refine ⟨buf.set (next id column i) (column.getD (next id column i) 0 ||| i <<< 8),
    byteCount.set (column.getD i 0) (next id column i + 1), ?_, ?_, ?_, ?_⟩
  · simp only [link, fetch_some hentry, hbyte, fetch_some hplace, fetch_some hfree, bind,
      Except.bind]
  · rw [h.byteCount, next_eq]
    refine List.ext_getElem (by simp) fun c hc hc' => ?_
    rw [List.length_map, List.length_range] at hc'
    have htake : column.take (i + 1) = column.take i ++ [column.getD i 0] := by
      rw [List.take_succ_eq_append_getElem hi, List.getD_eq_getElem _ _ hi]
    rw [List.getElem_set, List.getElem_map, List.getElem_map, List.getElem_range, htake,
      List.count_append, List.count_singleton]
    by_cases heq : column.getD i 0 = c
    · rw [if_pos heq, heq, beq_self_eq_true, if_pos rfl, Nat.add_assoc]
    · rw [if_neg heq, beq_false_of_ne heq, if_neg Bool.false_ne_true, Nat.add_zero]
  · intro j hj
    rcases Nat.lt_succ_iff_lt_or_eq.mp hj with hlt' | rfl
    · rw [List.getElem?_set_ne (hother j hlt').symm, h.linked j hlt']
    · rw [List.getElem?_set_self hlt]
  · intro p hp hnone
    rw [List.getElem?_set_ne (hnone i (Nat.lt_succ_self i)),
      h.rest p hp fun j hj => hnone j (Nat.lt_succ_of_lt hj)]

include hbytes in
theorem foldlM_link (h : Linked column 0 buf byteCount) (n : ℕ) (hn : n ≤ column.length) :
    ∃ buf' byteCount', (List.range n).foldlM link (buf, byteCount) = .ok (buf', byteCount') ∧
      Linked column n buf' byteCount' := by
  induction n with
  | zero => exact ⟨buf, byteCount, rfl, h⟩
  | succ n ih =>
    obtain ⟨buf1, byteCount1, hfold, hlinked⟩ := ih (Nat.le_of_succ_le hn)
    obtain ⟨buf2, byteCount2, hlink, hlinked2⟩ := link_step hbytes hlinked hn
    refine ⟨buf2, byteCount2, ?_, hlinked2⟩
    rw [List.range_succ, List.foldlM_append, hfold]
    simp only [bind, Except.bind, List.foldlM_cons, List.foldlM_nil, hlink]
    rfl

theorem linked_start (column : List ℕ) (zeros : List ℕ) :
    Linked column 0 (column ++ zeros)
      (startPositions ((List.range 256).map fun b => column.count b) 0) where
  byteCount := by
    have h := startPositions_map column.count 0 256
    rw [below, ← List.range_eq_range'] at h
    rw [h]
    simp
  linked j hj := absurd hj (Nat.not_lt_zero j)
  rest p hp _ := by
    rw [List.getElem?_append_left hp, List.getElem?_eq_getElem hp, List.getD_eq_getElem _ _ hp]

/-- A table of rows: each entry has the byte of the column, and the row that its
place in the column leads to. -/
structure Rows (column buf : List ℕ) : Prop where
  entry : ∀ p < column.length, ∃ entry, buf[p]? = some entry ∧ entry &&& 0xff = column.getD p 0 ∧
    entry >>> 8 < column.length
  row : ∀ i < column.length, buf.getD (next id column i) 0 >>> 8 = i

include hbytes in
theorem Linked.rows (h : Linked column column.length buf byteCount) : Rows column buf where
  entry p hp := by
    obtain ⟨i, hi, rfl⟩ := exists_next id hp
    refine ⟨_, h.linked i hi, low_byte (getD_lt hbytes _), ?_⟩
    rwa [high_bits (getD_lt hbytes _)]
  row i hi := by
    rw [List.getD_eq_getElem?_getD, h.linked i hi, Option.getD_some, high_bits (getD_lt hbytes _)]

def copies : List ℕ → ℤ → ℤ → List Char
  | [], _, _ => []
  | byte :: bytes, previous, run =>
    if run = 3 then
      List.replicate byte (Char.ofNat previous.toNat) ++
        copies bytes (-1) (if (-1 : ℤ) ≠ previous then 0 else run + 1)
    else
      Char.ofNat byte :: copies bytes byte (if (byte : ℤ) ≠ previous then 0 else run + 1)

def walk (column buf : List ℕ) (pos : ℕ) : ℕ → List ℕ
  | 0 => []
  | count + 1 => column.getD pos 0 :: walk column buf (buf.getD pos 0 >>> 8) count

theorem outputLoop_eq (h : Rows column buf) (count : ℕ) : ∀ (pos : ℕ) (previous run : ℤ),
    pos < column.length →
    outputLoop buf count pos previous run =
      .ok (copies (walk column buf pos count) previous run) := by
  induction count with
  | zero => exact fun _ _ _ _ => rfl
  | succ count ih =>
    intro pos previous run hpos
    obtain ⟨entry, hentry, hbyte, hrow⟩ := h.entry pos hpos
    have hget : buf.getD pos 0 = entry := by
      rw [List.getD_eq_getElem?_getD, hentry, Option.getD_some]
    simp only [outputLoop, fetch_some hentry, hbyte, bind, Except.bind, walk, copies, hget]
    by_cases hrun : run = 3
    · simp only [hrun, ↓reduceIte, ih _ _ _ hrow, Int.toNat_natCast]
    · simp only [hrun, ↓reduceIte, ih _ _ _ hrow]
      rfl

theorem walk_eq (column buf : List ℕ) (pos count : ℕ) : walk column buf pos count =
    (List.range count).map fun k => column.getD ((fun p => buf.getD p 0 >>> 8)^[k] pos) 0 := by
  induction count generalizing pos with
  | zero => rfl
  | succ count ih =>
    rw [walk, ih, List.range_succ_eq_map, List.map_cons, List.map_map]
    rfl

theorem walk_lastColumn {data : List ℕ} {origPtr : ℕ} (hdata : ∀ b ∈ data, b < 256)
    (h : Rows (lastColumn data) buf) (horig : (rows data)[origPtr]? = some data) :
    walk (lastColumn data) buf (buf.getD origPtr 0 >>> 8) data.length = data := by
  rw [walk_eq]
  refine List.ext_getElem (by simp) fun k hk hk' => ?_
  have hletter := lastColumn_iterate strictMono_id hdata
    (T := fun p => buf.getD p 0 >>> 8) (fun i hi => h.row i (by rwa [length_lastColumn])) horig hk'
  rw [List.getElem_map, List.getElem_range, List.getD_eq_getElem?_getD,
    ← Function.iterate_succ_apply, hletter, List.getElem?_eq_getElem hk', Option.getD_some]

theorem copies_start (bytes : List ℕ) (previous : ℤ) :
    copies bytes previous (-1) = copies bytes (-1) 0 := by
  cases bytes with
  | nil => rfl
  | cons b bytes =>
    have hfirst : copies (b :: bytes) previous (-1) = Char.ofNat b :: copies bytes b 0 := by
      rw [copies, if_neg (by norm_num)]
      split_ifs <;> rfl
    have hzero : copies (b :: bytes) (-1) 0 = Char.ofNat b :: copies bytes b 0 := by
      rw [copies, if_neg (by norm_num), if_pos (by omega)]
    rw [hfirst, hzero]

theorem output_eq {out : List ℕ} {origPtr : ℕ} {s : Symbols} (hout : ∀ b ∈ out, b < 256)
    (hcount : s.count = out.length) (hbuf : ∃ zeros, s.buf = out ++ zeros)
    (hbyteCount : s.byteCount = (List.range 256).map fun b => out.count b)
    (horig : origPtr < out.length) :
    ∃ buf, Rows out buf ∧ output origPtr s =
      .ok (copies (walk out buf (buf.getD origPtr 0 >>> 8) out.length) (-1) 0) := by
  obtain ⟨zeros, hzeros⟩ := hbuf
  obtain ⟨buf, byteCount, hfold, hlinked⟩ := foldlM_link hout (linked_start out zeros) out.length
    le_rfl
  have hrows := hlinked.rows hout
  obtain ⟨entry, hentry, hbyte, hrow⟩ := hrows.entry origPtr horig
  have hget : buf.getD origPtr 0 = entry := by
    rw [List.getD_eq_getElem?_getD, hentry, Option.getD_some]
  refine ⟨buf, hrows, ?_⟩
  rw [output, hcount, hzeros, hbyteCount, hfold]
  simp only [bind, Except.bind, fetch_some hentry]
  rw [outputLoop_eq hrows _ _ _ _ hrow, copies_start, hget]

section Collapse

/-- A run of `n` bytes `b`, with the copies behind the fourth counted. -/
def collapseRun (b n : ℕ) : List ℕ :=
  if n < 4 then List.replicate n b else List.replicate 4 b ++ [n - 4]

/-- The runs of a text, of at most `cap` bytes each, behind one of `n` bytes `b`. -/
def collapse (cap b n : ℕ) : List ℕ → List ℕ
  | [] => collapseRun b n
  | x :: l =>
    if x = b ∧ n < cap then collapse cap b (n + 1) l
    else collapseRun b n ++ collapse cap x 1 l

variable {cap b n : ℕ} {previous run : ℤ}

theorem copies_cons (hprevious : previous ≠ b) (hrun : run ≠ 3) (l : List ℕ) :
    copies (b :: l) previous run = Char.ofNat b :: copies l b 0 := by
  rw [copies, if_neg hrun, if_pos hprevious.symm]

theorem copies_same (hrun : run ≠ 3) (l : List ℕ) :
    copies (b :: l) b run = Char.ofNat b :: copies l b (run + 1) := by
  rw [copies, if_neg hrun, if_neg (not_not.mpr rfl)]

theorem copies_replicate (hprevious : previous ≠ b) (hrun : run ≠ 3) (hn : 1 ≤ n) (hn4 : n ≤ 4)
    (l : List ℕ) : copies (List.replicate n b ++ l) previous run =
      List.replicate n (Char.ofNat b) ++ copies l b (n - 1 : ℕ) := by
  obtain ⟨m, rfl⟩ := Nat.exists_eq_succ_of_ne_zero (show n ≠ 0 by omega)
  have hsame : ∀ k run : ℕ, run + k ≤ 3 → copies (List.replicate k b ++ l) b run =
      List.replicate k (Char.ofNat b) ++ copies l b (run + k : ℕ) := by
    intro k
    induction k with
    | zero => exact fun _ _ => rfl
    | succ k ih =>
      intro run hle
      rw [List.replicate_succ, List.cons_append, copies_same (by omega), List.replicate_succ,
        List.cons_append, ← Nat.cast_succ, ih (run + 1) (by omega), Nat.add_right_comm,
        Nat.add_assoc]
  rw [List.replicate_succ, List.cons_append, copies_cons hprevious hrun, List.replicate_succ,
    List.cons_append]
  have h := hsame m 0 (by omega)
  rw [Nat.zero_add] at h
  rw [Nat.succ_sub_one]
  exact congrArg _ h

/-- A collapsed run gives its bytes back, and leaves a state in which another byte,
or any byte behind a counted run, begins a run of its own. -/
theorem copies_collapseRun (hprevious : previous ≠ b) (hrun : run ≠ 3) (hn : 1 ≤ n) (l : List ℕ) :
    ∃ previous' run', copies (collapseRun b n ++ l) previous run =
        List.replicate n (Char.ofNat b) ++ copies l previous' run' ∧
      run' ≠ 3 ∧ ∀ x : ℕ, (x = b → 4 ≤ n) → previous' ≠ x := by
  rw [collapseRun]
  split_ifs with hshort
  · refine ⟨b, (n - 1 : ℕ), copies_replicate hprevious hrun hn (by omega) l, by omega, ?_⟩
    intro x hx heq
    have := hx (by omega)
    omega
  · refine ⟨-1, 0, ?_, by norm_num, fun x _ => by omega⟩
    have hsplit : List.replicate n (Char.ofNat b) =
        List.replicate 4 (Char.ofNat b) ++ List.replicate (n - 4) (Char.ofNat b) := by
      rw [List.replicate_append_replicate]
      congr 1
      omega
    rw [List.append_assoc, copies_replicate hprevious hrun (by norm_num) le_rfl,
      List.singleton_append, copies, if_pos (by norm_num), if_pos (by omega), Int.toNat_natCast, hsplit,
      List.append_assoc]

theorem copies_collapse (hcap : 4 ≤ cap) (l : List ℕ) (hprevious : previous ≠ b) (hrun : run ≠ 3)
    (hn : 1 ≤ n) : copies (collapse cap b n l) previous run =
      List.replicate n (Char.ofNat b) ++ l.map Char.ofNat := by
  induction l generalizing b n previous run with
  | nil =>
    obtain ⟨previous', run', h, -, -⟩ := copies_collapseRun hprevious hrun hn []
    rw [List.append_nil, copies] at h
    rw [collapse, h, List.map_nil]
  | cons x l ih =>
    rw [collapse]
    split_ifs with hsame
    · rw [ih hprevious hrun (by omega), hsame.1, List.replicate_succ', List.append_assoc,
        List.singleton_append, List.map_cons]
    · obtain ⟨previous', run', h, hrun', hnext⟩ := copies_collapseRun hprevious hrun hn
        (collapse cap x 1 l)
      rw [h, ih (hnext x fun heq => by omega) hrun' le_rfl, List.replicate_one, List.map_cons,
        List.singleton_append]

end Collapse

end XWebQL.Bzip2Rotations
