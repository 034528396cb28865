import XWebQL.Bzip2Fields
import XWebQL.Bzip2Safety
import XWebQL.Utf8

/-! Compressed texts in whole.
The format is written down by its encoder: a block is given by its bytes, the bytes
in use, its code tables and the selectors of these. The decoder gives the texts of
the blocks back, up to one that a loose comparison takes for the number -1. -/

namespace XWebQL.Bzip2Archive

open BitStream Bzip2Reader Bzip2Decoder Bzip2Tables Bzip2Symbols Bzip2Fields Bzip2Rotations
  Bzip2Safety BurrowsWheeler MoveToFront PrefixCode JsNumber Utf8

structure Block (bufsize : ℕ) where
  crc : ℕ
  data : List ℕ
  origPtr : ℕ
  marked : ℕ → Bool
  tables : List (List ℕ)
  selectors : List ℕ
  length_le : data.length ≤ bufsize
  orig : (rows data)[origPtr]? = some data
  bytes : ∀ b ∈ data, b < 256
  covers : ∀ b ∈ data, marked b = true
  groups : 2 ≤ tables.length ∧ tables.length ≤ 6
  table_length : ∀ lengths ∈ tables, lengths.length = (used marked).length + 2
  table_pos : ∀ lengths ∈ tables, ∀ l ∈ lengths, 1 ≤ l
  table_kraft : ∀ lengths ∈ tables, Kraft 20 lengths
  selected : ∀ i ∈ selectors, i < tables.length
  selectors_lt : selectors.length < 2 ^ 15
  enough : (symbols (used marked) 0 (lastColumn data)).length < GROUP_SIZE * selectors.length

namespace Block

variable {bufsize : ℕ} (b : Block bufsize)

def syms : List ℕ := symbols (used b.marked) 0 (lastColumn b.data)

def encode : List Bool :=
  bigEndian 32 b.crc ++ ([false] ++ (bigEndian 24 b.origPtr ++ (encodeMap b.marked ++
    (bigEndian 3 b.tables.length ++ (bigEndian 15 b.selectors.length ++
      (encodeSelectors (List.range b.tables.length) b.selectors ++
        (b.tables.flatMap encodeTable ++
          encodeSymbols b.tables ((used b.marked).length + 1) b.selectors b.syms)))))))

def text : List Char := copies b.data (-1) 0

/-- What this decoder asks beyond the format: it leaves one place of the buffer free,
and rebuilds only some code tables. -/
structure Readable : Prop where
  fits : b.data.length < bufsize
  decodable : ∀ lengths ∈ b.tables, Decodable lengths

end Block

theorem Reads.guard {β : Type} {c : Prop} [Decidable c] {message : String} {next : Unit → Bits β}
    {code : List Bool} {y : β} (hc : ¬ c) (h : Reading (next ()) code y) :
    Reading (if c then (liftM (throwing message) : Bits Unit) >>= next else next ()) code y := by
  rwa [if_neg hc]

theorem mem_used {marked : ℕ → Bool} {b : ℕ} : b ∈ used marked ↔ b < 256 ∧ marked b = true := by
  rw [used, List.mem_filter, List.mem_range]

theorem length_used_le (marked : ℕ → Bool) : (used marked).length ≤ 256 := by
  have h := List.length_filter_le marked (List.range 256)
  rwa [List.length_range] at h

section Block

variable {bufsize : ℕ} (b : Block bufsize)

theorem orig_lt : b.origPtr < b.data.length := by
  have h := (List.getElem?_eq_some_iff.mp b.orig).1
  rwa [length_rows] at h

theorem data_ne_nil : b.data ≠ [] := List.ne_nil_of_length_pos (Nat.zero_lt_of_lt (orig_lt b))

theorem mem_lastColumn {l : List ℕ} {c : ℕ} (hc : c ∈ lastColumn l) : c ∈ l := by
  obtain ⟨row, hrow, rfl⟩ := List.mem_map.mp hc
  have hne := row_ne_nil hrow
  obtain ⟨k, -, hk⟩ := exists_rotate hrow
  rw [List.getLastD_eq_getLast?, List.getLast?_eq_some_getLast hne, Option.getD_some]
  refine List.mem_rotate.mp (?_ : _ ∈ l.rotate k)
  rw [← hk]
  exact List.getLast_mem hne

theorem reading_symbols (hb : b.Readable) (hsize : bufsize ≤ 2 ^ 29) : ∃ s,
    Reading (selectorLoop bufsize (used b.marked) (b.tables.map hufGroup) b.selectors
      (Symbols.start bufsize))
      (encodeSymbols b.tables ((used b.marked).length + 1) b.selectors b.syms) s ∧
    Holds bufsize (lastColumn b.data) s := by
  have hcovers : ∀ c ∈ lastColumn b.data, c ∈ used b.marked := by
    intro c hc
    have hmem := mem_lastColumn hc
    exact mem_used.mpr ⟨b.bytes c hmem, b.covers c hmem⟩
  have hne : used b.marked ≠ [] := by
    obtain ⟨c, l, hcl⟩ := List.exists_cons_of_ne_nil (data_ne_nil b)
    have hmem : c ∈ b.data := by
      rw [hcl]
      exact List.mem_cons_self
    exact List.ne_nil_of_mem (mem_used.mpr ⟨b.bytes c hmem, b.covers c hmem⟩)
  have hpos := List.length_pos_iff.mpr hne
  have hlen := length_used_le b.marked
  obtain ⟨s1, s, hfeeds, hnext, hholds⟩ := feeds_symbols (lastColumn b.data) (used b.marked) 0
    (Symbols.start bufsize) [] (holds_start bufsize) (tableIs_start hlen) rfl hcovers hne
    (by rw [length_lastColumn, List.length_nil, Nat.add_zero, Nat.zero_add]; exact hb.fits) hsize rfl
  refine ⟨s, ?_, hholds⟩
  refine reading_selectorLoop (n := (used b.marked).length + 2) (fun lengths hmem => ?_) (by omega)
    b.selectors b.selected b.syms (fun d hd => ?_) b.enough _ hfeeds hnext
  · have hn := b.table_length lengths hmem
    refine ⟨hn, fun d hd => ?_⟩
    exact reading_codeword (b.table_kraft lengths hmem) (hb.decodable lengths hmem)
      (by rw [hn, MAX_SYMBOLS]; omega) (by rw [hn]; exact hd)
  · rcases symbols_lt hcovers hd with h | h <;> omega

theorem reading_block (hb : b.Readable) (hsize : bufsize ≤ 900000) :
    Reading (block bufsize) b.encode b.text := by
  have hgroups := b.groups
  have horig := orig_lt b
  have hfits := hb.fits
  have hselectors := b.selectors_lt
  have henough := b.enough
  obtain ⟨s, hsymbols, hholds⟩ := reading_symbols b hb (by omega)
  have hcolumn : ∀ c ∈ lastColumn b.data, c < 256 := fun c hc => b.bytes c (mem_lastColumn hc)
  have hcount : s.count = b.data.length := by rw [hholds.count, length_lastColumn]
  obtain ⟨buf, hrows, houtput⟩ := output_eq hcolumn hholds.count ⟨_, hholds.buf⟩ hholds.byteCount
    (horig.trans_eq (length_lastColumn b.data).symm)
  rw [length_lastColumn, walk_lastColumn b.bytes hrows b.orig] at houtput
  have hpointer := reading_bits (n := 24) (by norm_num) b.origPtr
  rw [Nat.mod_eq_of_lt (by omega)] at hpointer
  have hgroupCount := reading_bits (n := 3) (by norm_num) b.tables.length
  rw [Nat.mod_eq_of_lt (by omega)] at hgroupCount
  have hnSelectors := reading_bits (n := 15) (by norm_num) b.selectors.length
  rw [Nat.mod_eq_of_lt hselectors] at hnSelectors
  have hselectorsRead := reading_readSelectors b.tables.length b.selectors
    (List.range b.tables.length) (by rw [List.length_range])
    fun i hi => List.mem_range.mpr (b.selected i hi)
  have htables := reading_readGroups (n := (used b.marked).length + 2) b.tables
    fun lengths hmem => by
      have hn := b.table_length lengths hmem
      refine ⟨hn, List.ne_nil_of_length_pos (by omega), fun l hl => ?_⟩
      exact ⟨b.table_pos lengths hmem l hl, (b.table_kraft lengths hmem).1 l hl⟩
  rw [block, Block.encode]
  refine (reading_bits (by norm_num) b.crc).bind ((reading_bit false).bind ?_)
  refine Reads.guard (by decide) (hpointer.bind ?_)
  refine Reads.guard (by omega) ((reading_symbolMap b.marked).bind (hgroupCount.bind ?_))
  refine Reads.guard (by omega) (hnSelectors.bind ?_)
  refine Reads.guard (fun hzero => ?_) (hselectorsRead.bind (htables.bind
    (hsymbols.bind_pure ?_)))
  · rw [hzero] at henough
    exact absurd henough (Nat.not_lt_zero _)
  · refine Reads.guard (by omega) (Reads.lift houtput)

end Block

section Archive

structure Archive where
  level : ℕ
  crc : ℕ
  blocks : List (Block (100000 * level))
  level_pos : 1 ≤ level
  level_le : level ≤ 9

def encodeBlocks {bufsize : ℕ} (crc : ℕ) : List (Block bufsize) → List Bool
  | [] => bigEndian 48 0x177245385090 ++ bigEndian 32 crc
  | b :: blocks => bigEndian 48 0x314159265359 ++ (b.encode ++ encodeBlocks crc blocks)

def Archive.encode (a : Archive) : List Bool :=
  bigEndian 24 0x425A68 ++ (bigEndian 8 (48 + a.level) ++ encodeBlocks a.crc a.blocks)

def Archive.Readable (a : Archive) : Prop := ∀ b ∈ a.blocks, b.Readable

def Archive.chunks (a : Archive) : List (List Char) := a.blocks.map fun b => b.text

theorem reading_hexDigits (n v : ℕ) : Reading (hexDigits n) (bigEndian (8 * n) v)
    ((List.range n).flatMap fun i => Nat.toDigits 16 (v / 2 ^ (8 * (n - 1 - i)) % 2 ^ 8)) := by
  induction n with
  | zero => exact Reads.pure _
  | succ n ih =>
    have hcode : bigEndian (8 * (n + 1)) v =
        bigEndian 8 (v / 2 ^ (8 * n)) ++ bigEndian (8 * n) v := by
      rw [Nat.mul_succ, Nat.add_comm, bigEndian_add]
    have hdigits : ((List.range (n + 1)).flatMap fun i =>
        Nat.toDigits 16 (v / 2 ^ (8 * (n + 1 - 1 - i)) % 2 ^ 8)) =
        Nat.toDigits 16 (v / 2 ^ (8 * n) % 2 ^ 8) ++
          (List.range n).flatMap fun i => Nat.toDigits 16 (v / 2 ^ (8 * (n - 1 - i)) % 2 ^ 8) := by
      rw [List.range_succ_eq_map, List.flatMap_cons, List.flatMap_map]
      refine congrArg₂ _ rfl (List.flatMap_congr fun i hi => ?_)
      rw [Nat.add_sub_cancel, Nat.sub_sub, Nat.add_comm 1 i]
    rw [hcode, hdigits, hexDigits]
    exact (reading_bits (by norm_num) _).bind (ih.bind_pure (Reads.pure _))

theorem reading_header {level : ℕ} (h1 : 1 ≤ level) (h9 : level ≤ 9) :
    Reading header (bigEndian 24 0x425A68 ++ bigEndian 8 (48 + level)) level := by
  rw [header]
  have hlevel := reading_bits (n := 8) (by norm_num) (48 + level)
  rw [Nat.mod_eq_of_lt (by omega)] at hlevel
  refine (reading_bits (by norm_num) _).bind (Reads.guard (by decide) (hlevel.bind_pure ?_))
  refine Reads.guard (by omega) ?_
  have hcast : (((48 + level : ℕ) : ℤ) - 48).toNat = level := by omega
  rw [hcast]
  exact Reads.pure _

theorem reading_decompress {size : ℕ} (hsize : size ≤ 9) {b : Block (100000 * size)}
    (hb : b.Readable) :
    Reading (decompress size) (bigEndian 48 0x314159265359 ++ b.encode) (some b.text) := by
  rw [decompress]
  refine (reading_hexDigits 6 _).bind ?_
  rw [if_neg (by decide), if_neg (by decide)]
  exact (reading_block b hb (by omega)).bind_pure (Reads.pure _)

theorem reading_decompress_end (size : ℕ) :
    Reading (decompress size) (bigEndian 48 0x177245385090) none := by
  rw [decompress]
  refine (reading_hexDigits 6 _).bind_pure ?_
  rw [if_pos (by decide)]
  exact Reads.pure _

theorem simpleLoop_encode {size : ℕ} (hsize : size ≤ 9) (crc : ℕ)
    (blocks : List (Block (100000 * size))) (hblocks : ∀ b ∈ blocks, b.Readable) (n : ℕ)
    (all : List Char) (r : Reader) (tail : List Bool) (hn : r.left < n)
    (hrest : r.rest = encodeBlocks crc blocks ++ tail) :
    simpleLoop size n all r =
      .ok (all ++ ((blocks.map fun b => b.text).takeWhile fun text => !minusOne text).flatten) := by
  induction blocks generalizing n all r with
  | nil =>
    obtain ⟨m, rfl⟩ := Nat.exists_eq_succ_of_ne_zero (show n ≠ 0 by omega)
    rw [encodeBlocks, List.append_assoc] at hrest
    obtain ⟨r', hrun, -⟩ := reading_decompress_end size r _ hrest
    rw [simpleLoop_end all hrun, List.map_nil, List.takeWhile_nil, List.flatten_nil,
      List.append_nil]
  | cons b blocks ih =>
    obtain ⟨m, rfl⟩ := Nat.exists_eq_succ_of_ne_zero (show n ≠ 0 by omega)
    rw [encodeBlocks, ← List.append_assoc, List.append_assoc] at hrest
    obtain ⟨hb, hblocks⟩ := List.forall_mem_cons.mp hblocks
    obtain ⟨r', hrun, hr'⟩ := reading_decompress hsize hb r _ hrest
    have hless := decompress_left hrun
    rw [simpleLoop_chunk all hrun, List.map_cons, List.takeWhile_cons]
    by_cases hminus : minusOne b.text = true
    · rw [if_pos hminus, hminus]
      simp
    · rw [if_neg hminus, ih hblocks m (all ++ b.text) r' (by omega) hr']
      simp [hminus]

theorem simple_encode {a : Archive} (ha : a.Readable) : simple (array (pack a.encode)) =
    .ok (a.chunks.takeWhile fun text => !minusOne text).flatten := by
  obtain ⟨k, hk⟩ := unpack_pack a.encode
  have hrest : (array (pack a.encode)).rest = bigEndian 24 0x425A68 ++ bigEndian 8 (48 + a.level) ++
      (encodeBlocks a.crc a.blocks ++ List.replicate k false) := by
    rw [rest_array, hk, Archive.encode]
    simp only [List.append_assoc]
  obtain ⟨r, hheader, hr⟩ := reading_header a.level_pos a.level_le _ _ hrest
  rw [simple, hheader]
  change simpleLoop a.level (r.left + 1) [] r = _
  rw [simpleLoop_encode a.level_le a.crc a.blocks ha _ _ r _ (Nat.lt_succ_self _) hr, List.nil_append,
    Archive.chunks]

end Archive

section Pieces

def collapsed (cap : ℕ) (piece : List UInt8) : List ℕ :=
  match piece.map UInt8.toNat with
  | [] => []
  | b :: l => collapse cap b 1 l

theorem copies_collapsed {cap : ℕ} (hcap : 4 ≤ cap) (piece : List UInt8) :
    copies (collapsed cap piece) (-1) 0 = latin1 piece := by
  cases piece with
  | nil => rfl
  | cons b l =>
    have hlatin : latin1 (b :: l) = Char.ofNat b.toNat :: (l.map UInt8.toNat).map Char.ofNat := by
      rw [latin1, List.map_cons, List.map_map]
      rfl
    rw [collapsed, List.map_cons, hlatin]
    exact copies_collapse hcap _ (by omega) (by norm_num) le_rfl

variable {cap : ℕ} {a : Archive} {pieces : List (List UInt8)}

theorem chunks_eq (hcap : 4 ≤ cap)
    (h : a.blocks.map (fun b => b.data) = pieces.map (collapsed cap)) :
    a.chunks = pieces.map latin1 := by
  have hchunks : a.chunks = (a.blocks.map fun b => b.data).map fun data => copies data (-1) 0 := by
    rw [Archive.chunks, List.map_map]
    rfl
  rw [hchunks, h, List.map_map]
  exact List.map_congr_left fun piece _ => copies_collapsed hcap piece

theorem flatten_latin1 (pieces : List (List UInt8)) :
    (pieces.map latin1).flatten = latin1 pieces.flatten := by
  rw [latin1, List.map_flatten]
  rfl

theorem minusOne_nil : minusOne [] = false := by decide

theorem takeWhile_flatten_iff {α : Type} {p : List α → Bool} (hp : p [] = true)
    (texts : List (List α)) :
    (texts.takeWhile p).flatten = texts.flatten ↔ ∀ text ∈ texts, p text = true := by
  induction texts with
  | nil => simp
  | cons text texts ih =>
    rw [List.takeWhile_cons, List.forall_mem_cons]
    by_cases h : p text = true
    · simp [h, ih]
    · have hne : text ≠ [] := by
        rintro rfl
        exact h hp
      simp [h, hne]

theorem simple_eq (hcap : 4 ≤ cap) (ha : a.Readable)
    (h : a.blocks.map (fun b => b.data) = pieces.map (collapsed cap)) :
    simple (array (pack a.encode)) =
      .ok ((pieces.map latin1).takeWhile fun text => !minusOne text).flatten := by
  rw [simple_encode ha, chunks_eq hcap h]

theorem simple_pieces (hcap : 4 ≤ cap) (ha : a.Readable)
    (h : a.blocks.map (fun b => b.data) = pieces.map (collapsed cap))
    (hpieces : ∀ piece ∈ pieces, minusOne (latin1 piece) = false) :
    simple (array (pack a.encode)) = .ok (latin1 pieces.flatten) := by
  have hall : ∀ text ∈ pieces.map latin1, (!minusOne text) = true := by
    rw [List.forall_mem_map]
    intro piece hpiece
    rw [hpieces piece hpiece, Bool.not_false]
  rw [simple_eq hcap ha h, (takeWhile_flatten_iff (by rw [minusOne_nil, Bool.not_false]) _).mpr hall,
    flatten_latin1]

end Pieces

end XWebQL.Bzip2Archive
