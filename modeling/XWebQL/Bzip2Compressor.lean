import XWebQL.Bzip2Archive

/-! The decoder behind a compressor.
A compressor into the format makes a lossless pair with the decoder, as long as it
writes tables that are rebuilt and no block that stands for the number -1. One block
for each byte is such a compressor. -/

namespace XWebQL.Bzip2Compressor

open BitStream Bzip2Reader Bzip2Decoder Bzip2Symbols Bzip2Fields Bzip2Rotations Bzip2Safety
  Bzip2Tables Bzip2Archive BurrowsWheeler MoveToFront PrefixCode JsNumber JsString Utf8

section Magic

theorem readLoop_congr {bytes bytes' : List UInt8} (h : ∀ i, byteAt bytes i = byteAt bytes' i)
    (n : ℕ) : ∀ (result byte bit : ℕ) (hbit : bit < 8),
    (readLoop n result ⟨bytes, byte, bit, hbit⟩).1 =
      (readLoop n result ⟨bytes', byte, bit, hbit⟩).1 := by
  induction n using Nat.strong_induction_on with
  | _ n ih =>
    intro result byte bit hbit
    rw [readLoop, readLoop]
    by_cases hn : n = 0
    · simp [hn]
    · simp only [hn, ↓reduceDIte, h]
      split_ifs with hleft
      · exact ih _ (by omega) _ _ _ _
      · rfl

theorem byteAt_append_zeros (bytes : List UInt8) (k i : ℕ) :
    byteAt (bytes ++ List.replicate k 0) i = byteAt bytes i := by
  rw [byteAt, byteAt]
  by_cases hi : i < bytes.length
  · rw [List.getElem?_append_left hi]
  · rw [List.getElem?_append_right (by omega), List.getElem?_eq_none (l := bytes) (by omega),
      List.getElem?_replicate]
    split_ifs <;> rfl

theorem unpack_injective {l l' : List UInt8} (h : unpack l = unpack l') : l = l' := by
  induction l generalizing l' with
  | nil =>
    have hlen := congrArg List.length h
    rw [length_unpack, length_unpack, List.length_nil] at hlen
    exact (List.eq_nil_of_length_eq_zero (by omega)).symm
  | cons b l ih =>
    cases l' with
    | nil =>
      have hlen := congrArg List.length h
      rw [length_unpack, length_unpack, List.length_nil, List.length_cons] at hlen
      omega
    | cons b' l' =>
      rw [unpack, unpack, List.flatMap_cons, List.flatMap_cons] at h
      have hparts := List.append_inj h (by rw [length_bigEndian, length_bigEndian])
      have hbyte := bigEndian_injective hparts.1
      rw [Nat.mod_eq_of_lt b.toNat_lt, Nat.mod_eq_of_lt b'.toNat_lt] at hbyte
      rw [UInt8.toNat_inj.mp hbyte, ih hparts.2]

theorem magic_of_read {bytes : List UInt8} (h : ((array bytes).read 24).1 = 0x425A68) :
    [0x42, 0x5A, 0x68] <+: bytes := by
  have hzeros := readLoop_congr (fun i => (byteAt_append_zeros bytes 3 i).symm)
    24 0 0 0 (by norm_num)
  let long := bytes ++ List.replicate 3 0
  have hlen : (unpack (long.take 3)).length = 24 := by
    simp [long]
  have hsplit : (array long).rest =
      bigEndian 24 (value (unpack (long.take 3))) ++ unpack (long.drop 3) := by
    rw [rest_array, ← hlen, bigEndian_value, unpack, unpack, unpack, ← List.flatMap_append,
      List.take_append_drop]
  obtain ⟨r, hread, -⟩ := read_eq (by norm_num) hsplit
  have hlt := value_lt (unpack (long.take 3))
  have hfirst : (array long).read 24 = readLoop 24 0 ⟨long, 0, 0, by norm_num⟩ := rfl
  have hvalue : value (unpack (long.take 3)) = 0x425A68 := by
    rw [hfirst] at hread
    rw [hlen] at hlt
    rw [Reader.read, array, hzeros, hread] at h
    rwa [Nat.mod_eq_of_lt hlt] at h
  have hmagic : long.take 3 = [0x42, 0x5A, 0x68] := by
    refine unpack_injective ?_
    rw [← bigEndian_value (unpack (long.take 3)), hlen, hvalue]
    decide
  have hshort : 3 ≤ bytes.length := by
    by_contra hlt
    have hlast : (long.take 3)[2]? = some 0 := by
      rw [List.getElem?_take_of_lt (by norm_num), List.getElem?_append_right (by omega),
        List.getElem?_replicate, if_pos (by omega)]
    rw [hmagic] at hlast
    cases hlast
  rw [← hmagic, List.take_append_of_le_length hshort]
  exact List.take_prefix 3 bytes

theorem simple_magic {bytes : List UInt8} (h : ¬ [0x42, 0x5A, 0x68] <+: bytes) :
    (simple (array bytes)).toOption = none := by
  have hread : ((array bytes).read 24).1 ≠ 4348520 := fun heq => h (magic_of_read heq)
  have hheader : header.run (array bytes) = .error (.thrown "No magic number found") := by
    rw [header, StateT.run_bind]
    change (StateT.run (if ((array bytes).read 24).1 ≠ 4348520 then _ else _) _ :
      Except Failure _) = _
    rw [if_pos hread]
    rfl
  rw [simple, hheader]
  rfl

end Magic

section Letter

variable (b : UInt8)

theorem rows_letter (n : ℕ) : rows [n] = [[n]] := by
  rw [rows, show rotations [n] = [[n]] from rfl, List.mergeSort_singleton]

theorem used_letter {n : ℕ} (h : n < 256) : used (fun x => x == n) = [n] := by
  have hcount : (List.range 256).count n = 1 :=
    List.count_eq_one_of_mem List.nodup_range (List.mem_range.mpr h)
  rw [used, List.filter_beq, hcount, List.replicate_one]

def letterTable : List ℕ := [1, 2, 3]

theorem letterTable_kraft : Kraft 20 letterTable := by
  simp [Kraft, letterTable]

theorem letterTable_decodable : Decodable letterTable := by
  have hcount : ∀ i, [1, 2, 3].count i < 256 := fun i => by
    have hle := List.count_le_length (a := i) (l := [1, 2, 3])
    simp only [List.length_cons, List.length_nil] at hle
    omega
  simp [Decodable, MAX_HUFCODE_BITS, hcount, letterTable]

theorem letterTable_pos : ∀ l ∈ letterTable, 1 ≤ l := by decide

theorem eq_letterTable {lengths : List ℕ} (h : lengths ∈ [letterTable, letterTable]) :
    lengths = letterTable := by
  simpa using h

theorem length_letterTable {n : ℕ} (h : n < 256) :
    letterTable.length = (used fun x => x == n).length + 2 := by
  rw [used_letter h]
  rfl

theorem orig_letter (n : ℕ) : (rows [n])[0]? = some [n] := by
  rw [rows_letter]
  rfl

theorem enough_letter {n : ℕ} (h : n < 256) :
    (symbols (used fun x => x == n) 0 (lastColumn [n])).length < GROUP_SIZE * [0].length := by
  rw [used_letter h, lastColumn, rows_letter]
  simp [symbols, digits, GROUP_SIZE]

def letter : Block 900000 where
  crc := 0
  data := [b.toNat]
  origPtr := 0
  marked := fun x => x == b.toNat
  tables := [letterTable, letterTable]
  selectors := [0]
  length_le := by norm_num
  orig := orig_letter b.toNat
  bytes := List.forall_mem_singleton.mpr b.toNat_lt
  covers := List.forall_mem_singleton.mpr (beq_self_eq_true b.toNat)
  groups := ⟨le_rfl, by decide⟩
  table_length lengths h := (congrArg List.length (eq_letterTable h)).trans
    (length_letterTable b.toNat_lt)
  table_pos lengths h := (eq_letterTable h).symm ▸ letterTable_pos
  table_kraft lengths h := (eq_letterTable h).symm ▸ letterTable_kraft
  selected := List.forall_mem_singleton.mpr Nat.two_pos
  selectors_lt := by decide
  enough := enough_letter b.toNat_lt

theorem readable_letter : (letter b).Readable where
  fits := by norm_num [letter]
  decodable lengths h := (eq_letterTable h).symm ▸ letterTable_decodable

end Letter

section Minus

theorem mem_of_mem_trim {s : List Char} {c : Char} (h : c ∈ trim s) : c ∈ s := by
  rw [trim, List.mem_reverse] at h
  have h' := (List.dropWhile_sublist _).subset h
  rw [List.mem_reverse] at h'
  exact (List.dropWhile_sublist _).subset h'

theorem length_trim_le (s : List Char) : (trim s).length ≤ s.length := by
  rw [trim, List.length_reverse]
  refine (List.dropWhile_sublist _).length_le.trans ?_
  rw [List.length_reverse]
  exact (List.dropWhile_sublist _).length_le

theorem minusOne_sign {s : List Char} (h : minusOne s = true) : '-' ∈ s ∧ 2 ≤ s.length := by
  rw [minusOne] at h
  split at h
  · rename_i rest htrim
    refine ⟨mem_of_mem_trim (by rw [htrim]; exact List.mem_cons_self), ?_⟩
    have hlen := length_trim_le s
    rw [htrim, List.length_cons] at hlen
    cases rest with
    | nil =>
      rw [show decimalValue [] = none by decide] at h
      cases h
    | cons d rest =>
      rw [List.length_cons] at hlen
      omega
  · cases h

theorem minusOne_bits {piece : List UInt8} (h : ∀ b ∈ piece, b = 0 ∨ b = 1) :
    minusOne (latin1 piece) = false := by
  rw [Bool.eq_false_iff]
  intro hminus
  obtain ⟨b, hb, hsign⟩ := List.mem_map.mp (minusOne_sign hminus).1
  rcases h b hb with rfl | rfl
  · exact absurd hsign (by decide)
  · exact absurd hsign (by decide)

theorem minusOne_letter (b : UInt8) : minusOne (latin1 [b]) = false := by
  rw [Bool.eq_false_iff]
  intro hminus
  have hlen := (minusOne_sign hminus).2
  rw [latin1, List.length_map, List.length_singleton] at hlen
  exact absurd hlen (by decide)

end Minus

section Pair

/-- A compressor with its decoder, which gives a string with one character per byte
and may throw. -/
structure Codec where
  compress : List UInt8 → List UInt8
  simple : List UInt8 → Option (List Char)

/-- The decoder gives these bytes back. -/
def Codec.Restores (codec : Codec) (bytes : List UInt8) : Prop :=
  codec.simple (codec.compress bytes) = some (latin1 bytes)

/-- A compressor into the format, with the pieces of text that its blocks hold. -/
structure Compressor where
  archive : List UInt8 → Archive
  pieces : List UInt8 → List (List UInt8)
  cap : ℕ
  cap_ge : 4 ≤ cap
  holds : ∀ bytes, (archive bytes).blocks.map (fun b => b.data) =
    (pieces bytes).map (collapsed cap)
  flatten : ∀ bytes, (pieces bytes).flatten = bytes

def Compressor.codec (c : Compressor) : Codec where
  compress bytes := pack (c.archive bytes).encode
  simple bytes := (Bzip2Safety.simple (array bytes)).toOption

theorem restores_iff (c : Compressor) {bytes : List UInt8}
    (hreadable : (c.archive bytes).Readable) :
    c.codec.Restores bytes ↔ ∀ piece ∈ c.pieces bytes, minusOne (latin1 piece) = false := by
  have hsimple : c.codec.simple (c.codec.compress bytes) =
      some (((c.pieces bytes).map latin1).takeWhile fun text => !minusOne text).flatten := by
    change (Bzip2Safety.simple (array (pack (c.archive bytes).encode))).toOption = _
    rw [simple_eq c.cap_ge hreadable (c.holds bytes)]
    rfl
  have hflatten : latin1 bytes = ((c.pieces bytes).map latin1).flatten := by
    rw [flatten_latin1, c.flatten]
  rw [Codec.Restores, hsimple, hflatten, Option.some_inj,
    takeWhile_flatten_iff (by rw [minusOne_nil, Bool.not_false]), List.forall_mem_map]
  simp only [Bool.not_eq_true']

/-- Behind readable tables the decoder gives a compressed text back exactly when it takes
none of its blocks for the number -1. -/
theorem simple_compressor_iff (c : Compressor) {bytes : List UInt8}
    (hreadable : (c.archive bytes).Readable) :
    simple (array (pack (c.archive bytes).encode)) = .ok (latin1 bytes) ↔
      ∀ piece ∈ c.pieces bytes, minusOne (latin1 piece) = false := by
  rw [← restores_iff c hreadable]
  change _ ↔ (simple (array (pack (c.archive bytes).encode))).toOption = some (latin1 bytes)
  cases simple (array (pack (c.archive bytes).encode)) with
  | ok text => rw [Except.ok.injEq, Except.toOption, Option.some_inj]
  | error e => simp [Except.toOption]

def letters : Compressor where
  archive bytes := ⟨9, 0, bytes.map letter, by norm_num, by norm_num⟩
  pieces bytes := bytes.map fun b => [b]
  cap := 255
  cap_ge := by norm_num
  holds bytes := by
    rw [List.map_map, List.map_map]
    rfl
  flatten bytes := by
    induction bytes with
    | nil => rfl
    | cons b bytes ih => rw [List.map_cons, List.flatten_cons, ih, List.singleton_append]

theorem readable_letters (bytes : List UInt8) : (letters.archive bytes).Readable := by
  intro b hb
  obtain ⟨c, -, rfl⟩ := List.mem_map.mp hb
  exact readable_letter c

theorem minusOne_letters (bytes : List UInt8) :
    ∀ piece ∈ letters.pieces bytes, minusOne (latin1 piece) = false := by
  intro piece hpiece
  obtain ⟨b, -, rfl⟩ := List.mem_map.mp hpiece
  exact minusOne_letter b

theorem restores_letters (bytes : List UInt8) : letters.codec.Restores bytes :=
  (restores_iff letters (readable_letters bytes)).mpr (minusOne_letters bytes)

theorem codec_magic (c : Compressor) {bytes : List UInt8}
    (h : ¬ [0x42, 0x5A, 0x68] <+: bytes) : c.codec.simple bytes = none :=
  simple_magic h

/-- The text "-1" in two blocks comes back. -/
theorem simple_compressor_iff_letters :
    simple (array (pack (letters.archive [45, 49]).encode)) = .ok (latin1 [45, 49]) :=
  (simple_compressor_iff letters (readable_letters [45, 49])).mpr (minusOne_letters [45, 49])

theorem restores_bits (c : Compressor) {bytes : List UInt8}
    (hreadable : (c.archive bytes).Readable) (hbits : ∀ b ∈ bytes, b = 0 ∨ b = 1) :
    c.codec.Restores bytes := by
  refine (restores_iff c hreadable).mpr fun piece hpiece => minusOne_bits fun b hb => hbits b ?_
  rw [← c.flatten bytes]
  exact List.mem_flatten_of_mem hpiece hb

end Pair

end XWebQL.Bzip2Compressor
