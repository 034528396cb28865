import XWebQL.Bzip2Compressor
import XWebQL.JsString
import XWebQL.Utf8
import Mathlib.Data.List.FinRange

/-! The pixel mask on its way to the client.
The server flattens the mask to bytes and compresses them. The client splits the
percent-encoded string at each `%`; the first separator is at the very start of
the string, so the first part is empty and becomes a byte of its own. -/

namespace XWebQL.MaskCodec

open JsString Utf8 BitStream Bzip2Reader Bzip2Compressor

/-- A compressor that is lossless together with the decoder `bzip2.simple` of the
client, which throws without the magic number `BZh` at the start. -/
structure Bzip2 extends Codec where
  lossless : ∀ bytes, simple (compress bytes) = some (latin1 bytes)
  magic : ∀ bytes, ¬ [0x42, 0x5A, 0x68] <+: bytes → simple bytes = none

/-- The decoder of the client behind a compressor that makes a block of each byte. -/
def Bzip2.letters : Bzip2 where
  toCodec := Bzip2Compressor.letters.codec
  lossless := restores_letters
  magic _ := codec_magic _

/-- `collect(flatten(UInt8.(mask)))`: the first index runs fastest. -/
def maskBytes {w h : ℕ} (mask : Fin w → Fin h → Bool) : List UInt8 :=
  (List.finRange h).flatMap fun j =>
    (List.finRange w).map fun i => if mask i j then 1 else 0

/-- The terminators that `.` does not match. -/
def lineTerminator (c : Char) : Bool :=
  c ∈ [Char.ofNat 0x0a, Char.ofNat 0x0d, Char.ofNat 0x2028, Char.ofNat 0x2029]

/-- `%.?` ends at position `q`. -/
def EscapeEndsAt (s : List Char) (q : ℕ) : Prop :=
  (1 ≤ q ∧ s[q - 1]? = some '%') ∨
    (2 ≤ q ∧ s[q - 2]? = some '%' ∧ s[q - 1]?.map lineTerminator = some false)

instance (s : List Char) (q : ℕ) : Decidable (EscapeEndsAt s q) :=
  inferInstanceAs (Decidable (_ ∨ _))

/-- `/%|(?<!%.?)/`: a percent sign, or a place that no escape ends at. -/
def percentOrGap (s : List Char) (q : ℕ) : Option ℕ :=
  if s[q]? = some '%' then some 1
  else if EscapeEndsAt s q then none
  else some 0

/-- `(x) => ((x[1]) ? parseInt(x, 16) : x.charCodeAt(x))` -/
def decodeToken (x : List Char) : Option ℕ :=
  if x[1]?.isSome then parseInt16 x else charCodeAt x x

/-- `Uint8Array.from(encodeURI(uncompressed).split(/%|(?<!%.?)/).map(...))` -/
def decodeMask (uncompressed : List Char) : List UInt8 :=
  (split percentOrGap (encodeURI uncompressed)).map fun x => toUint8 (decodeToken x)

def escapes (pairs : List (Char × Char)) : List Char :=
  pairs.flatMap fun p => ['%', p.1, p.2]

def EscapePair (p : Char × Char) : Prop :=
  p.1 ≠ '%' ∧ p.2 ≠ '%' ∧ lineTerminator p.1 = false

section Escape

variable (pre tail : List Char) (p : Char × Char)

theorem getElem?_escape (k : ℕ) :
    (pre ++ '%' :: p.1 :: p.2 :: tail)[pre.length + k]? = ('%' :: p.1 :: p.2 :: tail)[k]? := by
  rw [List.getElem?_append_right (Nat.le_add_right _ _), Nat.add_sub_cancel_left]

theorem percentOrGap_inside (hp : EscapePair p) :
    percentOrGap (pre ++ '%' :: p.1 :: p.2 :: tail) (pre.length + 1) = none ∧
      percentOrGap (pre ++ '%' :: p.1 :: p.2 :: tail) (pre.length + 1 + 1) = none := by
  obtain ⟨h₁, h₂, h₃⟩ := hp
  have read := getElem?_escape pre tail p
  have percent : (pre ++ '%' :: p.1 :: p.2 :: tail)[pre.length]? = some '%' := read 0
  have first : (pre ++ '%' :: p.1 :: p.2 :: tail)[pre.length + 1]? = some p.1 := read 1
  have second : (pre ++ '%' :: p.1 :: p.2 :: tail)[pre.length + 1 + 1]? = some p.2 := read 2
  constructor
  · rw [percentOrGap, first, if_neg (by simpa using h₁), if_pos]
    exact .inl ⟨by omega, by rw [Nat.add_sub_cancel, percent]⟩
  · rw [percentOrGap, second, if_neg (by simpa using h₂), if_pos]
    refine .inr ⟨by omega, ?_, ?_⟩
    · rw [show pre.length + 1 + 1 - 2 = pre.length by omega, percent]
    · rw [Nat.add_sub_cancel, first, Option.map_some, h₃]

/-- The first two steps of the loop after a percent sign. -/
theorem splitLoop_inside (hp : EscapePair p) :
    splitLoop percentOrGap (pre ++ '%' :: p.1 :: p.2 :: tail) (pre.length + 1) (pre.length + 1)
        le_rfl =
      splitLoop percentOrGap (pre ++ '%' :: p.1 :: p.2 :: tail) (pre.length + 1)
        (pre.length + 1 + 1 + 1) (by omega) := by
  obtain ⟨h₁, h₂⟩ := percentOrGap_inside pre tail p hp
  have hlen : pre.length + 3 ≤ (pre ++ '%' :: p.1 :: p.2 :: tail).length := by
    rw [List.length_append]
    simp only [List.length_cons]
    omega
  rw [splitLoop_none _ (by omega) h₁, splitLoop_none _ (by omega) h₂]

theorem drop_escape : (pre ++ '%' :: tail).drop (pre.length + 1) = tail := by
  rw [List.drop_append, List.drop_eq_nil_of_le (Nat.le_succ _)]
  simp

end Escape

theorem splitLoop_escapes (pre : List Char) (p : Char × Char) (rest : List (Char × Char))
    (hp : ∀ e ∈ p :: rest, EscapePair e) :
    splitLoop percentOrGap (pre ++ '%' :: p.1 :: p.2 :: escapes rest) (pre.length + 1)
        (pre.length + 1) le_rfl =
      (p :: rest).map fun e => [e.1, e.2] := by
  induction rest generalizing pre p with
  | nil =>
    rw [splitLoop_inside pre (escapes []) p (hp p (by simp)), splitLoop_end _ (by simp [escapes]),
      drop_escape]
    rfl
  | cons p' rest ih =>
    have step := ih (pre ++ ['%', p.1, p.2]) p' fun e he => hp e (List.mem_cons_of_mem p he)
    have hstring : pre ++ ['%', p.1, p.2] ++ '%' :: p'.1 :: p'.2 :: escapes rest =
        pre ++ '%' :: p.1 :: p.2 :: escapes (p' :: rest) := by
      simp [escapes]
    have hpercent : percentOrGap (pre ++ '%' :: p.1 :: p.2 :: escapes (p' :: rest))
        (pre.length + 1 + 1 + 1) = some 1 := by
      rw [percentOrGap, if_pos]
      exact getElem?_escape pre (escapes (p' :: rest)) p 3
    have htoken : ((pre ++ '%' :: p.1 :: p.2 :: escapes (p' :: rest)).drop (pre.length + 1)).take
        (pre.length + 1 + 1 + 1 - (pre.length + 1)) = [p.1, p.2] := by
      rw [drop_escape, show pre.length + 1 + 1 + 1 - (pre.length + 1) = 2 by omega]
      rfl
    have hend : (pre ++ ['%', p.1, p.2]).length + 1 = pre.length + 1 + 1 + 1 + 1 := by simp
    rw [splitLoop_inside pre (escapes (p' :: rest)) p (hp p (by simp)),
      splitLoop_some _ (by simp [escapes]; omega) Nat.one_pos hpercent, htoken, List.map_cons]
    congr 1
    rw [← step]
    simp only [hstring, hend]

/-- The separator at the start of a string of escapes leaves an empty part. -/
theorem split_escapes (p : Char × Char) (rest : List (Char × Char))
    (hp : ∀ e ∈ p :: rest, EscapePair e) :
    split percentOrGap (escapes (p :: rest)) = [] :: (p :: rest).map fun e => [e.1, e.2] := by
  have hloop := splitLoop_escapes [] p rest hp
  have hlen : (escapes (p :: rest)).length ≠ 0 := by simp [escapes]
  rw [split, if_neg hlen, splitLoop_some _ (by simp [escapes]) Nat.one_pos
    (show percentOrGap _ 0 = some 1 from rfl)]
  congr 1

/-- The two digits of a byte `0` or `1`. -/
def bitPair (b : UInt8) : Char × Char := ('0', if b = 1 then '1' else '0')

theorem escapePair_bitPair (b : UInt8) : EscapePair (bitPair b) := by
  rw [bitPair]
  split_ifs <;> exact ⟨by decide, by decide, by decide⟩

theorem decodeToken_bitPair {b : UInt8} (hb : b = 0 ∨ b = 1) :
    toUint8 (decodeToken [(bitPair b).1, (bitPair b).2]) = b := by
  obtain rfl | rfl := hb <;> decide

theorem encodeURI_bits {bytes : List UInt8} (hbytes : ∀ b ∈ bytes, b = 0 ∨ b = 1) :
    encodeURI (latin1 bytes) = escapes (bytes.map bitPair) := by
  rw [encodeURI, escapes, latin1, List.flatMap_map, List.flatMap_map]
  apply List.flatMap_congr
  intro b hb
  obtain rfl | rfl := hbytes b hb <;> decide

theorem decodeMask_bits {bytes : List UInt8} (hbytes : ∀ b ∈ bytes, b = 0 ∨ b = 1)
    (hne : bytes ≠ []) : decodeMask (latin1 bytes) = 0 :: bytes := by
  obtain ⟨b, rest, rfl⟩ := List.exists_cons_of_ne_nil hne
  have hpairs : ∀ e ∈ bitPair b :: rest.map bitPair, EscapePair e := by
    intro e he
    rw [← List.map_cons] at he
    obtain ⟨c, _, rfl⟩ := List.mem_map.mp he
    exact escapePair_bitPair c
  rw [decodeMask, encodeURI_bits hbytes, List.map_cons, split_escapes _ _ hpairs, ← List.map_cons,
    List.map_cons, List.map_map, List.map_map]
  congr 1
  refine (List.map_congr_left fun c hc => ?_).trans (List.map_id _)
  exact decodeToken_bitPair (hbytes c hc)

theorem maskBytes_bits {w h : ℕ} (mask : Fin w → Fin h → Bool) :
    ∀ b ∈ maskBytes mask, b = 0 ∨ b = 1 := by
  intro b hb
  obtain ⟨j, _, hb⟩ := List.mem_flatMap.mp hb
  obtain ⟨i, _, rfl⟩ := List.mem_map.mp hb
  by_cases hij : mask i j <;> simp [hij]

theorem length_maskBytes {w h : ℕ} (mask : Fin w → Fin h → Bool) :
    (maskBytes mask).length = w * h := by
  simp [maskBytes, Nat.mul_comm]

/-- The client recovers the mask only when it has no pixels. Otherwise it reads
one byte too many, and every pixel at the place after its own. -/
theorem decodeMask_eq_iff (bzip2 : Bzip2) {w h : ℕ} (mask : Fin w → Fin h → Bool) :
    (bzip2.simple (bzip2.compress (maskBytes mask))).map decodeMask = some (maskBytes mask) ↔
      w = 0 ∨ h = 0 := by
  rw [bzip2.lossless, Option.map_some, Option.some_inj, ← Nat.mul_eq_zero, ← length_maskBytes mask]
  by_cases hne : maskBytes mask = []
  · rw [hne]
    simp only [List.length_nil, iff_true]
    decide
  · rw [decodeMask_bits (maskBytes_bits mask) hne, List.length_eq_zero_iff]
    simp [hne]

/-- A single pixel comes back as two bytes. -/
theorem decodeMask_one_pixel :
    (Bzip2.letters.simple (Bzip2.letters.compress
      (maskBytes fun (_ : Fin 1) (_ : Fin 1) => true))).map decodeMask ≠
        some (maskBytes fun (_ : Fin 1) (_ : Fin 1) => true) := by
  rw [Bzip2.letters.lossless, Option.map_some, decodeMask_bits (maskBytes_bits _) (by decide)]
  decide

/-- Behind any compressor with readable tables the client decodes a mask to a zero and
the bytes of the mask. -/
theorem decodeMask_archive (c : Compressor) {w h : ℕ} (mask : Fin w → Fin h → Bool)
    (hreadable : (c.archive (maskBytes mask)).Readable) :
    (Bzip2Safety.simple (array (pack (c.archive (maskBytes mask)).encode))).toOption.map
        decodeMask =
      some (if w = 0 ∨ h = 0 then [] else 0 :: maskBytes mask) := by
  have hbits := maskBytes_bits mask
  have hrestored : (Bzip2Safety.simple (array (pack (c.archive (maskBytes mask)).encode))).toOption =
      some (latin1 (maskBytes mask)) := restores_bits c hreadable hbits
  have hlen := length_maskBytes mask
  rw [hrestored, Option.map_some]
  split_ifs with hempty
  · rw [List.eq_nil_of_length_eq_zero (hlen.trans (Nat.mul_eq_zero.mpr hempty))]
    rfl
  · rw [decodeMask_bits hbits]
    intro hnil
    rw [hnil, List.length_nil] at hlen
    exact hempty (Nat.mul_eq_zero.mp hlen.symm)

theorem decodeMask_archive_one_pixel :
    (Bzip2Safety.simple (array (pack (Bzip2Compressor.letters.archive
      (maskBytes fun (_ : Fin 1) (_ : Fin 1) => true)).encode))).toOption.map decodeMask =
        some [0, 1] :=
  decodeMask_archive _ _ (readable_letters _)

end XWebQL.MaskCodec
