import XWebQL.DataView
import XWebQL.MaskCodec

/-! The response to an image request, from the server that writes it to the
client that parses it.
The server announces the lengths of the texts in characters. The client makes
room for as many bytes, so a text outside ASCII is cut off. The spectrum has no
length of its own, but its bytes become characters one by one. -/

namespace XWebQL.ImageResponse

open JsString Utf8 DataView MaskCodec

/-- The compressor of the server and the decoder of the client, which fills a
buffer of the announced length. -/
structure Lz4 where
  compress : List UInt8 → List UInt8
  decodeBlock : List UInt8 → ℕ → List UInt8
  truncates : ∀ bytes length, decodeBlock (compress bytes) length = bytes.take length

structure Response where
  flux : List Char
  flux_ascii : ∀ c ∈ flux, Ascii c
  minCount : ℕ
  maxCount : ℕ
  imgWidth : ℕ
  imgHeight : ℕ
  compressedPixels : List UInt8
  compressedMask : List UInt8
  fetchData : Bool
  json : List Char
  header : List Char
  spectrum : List Char

def textwidth (s : List Char) : ℕ := s.countP fun c => 0x20 ≤ c.toNat ∧ c.toNat ≠ 0x7F

def lpad (s : List Char) (n : ℕ) : List Char := List.replicate (n - textwidth s) ' ' ++ s

def paddedFlux (flux : List Char) : List Char := lpad flux (4 * (flux.length / 4 + 1))

/-- `write(response, UInt32(n))`, where the conversion throws when `n` does not fit. -/
def writeUInt32 (n : ℕ) : Option (List UInt8) :=
  if n < 2 ^ 32 then some (littleEndian 4 n) else none

def writeUInt64 (n : ℕ) : Option (List UInt8) :=
  if n < 2 ^ 64 then some (littleEndian 8 n) else none

def writeInt32 (n : ℕ) : Option (List UInt8) :=
  if n < 2 ^ 31 then some (littleEndian 4 n) else none

def writeText (lz4 : Lz4) (text : List Char) : Option (List UInt8) := do
  let textLen ← writeInt32 text.length
  let compressed := lz4.compress (encode text)
  let compressedLen ← writeInt32 compressed.length
  some (textLen ++ compressedLen ++ compressed)

def writeData (lz4 : Lz4) (bzip2 : Bzip2) (r : Response) : Option (List UInt8) :=
  if r.fetchData then do
    let json ← writeText lz4 r.json
    let header ← writeText lz4 r.header
    some (json ++ header ++ bzip2.compress (encode r.spectrum))
  else some []

def streamImageSpectrum (lz4 : Lz4) (bzip2 : Bzip2) (r : Response) : Option (List UInt8) := do
  let flux := paddedFlux r.flux
  let fluxLen ← writeUInt32 flux.length
  let minCount ← writeUInt64 r.minCount
  let maxCount ← writeUInt64 r.maxCount
  let imgWidth ← writeInt32 r.imgWidth
  let imgHeight ← writeInt32 r.imgHeight
  let pixelsLen ← writeInt32 r.compressedPixels.length
  let maskLen ← writeInt32 r.compressedMask.length
  let data ← writeData lz4 bzip2 r
  some (fluxLen ++ encode flux ++ minCount ++ maxCount ++ imgWidth ++ imgHeight ++
    pixelsLen ++ r.compressedPixels ++ maskLen ++ r.compressedMask ++ data)

structure Parsed where
  flux : List Char
  minCount : ℕ
  maxCount : ℕ
  imgWidth : ℕ
  imgHeight : ℕ
  pixels : List UInt8
  mask : List UInt8
  json : Option (List Char)
  header : Option (List Char)
  spectrum : Option (List Char)
  deriving DecidableEq

/-- The reads inside a `try`: the length of a text, the length of its buffer and
the buffer. The offset stays where the failing read has left it. -/
def tryBlock (msg : List UInt8) (offset : ℕ) : ℕ × Option (ℕ × List UInt8) :=
  match getUint32 msg offset with
  | none => (offset, none)
  | some len =>
    match getUint32 msg (offset + 4) with
    | none => (offset + 4, none)
    | some bufferLen =>
      match subarray msg (offset + 8) bufferLen with
      | none => (offset + 8, none)
      | some buffer => (offset + 8 + bufferLen, some (len, buffer))

/-- `new TextDecoder().decode(...)` of the decompressed block. -/
def blockText (lz4 : Lz4) (block : ℕ × List UInt8) : List Char :=
  decode (lz4.decodeBlock block.2 block.1)

/-- The part of `fetch_image_spectrum` that takes the response apart. The texts
are those that `JSON.parse` receives. -/
def fetchImageSpectrum (lz4 : Lz4) (bzip2 : Bzip2) (msg : List UInt8) : Option Parsed := do
  let strLength ← getUint32 msg 0
  let offset := 4
  let flux ← subarray msg offset strLength
  let offset := offset + strLength
  let minCount ← getUint64 msg offset
  let offset := offset + 8
  let maxCount ← getUint64 msg offset
  let offset := offset + 8
  let imgWidth ← getUint32 msg offset
  let offset := offset + 4
  let imgHeight ← getUint32 msg offset
  let offset := offset + 4
  let pixelsLength ← getUint32 msg offset
  let offset := offset + 4
  let framePixels ← subarray msg offset pixelsLength
  let offset := offset + pixelsLength
  let maskLength ← getUint32 msg offset
  let offset := offset + 4
  let frameMask ← subarray msg offset maskLength
  let offset := offset + maskLength
  let (offset, json) := tryBlock msg offset
  let (offset, header) := tryBlock msg offset
  let spectrum := (tailarray msg offset).bind bzip2.simple
  some {
    flux := trim (decode flux)
    minCount, maxCount, imgWidth, imgHeight
    pixels := framePixels
    mask := frameMask
    json := json.map (blockText lz4)
    header := header.map (blockText lz4)
    spectrum }

def Response.content (r : Response) : Parsed where
  flux := trim r.flux
  minCount := r.minCount
  maxCount := r.maxCount
  imgWidth := r.imgWidth
  imgHeight := r.imgHeight
  pixels := r.compressedPixels
  mask := r.compressedMask
  json := if r.fetchData then some r.json else none
  header := if r.fetchData then some r.header else none
  spectrum := if r.fetchData then some r.spectrum else none

/-- Every length and dimension fits its field. -/
structure Fits (lz4 : Lz4) (r : Response) : Prop where
  flux : (paddedFlux r.flux).length < 2 ^ 32
  minCount : r.minCount < 2 ^ 64
  maxCount : r.maxCount < 2 ^ 64
  imgWidth : r.imgWidth < 2 ^ 31
  imgHeight : r.imgHeight < 2 ^ 31
  pixels : r.compressedPixels.length < 2 ^ 31
  mask : r.compressedMask.length < 2 ^ 31
  json : r.fetchData → r.json.length < 2 ^ 31 ∧ (lz4.compress (encode r.json)).length < 2 ^ 31
  header : r.fetchData →
    r.header.length < 2 ^ 31 ∧ (lz4.compress (encode r.header)).length < 2 ^ 31

def textBlock (lz4 : Lz4) (text : List Char) : List UInt8 :=
  littleEndian 4 text.length ++ (littleEndian 4 (lz4.compress (encode text)).length ++
    lz4.compress (encode text))

def dataBlock (lz4 : Lz4) (bzip2 : Bzip2) (r : Response) : List UInt8 :=
  if r.fetchData then
    textBlock lz4 r.json ++ (textBlock lz4 r.header ++ bzip2.compress (encode r.spectrum))
  else []

def message (lz4 : Lz4) (bzip2 : Bzip2) (r : Response) : List UInt8 :=
  littleEndian 4 (paddedFlux r.flux).length ++ (encode (paddedFlux r.flux) ++
    (littleEndian 8 r.minCount ++ (littleEndian 8 r.maxCount ++
      (littleEndian 4 r.imgWidth ++ (littleEndian 4 r.imgHeight ++
        (littleEndian 4 r.compressedPixels.length ++ (r.compressedPixels ++
          (littleEndian 4 r.compressedMask.length ++ (r.compressedMask ++
            dataBlock lz4 bzip2 r)))))))))

section Write

variable {n : ℕ} {bytes : List UInt8}

theorem writeUInt32_eq_some :
    writeUInt32 n = some bytes ↔ n < 2 ^ 32 ∧ littleEndian 4 n = bytes := by
  rw [writeUInt32, Option.ite_none_right_eq_some, Option.some_inj]

theorem writeUInt64_eq_some :
    writeUInt64 n = some bytes ↔ n < 2 ^ 64 ∧ littleEndian 8 n = bytes := by
  rw [writeUInt64, Option.ite_none_right_eq_some, Option.some_inj]

theorem writeInt32_eq_some :
    writeInt32 n = some bytes ↔ n < 2 ^ 31 ∧ littleEndian 4 n = bytes := by
  rw [writeInt32, Option.ite_none_right_eq_some, Option.some_inj]

theorem writeText_eq_some {lz4 : Lz4} {text : List Char} :
    writeText lz4 text = some bytes ↔
      (text.length < 2 ^ 31 ∧ (lz4.compress (encode text)).length < 2 ^ 31) ∧
        textBlock lz4 text = bytes := by
  simp only [writeText, Option.bind_eq_bind, Option.bind_eq_some_iff, writeInt32_eq_some,
    Option.some_inj]
  constructor
  · rintro ⟨_, ⟨htext, rfl⟩, _, ⟨hblock, rfl⟩, rfl⟩
    exact ⟨⟨htext, hblock⟩, by rw [textBlock, List.append_assoc]⟩
  · rintro ⟨⟨htext, hblock⟩, rfl⟩
    exact ⟨_, ⟨htext, rfl⟩, _, ⟨hblock, rfl⟩, by rw [textBlock, List.append_assoc]⟩

variable {lz4 : Lz4} {bzip2 : Bzip2} {r : Response}

theorem writeData_eq_some :
    writeData lz4 bzip2 r = some bytes ↔
      (r.fetchData → (r.json.length < 2 ^ 31 ∧ (lz4.compress (encode r.json)).length < 2 ^ 31) ∧
        r.header.length < 2 ^ 31 ∧ (lz4.compress (encode r.header)).length < 2 ^ 31) ∧
        dataBlock lz4 bzip2 r = bytes := by
  by_cases hdata : r.fetchData
  · simp only [writeData, dataBlock, if_pos hdata, Option.bind_eq_bind, Option.bind_eq_some_iff,
      writeText_eq_some, Option.some_inj]
    constructor
    · rintro ⟨_, ⟨hjson, rfl⟩, _, ⟨hheader, rfl⟩, rfl⟩
      exact ⟨fun _ => ⟨hjson, hheader⟩, by rw [List.append_assoc]⟩
    · rintro ⟨hfits, rfl⟩
      exact ⟨_, ⟨(hfits hdata).1, rfl⟩, _, ⟨(hfits hdata).2, rfl⟩, by rw [List.append_assoc]⟩
  · simp [writeData, dataBlock, hdata]

theorem streamImageSpectrum_eq_some {msg : List UInt8} :
    streamImageSpectrum lz4 bzip2 r = some msg ↔ Fits lz4 r ∧ message lz4 bzip2 r = msg := by
  simp only [streamImageSpectrum, Option.bind_eq_bind, Option.bind_eq_some_iff,
    writeUInt32_eq_some, writeUInt64_eq_some, writeInt32_eq_some, writeData_eq_some,
    Option.some_inj]
  constructor
  · rintro ⟨_, ⟨hflux, rfl⟩, _, ⟨hmin, rfl⟩, _, ⟨hmax, rfl⟩, _, ⟨hwidth, rfl⟩, _, ⟨hheight, rfl⟩,
      _, ⟨hpixels, rfl⟩, _, ⟨hmask, rfl⟩, _, ⟨hdata, rfl⟩, rfl⟩
    exact ⟨⟨hflux, hmin, hmax, hwidth, hheight, hpixels, hmask, fun h => (hdata h).1,
      fun h => (hdata h).2⟩, by simp only [message, List.append_assoc]⟩
  · rintro ⟨hfits, rfl⟩
    exact ⟨_, ⟨hfits.flux, rfl⟩, _, ⟨hfits.minCount, rfl⟩, _, ⟨hfits.maxCount, rfl⟩,
      _, ⟨hfits.imgWidth, rfl⟩, _, ⟨hfits.imgHeight, rfl⟩, _, ⟨hfits.pixels, rfl⟩,
      _, ⟨hfits.mask, rfl⟩, _, ⟨fun h => ⟨hfits.json h, hfits.header h⟩, rfl⟩,
      by simp only [message, List.append_assoc]⟩

end Write

section Flux

theorem textwidth_le (s : List Char) : textwidth s ≤ s.length := List.countP_le_length

theorem paddedFlux_ascii {flux : List Char} (h : ∀ c ∈ flux, Ascii c) :
    ∀ c ∈ paddedFlux flux, Ascii c := by
  intro c hc
  rcases List.mem_append.mp hc with hpad | hflux
  · rw [List.eq_of_mem_replicate hpad]
    decide
  · exact h c hflux

/-- There is always a blank in front. -/
theorem decode_paddedFlux (flux : List Char) :
    decode (encode (paddedFlux flux)) = paddedFlux flux := by
  have hwidth := textwidth_le flux
  obtain ⟨k, hk⟩ : ∃ k, 4 * (flux.length / 4 + 1) - textwidth flux = k + 1 :=
    ⟨4 * (flux.length / 4 + 1) - textwidth flux - 1, by omega⟩
  refine decode_encode ?_
  rw [paddedFlux, lpad, hk, List.replicate_succ, List.cons_append, List.head?_cons]
  decide

theorem trim_paddedFlux (flux : List Char) : trim (paddedFlux flux) = trim flux :=
  trim_replicate_append (by decide) _ _

end Flux

section Parse

variable {msg rest : List UInt8} {offset : ℕ}

theorem tryBlock_nil (h : Rest msg offset []) : tryBlock msg offset = (offset, none) := by
  rw [tryBlock, h.getUint32_nil]

theorem tryBlock_textBlock {lz4 : Lz4} {text : List Char}
    (h : Rest msg offset (textBlock lz4 text ++ rest))
    (htext : text.length < 2 ^ 31) (hblock : (lz4.compress (encode text)).length < 2 ^ 31) :
    tryBlock msg offset = (offset + 8 + (lz4.compress (encode text)).length,
        some (text.length, lz4.compress (encode text))) ∧
      Rest msg (offset + 8 + (lz4.compress (encode text)).length) rest := by
  rw [textBlock, List.append_assoc, List.append_assoc] at h
  have hbuffer : Rest msg (offset + 8) (lz4.compress (encode text) ++ rest) := h.skipWord.skipWord
  rw [tryBlock, h.getUint32 (by omega)]
  simp only [h.skipWord.getUint32 (show _ < 2 ^ 32 by omega), hbuffer.subarray]
  exact ⟨trivial, hbuffer.skip⟩

/-- The client sees the text cut at its number of characters. -/
theorem blockText_compress (lz4 : Lz4) (text : List Char) :
    blockText lz4 (text.length, lz4.compress (encode text)) = decode (cut text) := by
  rw [blockText, lz4.truncates, cut]

end Parse

def Response.received (r : Response) : Parsed where
  flux := trim r.flux
  minCount := toDouble r.minCount
  maxCount := toDouble r.maxCount
  imgWidth := r.imgWidth
  imgHeight := r.imgHeight
  pixels := r.compressedPixels
  mask := r.compressedMask
  json := if r.fetchData then some (decode (cut r.json)) else none
  header := if r.fetchData then some (decode (cut r.header)) else none
  spectrum := if r.fetchData then some (latin1 (encode r.spectrum)) else none

theorem tryBlocks_dataBlock {lz4 : Lz4} {bzip2 : Bzip2} {r : Response} {msg : List UInt8}
    {offset : ℕ} (hfits : Fits lz4 r) (h : Rest msg offset (dataBlock lz4 bzip2 r)) :
    (tryBlock msg offset).2.map (blockText lz4) = r.received.json ∧
      (tryBlock msg (tryBlock msg offset).1).2.map (blockText lz4) = r.received.header ∧
      (tailarray msg (tryBlock msg (tryBlock msg offset).1).1).bind bzip2.simple =
        r.received.spectrum := by
  simp only [Response.received]
  by_cases hdata : r.fetchData
  · simp only [dataBlock, if_pos hdata] at h ⊢
    obtain ⟨hjson, h⟩ := tryBlock_textBlock h (hfits.json hdata).1 (hfits.json hdata).2
    obtain ⟨hheader, h⟩ := tryBlock_textBlock h (hfits.header hdata).1 (hfits.header hdata).2
    simp only [hjson, hheader, Option.map_some, blockText_compress, h.tailarray, Option.bind_some,
      bzip2.lossless, and_self]
  · simp only [dataBlock, if_neg hdata] at h ⊢
    simp only [tryBlock_nil h, h.tailarray, Option.map_none, Option.bind_some, true_and]
    exact bzip2.magic [] (by decide)

theorem fetchImageSpectrum_message {lz4 : Lz4} (bzip2 : Bzip2) {r : Response}
    (hfits : Fits lz4 r) :
    fetchImageSpectrum lz4 bzip2 (message lz4 bzip2 r) = some r.received := by
  have hflux : (encode (paddedFlux r.flux)).length = (paddedFlux r.flux).length :=
    le_antisymm ((length_encode_le_iff _).mpr (paddedFlux_ascii r.flux_ascii))
      (length_le_encode _)
  have hpixels := hfits.pixels
  have hmask := hfits.mask
  have hwidth := hfits.imgWidth
  have hheight := hfits.imgHeight
  have atLength := Rest.start (message lz4 bzip2 r)
  rw [message] at atLength
  have atFlux := atLength.skipWord
  have atMin := atFlux.skip
  have readFlux := atFlux.subarray
  rw [hflux] at atMin readFlux
  have atMax := atMin.skipWord
  have atWidth := atMax.skipWord
  have atHeight := atWidth.skipWord
  have atPixelsLength := atHeight.skipWord
  have atPixels := atPixelsLength.skipWord
  have atMaskLength := atPixels.skip
  have atMask := atMaskLength.skipWord
  obtain ⟨hjson, hheader, hspectrum⟩ := tryBlocks_dataBlock hfits atMask.skip
  rw [Nat.zero_add] at *
  rw [fetchImageSpectrum, message]
  -- the fields in their order, each read where the one before it ends
  refine Option.bind_eq_some_iff.mpr ⟨_, atLength.getUint32 hfits.flux, ?_⟩
  refine Option.bind_eq_some_iff.mpr ⟨_, readFlux, ?_⟩
  refine Option.bind_eq_some_iff.mpr ⟨_, atMin.getUint64 hfits.minCount, ?_⟩
  refine Option.bind_eq_some_iff.mpr ⟨_, atMax.getUint64 hfits.maxCount, ?_⟩
  refine Option.bind_eq_some_iff.mpr ⟨_, atWidth.getUint32 (by omega), ?_⟩
  refine Option.bind_eq_some_iff.mpr ⟨_, atHeight.getUint32 (by omega), ?_⟩
  refine Option.bind_eq_some_iff.mpr ⟨_, atPixelsLength.getUint32 (by omega), ?_⟩
  refine Option.bind_eq_some_iff.mpr ⟨_, atPixels.subarray, ?_⟩
  refine Option.bind_eq_some_iff.mpr ⟨_, atMaskLength.getUint32 (by omega), ?_⟩
  refine Option.bind_eq_some_iff.mpr ⟨_, atMask.subarray, ?_⟩
  simp only [hjson, hheader, hspectrum, decode_paddedFlux, trim_paddedFlux]
  rfl

/-- The server writes a response and the client takes from it what it should. -/
def RoundTrip (lz4 : Lz4) (bzip2 : Bzip2) (r : Response) : Prop :=
  (streamImageSpectrum lz4 bzip2 r).bind (fetchImageSpectrum lz4 bzip2) = some r.content

theorem roundTrip_iff_fits (lz4 : Lz4) (bzip2 : Bzip2) (r : Response) :
    RoundTrip lz4 bzip2 r ↔ Fits lz4 r ∧ r.received = r.content := by
  rw [RoundTrip, Option.bind_eq_some_iff]
  constructor
  · rintro ⟨msg, hwrite, hparse⟩
    obtain ⟨hfits, rfl⟩ := streamImageSpectrum_eq_some.mp hwrite
    rw [fetchImageSpectrum_message bzip2 hfits] at hparse
    exact ⟨hfits, Option.some_inj.mp hparse⟩
  · rintro ⟨hfits, heq⟩
    refine ⟨_, streamImageSpectrum_eq_some.mpr ⟨hfits, rfl⟩, ?_⟩
    rw [fetchImageSpectrum_message bzip2 hfits, heq]

theorem received_eq_content_iff (r : Response) :
    r.received = r.content ↔
      ExactDouble r.minCount ∧ ExactDouble r.maxCount ∧
        (r.fetchData → AsciiButLast r.json ∧ AsciiButLast r.header ∧
          ∀ c ∈ r.spectrum, Ascii c) := by
  rw [← toDouble_eq_iff, ← toDouble_eq_iff, ← decode_cut_eq_iff, ← decode_cut_eq_iff,
    ← latin1_encode_eq_iff]
  by_cases hdata : r.fetchData <;>
    simp [Response.received, Response.content, hdata]

/-- The response survives exactly when everything fits its field, the counts are
doubles and the texts, when they are sent, are ASCII. The last character of a
text that announces its length may be the replacement character, because that is
what its first byte alone decodes to. -/
theorem roundTrip_iff (lz4 : Lz4) (bzip2 : Bzip2) (r : Response) :
    RoundTrip lz4 bzip2 r ↔
      Fits lz4 r ∧ ExactDouble r.minCount ∧ ExactDouble r.maxCount ∧
        (r.fetchData → AsciiButLast r.json ∧ AsciiButLast r.header ∧
          ∀ c ∈ r.spectrum, Ascii c) := by
  rw [roundTrip_iff_fits, received_eq_content_iff]

def Lz4.stored : Lz4 where
  compress := id
  decodeBlock bytes length := bytes.take length
  truncates _ _ := rfl

def accentedHeader : Response where
  flux := ['L', 'O', 'G']
  flux_ascii := by simp [Ascii]
  minCount := 1
  maxCount := 7
  imgWidth := 1
  imgHeight := 1
  compressedPixels := [0, 0, 0, 0]
  compressedMask := [1]
  fetchData := true
  json := ['{', '}']
  header := ['J', 'o', 's', Char.ofNat 0xE9, ' ', 'G']
  spectrum := ['[', ']']

theorem accentedHeader_not_roundTrip :
    ¬ RoundTrip Lz4.stored Bzip2.letters accentedHeader := by
  rw [roundTrip_iff_fits, received_eq_content_iff]
  rintro ⟨_, _, _, htexts⟩
  obtain ⟨_, hheader, _⟩ := htexts rfl
  -- the fourth character, with two more after it
  have haccent : Ascii (Char.ofNat 0xE9) := hheader.2.2.2.1
  exact absurd haccent (by decide)

end XWebQL.ImageResponse
