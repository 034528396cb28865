import XWebQL.ImageResponse

/-! The binary messages of a websocket session.
Every message begins with the time stamp and the number of its request, its kind and
the time that the answer took. The bodies are those of the responses: a view with its
mask, a compressed spectrum or a unit of the video. -/

namespace XWebQL.LiveMessages

open Utf8 DataView JsNumber Bzip2Compressor MaskCodec ImageResponse

structure Header where
  timestamp : UInt32
  seq_id : ℕ
  elapsed : UInt32

/-- The pixels come compressed from another library; the mask has one byte each. -/
structure View where
  dimx : ℕ
  dimy : ℕ
  pixels : List UInt8
  mask : List UInt8
  min_count : ℕ
  max_count : ℕ
  mask_bits : ∀ b ∈ mask, b = 0 ∨ b = 1

inductive Body where
  | spectrum (text : List Char)
  | viewport (view : View)
  | video (payload : List UInt8)
  | image (view : View)
  | fullSpectrum (text : List Char)

section Server

variable (codec : Codec)

def writeHeader (h : Header) (type : ℕ) : Option (List UInt8) := do
  let seq_id ← writeInt32 h.seq_id
  some (littleEndian 4 h.timestamp.toNat ++ seq_id ++ littleEndian 4 type ++
    littleEndian 4 h.elapsed.toNat)

/-- `view_resp` of `getViewportSpectrum`. -/
def writeView (v : View) : Option (List UInt8) := do
  let dimx ← writeInt32 v.dimx
  let dimy ← writeInt32 v.dimy
  let pixelsLen ← writeInt32 v.pixels.length
  let compressed_mask := codec.compress v.mask
  let maskLen ← writeInt32 compressed_mask.length
  let min_count ← writeUInt64 v.min_count
  let max_count ← writeUInt64 v.max_count
  some (dimx ++ dimy ++ pixelsLen ++ v.pixels ++ maskLen ++ compressed_mask ++ min_count ++
    max_count)

/-- `spec_resp` of `getViewportSpectrum`. -/
def writeSpectrum (text : List Char) : List UInt8 := codec.compress (encode text)

/-- A refresh of the whole image carries no number. -/
def write (h : Header) : Body → Option (List UInt8)
  | .spectrum text => do some ((← writeHeader h 0) ++ writeSpectrum codec text)
  | .viewport v => do
    let header ← writeHeader h 1
    some (header ++ (← writeView codec v))
  | .video payload => do some ((← writeHeader h 2) ++ payload)
  | .image v => do
    let header ← writeHeader { h with seq_id := 0 } 3
    some (header ++ (← writeView codec v))
  | .fullSpectrum text => do
    some ((← writeHeader { h with seq_id := 0 } 4) ++ writeSpectrum codec text)

end Server

section Client

variable (codec : Codec)

structure ReceivedView where
  width : ℕ
  height : ℕ
  pixels : List UInt8
  alpha : List UInt8
deriving DecidableEq

inductive Received where
  | spectrum (text : List Char)
  | viewport (view : ReceivedView)
  | video (frame : List UInt8)
  | image (view : ReceivedView) (min_count max_count : ℕ)
  | fullSpectrum (text : List Char)
deriving DecidableEq

def Received.type : Received → ℕ
  | .spectrum _ => 0
  | .viewport _ => 1
  | .video _ => 2
  | .image _ _ _ => 3
  | .fullSpectrum _ => 4

structure ViewParts where
  width : ℕ
  height : ℕ
  pixels : List UInt8
  mask : List UInt8
  offset : ℕ

def readView (msg : List UInt8) : Option ViewParts := do
  let width ← getUint32 msg 16
  let height ← getUint32 msg 20
  let pixels_length ← getUint32 msg 24
  let frame_pixels ← subarray msg 28 pixels_length
  let offset := 28 + pixels_length
  let mask_length ← getUint32 msg offset
  let frame_mask ← subarray msg (offset + 4) mask_length
  some ⟨width, height, frame_pixels, frame_mask, offset + 4 + mask_length⟩

/-- The mask is decoded after everything has been read. -/
def ViewParts.decoded (parts : ViewParts) : Option ReceivedView := do
  let uncompressed ← codec.simple parts.mask
  some ⟨parts.width, parts.height, parts.pixels, decodeMask uncompressed⟩

def receiveBody (msg : List UInt8) (type : ℕ) : Option Received :=
  if type = 0 then do
    let _ ← getUint32 msg 12
    let frame ← tailarray msg 16
    let uncompressed ← codec.simple frame
    some (.spectrum uncompressed)
  else if type = 1 then do
    let parts ← readView msg
    let view ← parts.decoded codec
    some (.viewport view)
  else if type = 2 then do
    let _ ← getUint32 msg 12
    let frame ← tailarray msg 16
    some (.video frame)
  else if type = 3 then do
    let parts ← readView msg
    let min_count ← getUint64 msg parts.offset
    let max_count ← getUint64 msg (parts.offset + 8)
    let view ← parts.decoded codec
    some (.image view min_count max_count)
  else if type = 4 then do
    let _ ← getUint32 msg 12
    let frame ← tailarray msg 16
    let uncompressed ← codec.simple frame
    some (.fullSpectrum uncompressed)
  else none

/-- The `message` listener: the time stamp, `recv_seq_id` and the body. -/
def receive (msg : List UInt8) : Option (ℕ × ℕ × Received) := do
  let timestamp ← getUint32 msg 0
  let recv_seq_id ← getUint32 msg 4
  let type ← getUint32 msg 8
  let body ← receiveBody codec msg type
  some (timestamp, recv_seq_id, body)

end Client

section RoundTrip

variable (codec : Codec)

def Body.seqId (seq_id : ℕ) : Body → ℕ
  | .image _ => 0
  | .fullSpectrum _ => 0
  | _ => seq_id

def View.alpha (v : View) : List UInt8 := if v.mask = [] then [] else 0 :: v.mask

def View.received (v : View) : ReceivedView := ⟨v.dimx, v.dimy, v.pixels, v.alpha⟩

def Body.received : Body → Received
  | .spectrum text => .spectrum (latin1 (encode text))
  | .viewport v => .viewport v.received
  | .video payload => .video payload
  | .image v => .image v.received (toDouble v.min_count) (toDouble v.max_count)
  | .fullSpectrum text => .fullSpectrum (latin1 (encode text))

structure View.Fits (v : View) : Prop where
  dimx : v.dimx < 2 ^ 31
  dimy : v.dimy < 2 ^ 31
  pixels : v.pixels.length < 2 ^ 31
  mask : (codec.compress v.mask).length < 2 ^ 31
  min_count : v.min_count < 2 ^ 64
  max_count : v.max_count < 2 ^ 64

def Body.Fits : Body → Prop
  | .viewport v => v.Fits codec
  | .image v => v.Fits codec
  | _ => True

def Body.Restored : Body → Prop
  | .spectrum text => codec.Restores (encode text)
  | .viewport v => codec.Restores v.mask
  | .video _ => True
  | .image v => codec.Restores v.mask
  | .fullSpectrum text => codec.Restores (encode text)

def Body.type : Body → ℕ
  | .spectrum _ => 0
  | .viewport _ => 1
  | .video _ => 2
  | .image _ => 3
  | .fullSpectrum _ => 4

def viewBytes (v : View) : List UInt8 :=
  littleEndian 4 v.dimx ++ (littleEndian 4 v.dimy ++ (littleEndian 4 v.pixels.length ++
    (v.pixels ++ (littleEndian 4 (codec.compress v.mask).length ++ (codec.compress v.mask ++
      (littleEndian 8 v.min_count ++ littleEndian 8 v.max_count))))))

def bodyBytes : Body → List UInt8
  | .spectrum text => writeSpectrum codec text
  | .viewport v => viewBytes codec v
  | .video payload => payload
  | .image v => viewBytes codec v
  | .fullSpectrum text => writeSpectrum codec text

def message (h : Header) (body : Body) : List UInt8 :=
  littleEndian 4 h.timestamp.toNat ++ (littleEndian 4 (body.seqId h.seq_id) ++
    (littleEndian 4 body.type ++ (littleEndian 4 h.elapsed.toNat ++ bodyBytes codec body)))

variable {codec} {h : Header} {body : Body} {v : View} {bytes msg : List UInt8} {type : ℕ}

theorem writeHeader_eq_some : writeHeader h type = some bytes ↔ h.seq_id < 2 ^ 31 ∧
    littleEndian 4 h.timestamp.toNat ++ littleEndian 4 h.seq_id ++ littleEndian 4 type ++
      littleEndian 4 h.elapsed.toNat = bytes := by
  simp only [writeHeader, Option.bind_eq_bind, Option.bind_eq_some_iff, writeInt32_eq_some,
    Option.some_inj]
  grind

theorem writeView_eq_some :
    writeView codec v = some bytes ↔ v.Fits codec ∧ viewBytes codec v = bytes := by
  simp only [writeView, Option.bind_eq_bind, Option.bind_eq_some_iff, writeInt32_eq_some,
    writeUInt64_eq_some, Option.some_inj]
  constructor
  · rintro ⟨_, ⟨hdimx, rfl⟩, _, ⟨hdimy, rfl⟩, _, ⟨hpixels, rfl⟩, _, ⟨hmask, rfl⟩, _, ⟨hmin, rfl⟩,
      _, ⟨hmax, rfl⟩, rfl⟩
    exact ⟨⟨hdimx, hdimy, hpixels, hmask, hmin, hmax⟩, by simp only [viewBytes, List.append_assoc]⟩
  · rintro ⟨hfits, rfl⟩
    exact ⟨_, ⟨hfits.dimx, rfl⟩, _, ⟨hfits.dimy, rfl⟩, _, ⟨hfits.pixels, rfl⟩, _, ⟨hfits.mask, rfl⟩,
      _, ⟨hfits.min_count, rfl⟩, _, ⟨hfits.max_count, rfl⟩,
      by simp only [viewBytes, List.append_assoc]⟩

theorem message_eq : message codec h body =
    (littleEndian 4 h.timestamp.toNat ++ littleEndian 4 (body.seqId h.seq_id) ++
      littleEndian 4 body.type ++ littleEndian 4 h.elapsed.toNat) ++ bodyBytes codec body := by
  simp only [message, List.append_assoc]

theorem write_eq_some : write codec h body = some bytes ↔
    (body.seqId h.seq_id < 2 ^ 31 ∧ body.Fits codec) ∧ message codec h body = bytes := by
  rw [message_eq]
  cases body <;>
    simp [write, Option.bind_eq_some_iff, writeHeader_eq_some, writeView_eq_some, Body.seqId,
      Body.type, Body.Fits, bodyBytes, and_assoc]

theorem readView_eq (hfits : v.Fits codec)
    (hat : Rest msg 16 (viewBytes codec v)) :
    ∃ offset, readView msg =
        some ⟨v.dimx, v.dimy, v.pixels, codec.compress v.mask, offset⟩ ∧
      Rest msg offset (littleEndian 8 v.min_count ++ littleEndian 8 v.max_count) := by
  have hdimx := hfits.dimx
  have hdimy := hfits.dimy
  have hpixels := hfits.pixels
  have hmask := hfits.mask
  rw [viewBytes] at hat
  have atHeight := hat.skipWord
  have atPixelsLength := atHeight.skipWord
  have atPixels := atPixelsLength.skipWord
  have atMaskLength := atPixels.skip
  have atMask := atMaskLength.skipWord
  refine ⟨_, ?_, atMask.skip⟩
  rw [readView]
  refine Option.bind_eq_some_iff.mpr ⟨_, hat.getUint32 (by omega), ?_⟩
  refine Option.bind_eq_some_iff.mpr ⟨_, atHeight.getUint32 (by omega), ?_⟩
  refine Option.bind_eq_some_iff.mpr ⟨_, atPixelsLength.getUint32 (by omega), ?_⟩
  refine Option.bind_eq_some_iff.mpr ⟨_, atPixels.subarray, ?_⟩
  refine Option.bind_eq_some_iff.mpr ⟨_, atMaskLength.getUint32 (by omega), ?_⟩
  exact Option.bind_eq_some_iff.mpr ⟨_, atMask.subarray, rfl⟩

theorem decoded_eq {v : View} (hmask : codec.Restores v.mask) (offset : ℕ) :
    ViewParts.decoded codec ⟨v.dimx, v.dimy, v.pixels, codec.compress v.mask, offset⟩ =
      some v.received := by
  have halpha : decodeMask (latin1 v.mask) = v.alpha := by
    rw [View.alpha]
    split_ifs with hempty
    · rw [hempty]
      rfl
    · exact decodeMask_bits v.mask_bits hempty
  rw [Codec.Restores] at hmask
  rw [ViewParts.decoded, hmask]
  simp only [Option.bind_eq_bind, Option.bind_some, halpha, View.received]

theorem receiveBody_eq (hfits : body.Fits codec) (hrestored : body.Restored codec)
    {elapsed : UInt32} (hat : Rest msg 12 (littleEndian 4 elapsed.toNat ++ bodyBytes codec body)) :
    receiveBody codec msg body.type = some body.received := by
  have helapsed := hat.getUint32 elapsed.toNat_lt
  have hbody := hat.skipWord
  cases body with
  | spectrum text =>
    rw [Body.Restored, Codec.Restores] at hrestored
    simp [receiveBody, Body.type, helapsed, hbody.tailarray, bodyBytes, writeSpectrum, hrestored,
      Body.received]
  | viewport v =>
    obtain ⟨offset, hview, -⟩ := readView_eq hfits hbody
    simp [receiveBody, Body.type, hview, decoded_eq hrestored, Body.received]
  | video payload =>
    simp [receiveBody, Body.type, helapsed, hbody.tailarray, bodyBytes, Body.received]
  | image v =>
    obtain ⟨offset, hview, hcounts⟩ := readView_eq hfits hbody
    have hmin := hcounts.getUint64 hfits.min_count
    have hmax := (List.append_nil (littleEndian 8 v.max_count) ▸ hcounts.skipWord).getUint64
      hfits.max_count
    simp [receiveBody, Body.type, hview, hmin, hmax, decoded_eq hrestored, Body.received]
  | fullSpectrum text =>
    rw [Body.Restored, Codec.Restores] at hrestored
    simp [receiveBody, Body.type, helapsed, hbody.tailarray, bodyBytes, writeSpectrum, hrestored,
      Body.received]

/-- A text that is received as it was sent has been given back by the decoder. -/
theorem restores_of_receiveBody {text : List Char} {elapsed : UInt32}
    (hat : Rest msg 12 (littleEndian 4 elapsed.toNat ++ codec.compress (encode text)))
    (h : receiveBody codec msg 0 = some (.spectrum (latin1 (encode text))) ∨
      receiveBody codec msg 4 = some (.fullSpectrum (latin1 (encode text)))) :
    codec.Restores (encode text) := by
  have helapsed := hat.getUint32 elapsed.toNat_lt
  have hbody := hat.skipWord
  simpa [receiveBody, helapsed, hbody.tailarray, Codec.Restores, Option.bind_eq_some_iff] using h

theorem receiveBody_type {r : Received} (h : receiveBody codec msg type = some r) :
    r.type = type := by
  simp only [receiveBody, Option.bind_eq_bind] at h
  split_ifs at h with h0 h1 h2 h3 h4 <;>
    simp only [Option.bind_eq_some_iff, Option.some_inj] at h <;> grind [Received.type]

theorem type_lt (body : Body) : body.type < 2 ^ 32 := by
  cases body <;> simp [Body.type]

theorem body_at (codec : Codec) (h : Header) (body : Body) : Rest (message codec h body) 12
    (littleEndian 4 h.elapsed.toNat ++ bodyBytes codec body) := by
  have hat := Rest.start (message codec h body)
  rw [message] at hat
  exact hat.skipWord.skipWord.skipWord

theorem receive_message_eq (hseq : body.seqId h.seq_id < 2 ^ 31) :
    receive codec (message codec h body) =
      (receiveBody codec (message codec h body) body.type).map fun r =>
        (h.timestamp.toNat, body.seqId h.seq_id, r) := by
  have hat := Rest.start (message codec h body)
  rw [message] at hat
  have atSeq := hat.skipWord
  have atType := atSeq.skipWord
  rw [receive, message, hat.getUint32 h.timestamp.toNat_lt, atSeq.getUint32 (by omega),
    atType.getUint32 (type_lt body)]
  simp only [Option.bind_eq_bind, Option.bind_some]
  exact Option.map_eq_bind.symm

theorem receive_message (hseq : body.seqId h.seq_id < 2 ^ 31) (hfits : body.Fits codec)
    (hrestored : body.Restored codec) :
    receive codec (message codec h body) =
      some (h.timestamp.toNat, body.seqId h.seq_id, body.received) := by
  rw [receive_message_eq hseq, receiveBody_eq hfits hrestored (body_at codec h body),
    Option.map_some]

theorem receive_of_write (hrestored : body.Restored codec)
    (hwrite : write codec h body = some bytes) :
    receive codec bytes = some (h.timestamp.toNat, body.seqId h.seq_id, body.received) := by
  obtain ⟨⟨hseq, hfits⟩, rfl⟩ := write_eq_some.mp hwrite
  exact receive_message hseq hfits hrestored

theorem type_of_receive {r : ℕ × ℕ × Received} (hwrite : write codec h body = some bytes)
    (hread : receive codec bytes = some r) :
    r.2.1 = body.seqId h.seq_id ∧ r.2.2.type = body.type := by
  obtain ⟨⟨hseq, -⟩, rfl⟩ := write_eq_some.mp hwrite
  rw [receive_message_eq hseq, Option.map_eq_some_iff] at hread
  obtain ⟨received, hbody, rfl⟩ := hread
  exact ⟨rfl, receiveBody_type hbody⟩

theorem type_received (body : Body) : body.received.type = body.type := by
  cases body <;> rfl

def Body.Whole (c : Compressor) : Body → Prop
  | .spectrum text => ∀ piece ∈ c.pieces (encode text), minusOne (latin1 piece) = false
  | .fullSpectrum text => ∀ piece ∈ c.pieces (encode text), minusOne (latin1 piece) = false
  | _ => True

section Decoder

variable {c : Compressor} (hreadable : ∀ bytes, (c.archive bytes).Readable)
include hreadable

/-- Masks are always given back, texts exactly when no block of theirs is the sentinel. -/
theorem restored_of_whole (hwhole : body.Whole c) : body.Restored c.codec := by
  cases body with
  | spectrum text => exact (restores_iff c (hreadable _)).mpr hwhole
  | viewport v => exact restores_bits c (hreadable _) v.mask_bits
  | video payload => trivial
  | image v => exact restores_bits c (hreadable _) v.mask_bits
  | fullSpectrum text => exact (restores_iff c (hreadable _)).mpr hwhole

theorem whole_of_receive (hseq : body.seqId h.seq_id < 2 ^ 31)
    (hread : receive c.codec (message c.codec h body) =
      some (h.timestamp.toNat, body.seqId h.seq_id, body.received)) : body.Whole c := by
  rw [receive_message_eq hseq, Option.map_eq_some_iff] at hread
  obtain ⟨received, hbody, heq⟩ := hread
  obtain rfl : received = body.received := (Prod.mk.inj (Prod.mk.inj heq).2).2
  cases body with
  | spectrum text =>
    exact (restores_iff c (hreadable _)).mp
      (restores_of_receiveBody (body_at c.codec h (.spectrum text)) (.inl hbody))
  | fullSpectrum text =>
    exact (restores_iff c (hreadable _)).mp
      (restores_of_receiveBody (body_at c.codec h (.fullSpectrum text)) (.inr hbody))
  | viewport | video | image => trivial

end Decoder

/-- The client reads what the server has written: the time stamp, the number and the
body, with a zero in front of a mask. The server writes all that fits, and the client's
decoder gives back all texts but those with the sentinel. -/
theorem receive_write_iff {c : Compressor} (hreadable : ∀ bytes, (c.archive bytes).Readable)
    (h : Header) (body : Body) :
    (write c.codec h body).bind (receive c.codec) =
        some (h.timestamp.toNat, body.seqId h.seq_id, body.received) ↔
      body.seqId h.seq_id < 2 ^ 31 ∧ body.Fits c.codec ∧ body.Whole c := by
  rw [Option.bind_eq_some_iff]
  constructor
  · rintro ⟨bytes, hwrite, hread⟩
    obtain ⟨⟨hseq, hfits⟩, rfl⟩ := write_eq_some.mp hwrite
    exact ⟨hseq, hfits, whole_of_receive hreadable hseq hread⟩
  · rintro ⟨hseq, hfits, hwhole⟩
    exact ⟨_, write_eq_some.mpr ⟨⟨hseq, hfits⟩, rfl⟩,
      receive_message hseq hfits (restored_of_whole hreadable hwhole)⟩

/-- The text "-1" in two blocks arrives. -/
theorem receive_write_iff_letters :
    (write letters.codec ⟨0, 1, 0⟩ (.spectrum ['-', '1'])).bind (receive letters.codec) =
      some (0, 1, .spectrum ['-', '1']) :=
  (receive_write_iff readable_letters ⟨0, 1, 0⟩ (.spectrum ['-', '1'])).mpr
    ⟨by decide, trivial, minusOne_letters _⟩

end RoundTrip

end XWebQL.LiveMessages
