import Mathlib.Data.List.Basic
import Mathlib.Data.Nat.Notation

/-! The message handler of `video_worker.js`.
A video session begins with `init_video`. The frames before the first keyframe
wait in a buffer and go to the decoder with it, in one chunk. The decoder is there
when the next message is handled. `init_video` does not clear the buffer. -/

namespace XWebQL.VideoWorker

/-- The bytes of a `video` message. -/
abbrev Frame := List UInt8

section Bytes

/-- A byte after the end is `undefined`, which is no 1 and otherwise works as 0. -/
def byteAt (buffer_ptr : List UInt8) (i : ℕ) : UInt8 := buffer_ptr.getD i 0

def isNalUnitStart (buffer_ptr : List UInt8) : Bool :=
  byteAt buffer_ptr 0 == 0 && byteAt buffer_ptr 1 == 0 && byteAt buffer_ptr 2 == 0 &&
    byteAt buffer_ptr 3 == 1

def isNalUnitStart1 (buffer_ptr : List UInt8) : Bool :=
  byteAt buffer_ptr 0 == 0 && byteAt buffer_ptr 1 == 0 && byteAt buffer_ptr 2 == 1

def getH265NalUnitType (byte : UInt8) : UInt8 := (byte &&& 0x7E) >>> 1

/-- `merged_buffer.set(frame, offset)` -/
def setBytes (buffer frame : List UInt8) (offset : ℕ) : List UInt8 :=
  buffer.take offset ++ frame ++ buffer.drop (offset + frame.length)

def copyFrame (merged : List UInt8 × ℕ) (frame : Frame) : List UInt8 × ℕ :=
  (setBytes merged.1 frame merged.2, merged.2 + frame.length)

def mergeFrames (frame_buffer : List Frame) : List UInt8 :=
  let frame_buffer_size := frame_buffer.foldl (fun acc cur => acc + cur.length) 0
  (frame_buffer.foldl copyFrame (List.replicate frame_buffer_size 0, 0)).1

theorem foldl_length (frames : List Frame) (n : ℕ) :
    frames.foldl (fun acc cur => acc + cur.length) n = n + frames.flatten.length := by
  induction frames generalizing n with
  | nil => rfl
  | cons frame frames ih =>
    rw [List.foldl_cons, ih, List.flatten_cons, List.length_append, Nat.add_assoc]

theorem foldl_copyFrame (frames : List Frame) (copied : List UInt8) :
    frames.foldl copyFrame
        (copied ++ List.replicate frames.flatten.length 0, copied.length) =
      (copied ++ frames.flatten, (copied ++ frames.flatten).length) := by
  induction frames generalizing copied with
  | nil => simp
  | cons frame frames ih =>
    have hset : setBytes (copied ++ List.replicate (frame :: frames).flatten.length 0) frame
        copied.length = (copied ++ frame) ++ List.replicate frames.flatten.length 0 := by
      rw [setBytes, List.take_left, List.drop_append, List.flatten_cons, List.length_append]
      simp
    rw [List.foldl_cons, copyFrame, hset, ← List.length_append, ih, List.flatten_cons,
      List.append_assoc]

theorem mergeFrames_eq (frames : List Frame) : mergeFrames frames = frames.flatten := by
  have hcopy := foldl_copyFrame frames []
  rw [List.nil_append, List.length_nil, List.nil_append] at hcopy
  rw [mergeFrames, foldl_length, Nat.zero_add, hcopy]

end Bytes

inductive ChunkType
  | key | delta
deriving DecidableEq, Repr

structure EncodedVideoChunk where
  data : List UInt8
  timestamp : ℕ
  type : ChunkType
deriving DecidableEq, Repr

inductive Message
  | init_video (width height : ℕ)
  | end_video
  | video (frame : Frame)

structure Decoder where
  codedWidth : ℕ
  codedHeight : ℕ
  closed : Bool

structure State where
  timestamp : ℕ
  first : Bool
  frame_buffer : List Frame
  decoder : Option Decoder

def State.start : State := ⟨0, true, [], none⟩

def frameType (frame : Frame) : ChunkType :=
  let nal_start := if isNalUnitStart1 frame then 3 else if isNalUnitStart frame then 4 else 0
  let nal_type := getH265NalUnitType (byteAt frame nal_start)
  if nal_type = 19 ∨ nal_type = 20 then .key else .delta

/-- The chunk is passed to `decode` also where it throws, unless there is no decoder. -/
def decode (decoder : Option Decoder) (chunk : EncodedVideoChunk) : List EncodedVideoChunk :=
  if decoder.isSome then [chunk] else []

/-- The variables after a message, and the chunks that were passed to `decode`. -/
def handle (s : State) : Message → State × List EncodedVideoChunk
  | .init_video width height =>
    ({ s with timestamp := 0, first := true, decoder := some ⟨width, height, false⟩ }, [])
  | .end_video => ({ s with decoder := s.decoder.map fun d => { d with closed := true } }, [])
  | .video frame =>
    let type := frameType frame
    if s.first then
      let frame_buffer := s.frame_buffer ++ [frame]
      if type = .key then
        ({ s with first := false, frame_buffer := [], timestamp := s.timestamp + 1 },
          decode s.decoder ⟨mergeFrames frame_buffer, s.timestamp, .key⟩)
      else ({ s with frame_buffer := frame_buffer }, [])
    else ({ s with timestamp := s.timestamp + 1 }, decode s.decoder ⟨frame, s.timestamp, type⟩)

def run : State → List Message → State × List EncodedVideoChunk
  | s, [] => (s, [])
  | s, message :: messages =>
    ((run (handle s message).1 messages).1,
      (handle s message).2 ++ (run (handle s message).1 messages).2)

theorem run_append (s : State) (first last : List Message) :
    run s (first ++ last) =
      ((run (run s first).1 last).1, (run s first).2 ++ (run (run s first).1 last).2) := by
  induction first generalizing s with
  | nil => rfl
  | cons message first ih => rw [List.cons_append, run, run, ih, List.append_assoc]

section Session

def frameOf : Message → Option Frame
  | .video frame => some frame
  | _ => none

def frames (messages : List Message) : List Frame := messages.filterMap frameOf

def isInit : Message → Bool
  | .init_video _ _ => true
  | _ => false

/-- The messages after an `init_video` and before the next one. -/
def Session (messages : List Message) : Prop := ∀ message ∈ messages, isInit message = false

def laterChunks : ℕ → List Frame → List EncodedVideoChunk
  | _, [] => []
  | timestamp, frame :: frames =>
    ⟨frame, timestamp, frameType frame⟩ :: laterChunks (timestamp + 1) frames

def sessionChunks : List Frame → List Frame → List EncodedVideoChunk
  | _, [] => []
  | waiting, frame :: frames =>
    if frameType frame = .key then
      ⟨(waiting ++ [frame]).flatten, 0, .key⟩ :: laterChunks 1 frames
    else sessionChunks (waiting ++ [frame]) frames

variable {s : State} {messages session : List Message}

theorem decoder_handle (hs : s.decoder.isSome) (message : Message) :
    (handle s message).1.decoder.isSome := by
  cases message with
  | init_video width height => rfl
  | end_video => simpa [handle] using hs
  | video frame =>
    rw [handle]
    dsimp only
    split_ifs <;> exact hs

theorem run_later (hsession : Session session) (hdecoder : s.decoder.isSome)
    (hfirst : s.first = false) : (run s session).2 = laterChunks s.timestamp (frames session) := by
  induction session generalizing s with
  | nil => rfl
  | cons message session ih =>
    have hrest : Session session := fun m hm => hsession m (List.mem_cons_of_mem _ hm)
    have hnext := decoder_handle hdecoder message
    cases message with
    | init_video width height => cases hsession _ List.mem_cons_self
    | end_video => exact ih hrest hnext hfirst
    | video frame =>
      have hhandle : handle s (.video frame) =
          ({ s with timestamp := s.timestamp + 1 }, [⟨frame, s.timestamp, frameType frame⟩]) := by
        rw [handle, hfirst, decode, if_pos hdecoder]
        rfl
      rw [run, hhandle]
      rw [hhandle] at hnext
      exact congrArg _ (ih hrest hnext hfirst)

theorem run_session (hsession : Session session) (hdecoder : s.decoder.isSome)
    (hfirst : s.first = true) (htimestamp : s.timestamp = 0) :
    (run s session).2 = sessionChunks s.frame_buffer (frames session) := by
  induction session generalizing s with
  | nil => rfl
  | cons message session ih =>
    have hrest : Session session := fun m hm => hsession m (List.mem_cons_of_mem _ hm)
    have hnext := decoder_handle hdecoder message
    cases message with
    | init_video width height => cases hsession _ List.mem_cons_self
    | end_video => exact ih hrest hnext hfirst htimestamp
    | video frame =>
      by_cases hkey : frameType frame = .key
      · have hhandle : handle s (.video frame) =
            ({ s with first := false, frame_buffer := [], timestamp := 1 },
              [⟨(s.frame_buffer ++ [frame]).flatten, 0, .key⟩]) := by
          simp only [handle, hfirst, htimestamp, hkey, decode, hdecoder, mergeFrames_eq, if_true]
        rw [run, hhandle]
        rw [hhandle] at hnext
        have hlater := run_later hrest hnext rfl
        have hframes : frames (.video frame :: session) = frame :: frames session := rfl
        rw [hframes, sessionChunks, if_pos hkey, hlater]
        rfl
      · have hhandle : handle s (.video frame) =
            ({ s with frame_buffer := s.frame_buffer ++ [frame] }, []) := by
          simp only [handle, hfirst, hkey, if_true, if_false]
        have hframes : frames (.video frame :: session) = frame :: frames session := rfl
        rw [run, hhandle]
        rw [hhandle] at hnext
        rw [hframes, sessionChunks, if_neg hkey, List.nil_append]
        exact ih hrest hnext hfirst htimestamp

end Session

section Waiting

/-- The frames of each session so far, the last one first. What comes before any `init_video`
counts as a session too. -/
def receive : List (List Frame) → Message → List (List Frame)
  | sessions, .init_video _ _ => [] :: sessions
  | session :: sessions, .video frame => (session ++ [frame]) :: sessions
  | sessions, _ => sessions

def sessions (messages : List Message) : List (List Frame) := messages.foldl receive [[]]

def noKeyframe (frames : List Frame) : Bool := frames.all fun frame => frameType frame ≠ .key

/-- The frames since the last session with a keyframe. -/
def waiting (sessions : List (List Frame)) : List Frame :=
  (sessions.takeWhile noKeyframe).reverse.flatten

def Buffered (s : State) (sessions : List (List Frame)) : Prop :=
  ∃ session earlier, sessions = session :: earlier ∧ s.first = noKeyframe session ∧
    s.frame_buffer = waiting sessions

theorem noKeyframe_concat (frames : List Frame) (frame : Frame) :
    noKeyframe (frames ++ [frame]) = (noKeyframe frames && decide (frameType frame ≠ .key)) := by
  rw [noKeyframe, List.all_append, List.all_cons, List.all_nil, Bool.and_true]
  rfl

theorem waiting_of_keyframe {session : List Frame} (h : noKeyframe session = false)
    (earlier : List (List Frame)) : waiting (session :: earlier) = [] := by
  rw [waiting, List.takeWhile_cons_of_neg (by rw [h]; exact Bool.false_ne_true)]
  rfl

theorem waiting_of_noKeyframe {session : List Frame} (h : noKeyframe session = true)
    (earlier : List (List Frame)) :
    waiting (session :: earlier) = waiting earlier ++ session := by
  rw [waiting, List.takeWhile_cons_of_pos h, List.reverse_cons, List.flatten_append,
    List.flatten_singleton, waiting]

theorem buffered_handle {s : State} {sessions : List (List Frame)} (h : Buffered s sessions)
    (message : Message) : Buffered (handle s message).1 (receive sessions message) := by
  obtain ⟨session, earlier, rfl, hfirst, hbuffer⟩ := h
  cases message with
  | init_video width height =>
    refine ⟨[], session :: earlier, rfl, rfl, ?_⟩
    rw [receive, waiting_of_noKeyframe rfl, List.append_nil]
    exact hbuffer
  | end_video => exact ⟨session, earlier, rfl, hfirst, hbuffer⟩
  | video frame =>
    refine ⟨session ++ [frame], earlier, rfl, ?_⟩
    have hsession := noKeyframe_concat session frame
    rw [receive]
    cases hflag : noKeyframe session with
    | false =>
      -- the keyframe has come: the buffer is empty and stays so
      rw [hflag, Bool.false_and] at hsession
      rw [waiting_of_keyframe hflag] at hbuffer
      rw [hflag] at hfirst
      simp only [handle, hfirst, hsession, waiting_of_keyframe hsession, hbuffer,
        Bool.false_eq_true, if_false, and_self]
    | true =>
      rw [hflag, Bool.true_and] at hsession
      rw [waiting_of_noKeyframe hflag] at hbuffer
      rw [hflag] at hfirst
      by_cases hkey : frameType frame = .key
      · rw [decide_eq_false (not_not.mpr hkey)] at hsession
        simp only [handle, hfirst, hkey, hsession, waiting_of_keyframe hsession, if_true, and_self]
      · rw [decide_eq_true hkey] at hsession
        simp only [handle, hfirst, hkey, hsession, waiting_of_noKeyframe hsession, hbuffer, if_true,
          if_false, List.append_assoc, and_self]

theorem buffered_run {s : State} {sessions : List (List Frame)} (h : Buffered s sessions)
    (messages : List Message) : Buffered (run s messages).1 (messages.foldl receive sessions) := by
  induction messages generalizing s sessions with
  | nil => exact h
  | cons message messages ih => exact ih (buffered_handle h message)

theorem frame_buffer_run (messages : List Message) :
    (run .start messages).1.frame_buffer = waiting (sessions messages) := by
  have hstart : Buffered .start [[]] := ⟨[], [], rfl, rfl, rfl⟩
  obtain ⟨session, earlier, -, -, hbuffer⟩ := buffered_run hstart messages
  exact hbuffer

end Waiting

section Isolation

theorem map_data_laterChunks (timestamp : ℕ) (frames : List Frame) :
    (laterChunks timestamp frames).map EncodedVideoChunk.data = frames := by
  induction frames generalizing timestamp with
  | nil => rfl
  | cons frame frames ih => rw [laterChunks, List.map_cons, ih]

theorem map_timestamp_laterChunks (timestamp : ℕ) (frames : List Frame) :
    (laterChunks timestamp frames).map EncodedVideoChunk.timestamp =
      List.range' timestamp frames.length := by
  induction frames generalizing timestamp with
  | nil => rfl
  | cons frame frames ih => rw [laterChunks, List.map_cons, ih, List.length_cons, List.range'_succ]

variable {stale frames : List Frame}

/-- Without a keyframe nothing is decoded. The first one goes with all that waits. -/
theorem sessionChunks_cases (stale frames : List Frame) :
    (sessionChunks stale frames = [] ∧ ∀ frame ∈ frames, frameType frame ≠ .key) ∨
      ∃ first last, frames = first ++ last ∧ (∃ frame ∈ frames, frameType frame = .key) ∧
        sessionChunks stale frames =
          ⟨(stale ++ first).flatten, 0, .key⟩ :: laterChunks 1 last := by
  induction frames generalizing stale with
  | nil => exact .inl ⟨rfl, List.forall_mem_nil _⟩
  | cons frame frames ih =>
    rw [sessionChunks]
    by_cases hkey : frameType frame = .key
    · right
      rw [if_pos hkey]
      exact ⟨[frame], frames, rfl, ⟨frame, List.mem_cons_self, hkey⟩, rfl⟩
    · rw [if_neg hkey]
      cases ih (stale ++ [frame]) with
      | inl hnone => exact .inl ⟨hnone.1, List.forall_mem_cons.mpr ⟨hkey, hnone.2⟩⟩
      | inr hsome =>
        obtain ⟨first, last, rfl, ⟨key, hmem, htype⟩, hchunks⟩ := hsome
        refine .inr ⟨frame :: first, last, rfl, ⟨key, List.mem_cons_of_mem _ hmem, htype⟩, ?_⟩
        rw [hchunks, List.append_assoc, List.singleton_append]

/-- The chunks are made of the frames alone, of each of them once and in their order; the first
one is a keyframe, and they are numbered. -/
structure SessionRight (frames : List Frame) (chunks : List EncodedVideoChunk) : Prop where
  data : chunks = [] ∨ ∃ groups : List (List Frame), groups.flatten = frames ∧
    chunks.map EncodedVideoChunk.data = groups.map List.flatten
  first_key : ∀ chunk ∈ chunks.head?, chunk.type = .key
  timestamps : chunks.map EncodedVideoChunk.timestamp = List.range chunks.length

/-- A session decodes only its own frames, unless other bytes wait for its first keyframe. -/
theorem sessionRight_iff : SessionRight frames (sessionChunks stale frames) ↔
    ((∃ frame ∈ frames, frameType frame = .key) → stale.flatten = []) := by
  rcases sessionChunks_cases stale frames with ⟨hchunks, hnone⟩ | ⟨first, last, rfl, hkey, hchunks⟩
  · rw [hchunks]
    refine iff_of_true ⟨.inl rfl, fun chunk hchunk => ?_, rfl⟩ ?_
    · cases hchunk
    · rintro ⟨frame, hmem, hkey⟩
      exact absurd hkey (hnone frame hmem)
  · have hdata : (sessionChunks stale (first ++ last)).map EncodedVideoChunk.data =
        (stale ++ first).flatten :: last := by
      rw [hchunks, List.map_cons, map_data_laterChunks]
    constructor
    · intro hright _
      cases hright.data with
      | inl hnil => rw [hnil] at hchunks; cases hchunks
      | inr hgroups =>
        obtain ⟨groups, hflatten, hgroups⟩ := hgroups
        -- both sides hold the bytes of the frames, one of them those that waited too
        have hbytes : ((stale ++ first).flatten :: last).flatten = (first ++ last).flatten := by
          rw [← hdata, hgroups, ← hflatten, List.flatten_flatten]
        have hlength := congrArg List.length hbytes
        simp only [List.flatten_cons, List.flatten_append, List.length_append] at hlength
        exact List.length_eq_zero_iff.mp (by omega)
    · intro hempty
      have hstale := hempty hkey
      refine ⟨.inr ⟨first :: last.map fun frame => [frame], ?_, ?_⟩, ?_, ?_⟩
      · rw [List.flatten_cons, ← List.flatMap_def, List.flatMap_singleton']
      · rw [hdata, List.flatten_append, hstale, List.nil_append]
        simp [Function.comp_def]
      · rw [hchunks]
        rintro chunk ⟨⟩
        rfl
      · rw [hchunks, List.map_cons, map_timestamp_laterChunks, List.length_cons,
          ← List.length_map EncodedVideoChunk.data, map_data_laterChunks, List.range_eq_range',
          List.range'_succ]

/-- What the session after `before` passes to `decode`. -/
def decoded (before : List Message) (width height : ℕ) (session : List Message) :
    List EncodedVideoChunk :=
  (run (handle (run .start before).1 (.init_video width height)).1 session).2

/-- In each session, as far as it has come, only frames of this session are decoded. -/
def Isolated (messages : List Message) : Prop :=
  ∀ before width height session rest,
    messages = before ++ .init_video width height :: (session ++ rest) → Session session →
      SessionRight (VideoWorker.frames session) (decoded before width height session)

def Drained (messages : List Message) : Prop :=
  ∀ before width height session rest,
    messages = before ++ .init_video width height :: (session ++ rest) → Session session →
      (∃ frame ∈ VideoWorker.frames session, frameType frame = .key) →
        (waiting (sessions before)).flatten = []

theorem run_decoded (before : List Message) (width height : ℕ) (session rest : List Message) :
    ∃ first last, (run .start (before ++ .init_video width height :: (session ++ rest))).2 =
      first ++ decoded before width height session ++ last := by
  refine ⟨(run .start before).2,
    (run (run (handle (run .start before).1 (.init_video width height)).1 session).1 rest).2, ?_⟩
  rw [run_append, run, run_append, List.append_assoc]
  rfl

theorem decoded_eq {session : List Message} (before : List Message) (width height : ℕ)
    (hsession : Session session) : decoded before width height session =
      sessionChunks (waiting (sessions before)) (VideoWorker.frames session) := by
  rw [← frame_buffer_run]
  exact run_session hsession rfl rfl rfl

theorem drained_of_isolated {messages : List Message} (hisolated : Isolated messages) :
    Drained messages := by
  intro before width height session rest hsplit hsession
  rw [← sessionRight_iff, ← decoded_eq before width height hsession]
  exact hisolated before width height session rest hsplit hsession

/-- The sessions are isolated exactly when nothing waits for the keyframe of a later one. -/
theorem isolated_iff (messages : List Message) : Isolated messages ↔ Drained messages := by
  refine ⟨drained_of_isolated, ?_⟩
  intro hdrained before width height session rest hsplit hsession
  rw [decoded_eq before width height hsession, sessionRight_iff]
  exact hdrained before width height session rest hsplit hsession

/-- A session that ends before its first keyframe leaves its frame to the next one. -/
theorem sessions_mixed : ¬∀ messages, Isolated messages := by
  intro hall
  have hdrained := drained_of_isolated (hall ([.init_video 1 1, .video [0, 0, 1, 2], .end_video] ++
    .init_video 1 1 :: ([.video [0, 0, 1, 38]] ++ [])))
  have hsession : Session [.video [0, 0, 1, 38]] := List.forall_mem_singleton.mpr rfl
  have hempty := hdrained _ 1 1 _ _ rfl hsession (by decide)
  exact absurd hempty (by decide)

end Isolation

end XWebQL.VideoWorker
