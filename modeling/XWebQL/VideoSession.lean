import Mathlib.Data.Rat.Defs
import XWebQL.Transition

/-! One websocket session that streams video.
The message loop, the task that spawns frames, the frame tasks and the task
that sends run side by side; a step is what happens between two points where
another of them can come in. `luma` and `alpha` are variables of the session,
as are the three x265 handles. Every critical section of the message loop is one
step, so that only frame tasks are seen to hold `video_mtx`. The Kalman filter,
the pixels and the bitstream are left out: a plane is known by the frame task
that computed it, an x265 object by the number of its allocation. -/

namespace XWebQL.VideoSession

open Transition

structure Size where
  width : ℤ
  height : ℤ
deriving DecidableEq, Repr

/-- A matrix that `getVideoFrame` returned to a frame task. -/
structure Plane where
  task : ℕ
  size : Size
deriving DecidableEq, Repr

/-- The numbers under `"timestamp"` and `"seq_id"`, if there are such. -/
structure VideoRequest where
  timestamp : Option ℚ
  seq_id : Option ℚ
deriving DecidableEq, Repr

structure Header where
  timestamp : ℚ
  seq_id : ℤ
deriving DecidableEq, Repr

/-- `Int32(v)`, which throws for a number that is no 32-bit integer. -/
def int32 (v : ℚ) : Option ℤ :=
  if v.den = 1 ∧ -2147483648 ≤ v.num ∧ v.num < 2147483648 then some v.num else none

/-- `Float32(req["timestamp"])` and `Int32(req["seq_id"])`, written before every unit. -/
def VideoRequest.header (r : VideoRequest) : Option Header := do
  let timestamp ← r.timestamp
  let seq_id ← int32 (← r.seq_id)
  some ⟨timestamp, seq_id⟩

abbrev Payload : Type := List UInt8

/-- Where a frame task is. `filling` has read the planes of the picture so far, `sending` has
these units of its frame still to send, `leaving` is before the `finally` block. -/
inductive Stage
  | computing
  | lumaStored
  | planesStored
  | locked
  | filling (picture : ℕ) (planes : List Plane)
  | sending (units : List Payload)
  | leaving
  | finished
deriving DecidableEq, Repr

structure Task where
  request : VideoRequest
  inner : Size
  image : Size
  bDownsize : Bool
  stage : Stage
deriving DecidableEq, Repr

/-- The size of both matrices of `getVideoFrame`. -/
def Task.planeSize (T : Task) : Size := if T.bDownsize then T.image else T.inner

/-- An encoder and the `input-res` it was opened with. -/
structure Encoder where
  handle : ℕ
  res : Size
deriving DecidableEq, Repr

/-- The session variables `param`, `encoder` and `picture`, how many x265 objects were
allocated, and those that were released. -/
structure Codec where
  param : Option ℕ
  encoder : Option Encoder
  picture : Option ℕ
  allocated : ℕ
  released : List ℕ
deriving DecidableEq, Repr

/-- The handles of the variables that are not `C_NULL`, in the order of their release. -/
def Codec.handles (c : Codec) : List ℕ :=
  (c.encoder.map Encoder.handle).toList ++ c.picture.toList ++ c.param.toList

/-- A call of `x265_encoder_encode`: who made it, the resolution of the encoder, the planes of
the picture, whether neither of both was released, and the units it returned. -/
structure Call where
  task : ℕ
  res : Size
  planes : List Plane
  live : Bool
  units : List Payload
deriving DecidableEq, Repr

inductive Message
  | video (task : ℕ) (header : Header) (payload : Payload)
  | other
deriving DecidableEq, Repr

/-- The channel `outgoing`, what was taken from it, and whether `sent_task` still runs. -/
structure Outgoing where
  messages : List Message
  isOpen : Bool
  taken : List Message
  sending : Bool
deriving DecidableEq, Repr

def Outgoing.hasRoom (q : Outgoing) : Bool := q.isOpen && decide (q.messages.length < 32)

def Outgoing.put (q : Outgoing) (m : Message) : Outgoing :=
  { q with messages := q.messages ++ [m] }

/-- The message loop: between two messages, three points inside `init_video`, `end_video` before
its lock, a heartbeat before its echo, and the end. `aborted` is the exception that
`websocket_receive_guarded` or `websocket_send_guarded` throws again: nothing below the loop runs. -/
inductive Main
  | idle
  | sized
  | scaled
  | replied
  | ending
  | echoing
  | closing
  | closed
  | aborted
deriving DecidableEq, Repr

/-- The message loop is outside of the last two points of `init_video` and goes on. -/
def Main.between : Main → Bool
  | .idle | .sized | .ending | .echoing => true
  | _ => false

structure State where
  main : Main
  inner : Option Size
  image : Option Size
  bDownsize : Bool
  filter : Bool
  codec : Codec
  video_mtx : Option ℕ
  luma : Option Plane
  alpha : Option Plane
  video_requests : List VideoRequest
  tasks : List Task
  outgoing : Outgoing
  calls : List Call

def State.opened : State where
  main := .idle
  inner := none
  image := none
  bDownsize := false
  filter := false
  codec := ⟨none, none, none, 0, []⟩
  video_mtx := none
  luma := none
  alpha := none
  video_requests := []
  tasks := []
  outgoing := ⟨[], true, [], true⟩
  calls := []

/-- How far the locked part of `init_video` comes. -/
inductive Outcome
  | filterError
  | paramNull
  | encoderNull
  | pictureNull
  | opened
deriving DecidableEq, Repr

/-- The allocations of `init_video`, each into its variable; after a `C_NULL` none follows. -/
def Codec.init (c : Codec) (res : Size) : Outcome → Codec
  | .filterError => c
  | .paramNull => { c with param := none }
  | .encoderNull => { c with
      param := some c.allocated
      encoder := none
      allocated := c.allocated + 1 }
  | .pictureNull => { c with
      param := some c.allocated
      encoder := some ⟨c.allocated + 1, res⟩
      picture := none
      allocated := c.allocated + 2 }
  | .opened => { c with
      param := some c.allocated
      encoder := some ⟨c.allocated + 1, res⟩
      picture := some (c.allocated + 2)
      allocated := c.allocated + 3 }

/-- `end_video`: what is released is set to `C_NULL`. -/
def Codec.endVideo (c : Codec) : Codec where
  param := none
  encoder := none
  picture := none
  allocated := c.allocated
  released := c.released ++ c.handles

/-- The final clean-up leaves the variables as they are. -/
def Codec.cleanUp (c : Codec) : Codec := { c with released := c.released ++ c.handles }

inductive FrameOp
  | storeLuma
  | storeAlpha
  | lock
  | testPicture
  | readPlane
  | encode (units : List Payload)
  | put
  | fail
  | unlock

inductive Act
  | receiveInit (inner : Size)
  | initError
  | initScale (downsized : Option Size)
  | initReply
  | initEncoder (outcome : Outcome)
  | receiveEnd
  | endVideo
  | receiveHeartbeat
  | echo
  | video (r : VideoRequest)
  | abort
  | disconnect
  | cleanUp
  | spawn
  | skip
  | frame (t : ℕ) (op : FrameOp)
  | take
  | stopSending
  | putOther

def State.setStage (s : State) (t : ℕ) (T : Task) (stage : Stage) : State :=
  { s with tasks := s.tasks.set t { T with stage } }

/-- `elapsed = @elapsed luma, alpha = getVideoFrame(...)`, the first of two assignments -/
def storeLuma (s : State) (t : ℕ) (T : Task) : Option State :=
  match T.stage with
  | .computing => some { s.setStage t T .lumaStored with luma := some ⟨t, T.planeSize⟩ }
  | _ => none

def storeAlpha (s : State) (t : ℕ) (T : Task) : Option State :=
  match T.stage with
  | .lumaStored => some { s.setStage t T .planesStored with alpha := some ⟨t, T.planeSize⟩ }
  | _ => none

/-- `lock(video_mtx)` -/
def lock (s : State) (t : ℕ) (T : Task) : Option State :=
  match T.stage, s.video_mtx with
  | .planesStored, none => some { s.setStage t T .locked with video_mtx := some t }
  | _, _ => none

/-- `if picture != C_NULL` -/
def testPicture (s : State) (t : ℕ) (T : Task) : Option State :=
  match T.stage, s.codec.picture with
  | .locked, some picture => some (s.setStage t T (.filling picture []))
  | .locked, none => some (s.setStage t T .leaving)
  | _, _ => none

/-- The variable that the next of `planeR`, `strideR`, `planeG`, `strideG`, `planeB`, `strideB`
is read from: two fields come from `luma`, four from `alpha`. -/
def State.nextPlane (s : State) (planes : List Plane) : Option Plane :=
  if planes.length < 2 then s.luma else s.alpha

def readPlane (s : State) (t : ℕ) (T : Task) : Option State :=
  match T.stage with
  | .filling picture planes => do
    let plane ← s.nextPlane planes
    if planes.length < 6 then some (s.setStage t T (.filling picture (planes ++ [plane])))
    else none
  | _ => none

/-- `if encoder != C_NULL`, with the call of `x265_encoder_encode` -/
def encode (units : List Payload) (s : State) (t : ℕ) (T : Task) : Option State :=
  match T.stage, s.codec.encoder with
  | .filling picture planes, some encoder =>
    if planes.length = 6 then
      let live := decide (encoder.handle ∉ s.codec.released ∧ picture ∉ s.codec.released)
      some { s.setStage t T (.sending units) with
        calls := s.calls ++ [⟨t, encoder.res, planes, live, units⟩] }
    else none
  | .filling _ planes, none =>
    if planes.length = 6 then some (s.setStage t T .leaving) else none
  | _, _ => none

/-- One turn of `for idx = 1:iNal[]`. The header is converted anew for every unit; the
conversion and `put!` on a closed channel throw. -/
def put (s : State) (t : ℕ) (T : Task) : Option State :=
  match T.stage with
  | .sending [] => some (s.setStage t T .leaving)
  | .sending (unit :: units) =>
    match T.request.header with
    | none => some (s.setStage t T .leaving)
    | some header =>
      if s.outgoing.hasRoom then
        some { s.setStage t T (.sending units) with
          outgoing := s.outgoing.put (.video t header unit) }
      else if s.outgoing.isOpen then none
      else some (s.setStage t T .leaving)
  | _ => none

def fail (s : State) (t : ℕ) (T : Task) : Option State :=
  match T.stage with
  | .computing | .planesStored | .locked | .filling _ _ =>
    some (s.setStage t T .leaving)
  | _ => none

/-- `if islocked(video_mtx) unlock(video_mtx) end`: in a task that does not hold the lock,
`unlock` throws and changes nothing. -/
def unlock (s : State) (t : ℕ) (T : Task) : Option State :=
  match T.stage with
  | .leaving => some { s.setStage t T .finished with
      video_mtx := if s.video_mtx = some t then none else s.video_mtx }
  | _ => none

def frameStep : FrameOp → State → ℕ → Task → Option State
  | .storeLuma => storeLuma
  | .storeAlpha => storeAlpha
  | .lock => lock
  | .testPicture => testPicture
  | .readPlane => readPlane
  | .encode units => encode units
  | .put => put
  | .fail => fail
  | .unlock => unlock

/-- `Threads.@spawn`: the sizes are interpolated; before the first `init_video` they and the
filter are undefined, and the request is lost. -/
def spawn (s : State) : Option State :=
  match s.video_requests, s.inner, s.image with
  | r :: rest, some inner, some image =>
    if s.filter ∧ s.main ≠ .closed then
      some { s with
        video_requests := rest
        tasks := s.tasks ++ [⟨r, inner, image, s.bDownsize, .computing⟩] }
    else none
  | _, _, _ => none

def step (s : State) : Act → Option State
  | .receiveInit inner =>
      if s.main = .idle then some { s with main := .sized, inner := some inner } else none
  | .initError => if s.main = .sized then some { s with main := .idle } else none
  | .initScale downsized => do
    let inner ← s.inner
    if s.main = .sized then
      some { s with
        main := .scaled
        image := some (downsized.getD inner)
        bDownsize := downsized.isSome }
    else none
  | .initReply =>
      if s.main = .scaled ∧ s.outgoing.hasRoom then
        some { s with main := .replied, outgoing := s.outgoing.put .other }
      else none
  | .initEncoder outcome => do
    let image ← s.image
    if s.main = .replied ∧ s.video_mtx = none then
      some { s with
        main := .idle
        filter := s.filter || outcome != .filterError
        codec := s.codec.init image outcome }
    else none
  | .receiveEnd => if s.main = .idle then some { s with main := .ending } else none
  | .endVideo =>
      if s.main = .ending ∧ s.video_mtx = none then
        some { s with main := .idle, codec := s.codec.endVideo }
      else none
  | .receiveHeartbeat => if s.main = .idle then some { s with main := .echoing } else none
  | .echo =>
      if s.main = .echoing ∧ s.outgoing.hasRoom then
        some { s with main := .idle, outgoing := s.outgoing.put .other }
      else none
  | .video r =>
      if s.main = .idle ∧ s.video_requests.length < 32 then
        some { s with video_requests := s.video_requests ++ [r] }
      else none
  | .abort => if s.main = .idle then some { s with main := .aborted } else none
  | .disconnect =>
      if s.main = .idle then
        some { s with main := .closing, outgoing := { s.outgoing with isOpen := false } }
      else none
  | .cleanUp =>
      if s.main = .closing ∧ s.video_requests = [] ∧ s.outgoing.sending = false then
        some { s with main := .closed, codec := s.codec.cleanUp }
      else none
  | .spawn => spawn s
  | .skip =>
      if s.main ≠ .closed then some { s with video_requests := s.video_requests.tail } else none
  | .frame t op => s.tasks[t]?.bind (frameStep op s t)
  | .take =>
    match s.outgoing.messages with
    | m :: rest =>
      if s.outgoing.sending then
        some { s with outgoing := { s.outgoing with
          messages := rest, taken := s.outgoing.taken ++ [m] } }
      else none
    | [] => none
  | .stopSending => some { s with outgoing := { s.outgoing with sending := false } }
  | .putOther =>
      if s.outgoing.hasRoom then some { s with outgoing := s.outgoing.put .other } else none

def session : System State Act := ⟨.opened, step⟩

/-- What a step of frame task `t` can do: the state before and after, with every guard. -/
inductive FrameMove (s : State) (t : ℕ) (T : Task) : FrameOp → State → Prop
  | storeLuma : T.stage = .computing →
      FrameMove s t T .storeLuma { s.setStage t T .lumaStored with luma := some ⟨t, T.planeSize⟩ }
  | storeAlpha : T.stage = .lumaStored →
      FrameMove s t T .storeAlpha
        { s.setStage t T .planesStored with alpha := some ⟨t, T.planeSize⟩ }
  | lock : T.stage = .planesStored → s.video_mtx = none →
      FrameMove s t T .lock { s.setStage t T .locked with video_mtx := some t }
  | picture {picture : ℕ} : T.stage = .locked → s.codec.picture = some picture →
      FrameMove s t T .testPicture (s.setStage t T (.filling picture []))
  | readPlane {picture : ℕ} {planes : List Plane} {plane : Plane} :
      T.stage = .filling picture planes → planes.length < 6 → s.nextPlane planes = some plane →
      FrameMove s t T .readPlane (s.setStage t T (.filling picture (planes ++ [plane])))
  | encode {picture : ℕ} {planes : List Plane} {encoder : Encoder} {units : List Payload} :
      T.stage = .filling picture planes → planes.length = 6 → s.codec.encoder = some encoder →
      FrameMove s t T (.encode units) { s.setStage t T (.sending units) with
        calls := s.calls ++ [⟨t, encoder.res, planes,
          decide (encoder.handle ∉ s.codec.released ∧ picture ∉ s.codec.released), units⟩] }
  | put {unit : Payload} {units : List Payload} {header : Header} :
      T.stage = .sending (unit :: units) → T.request.header = some header →
      s.outgoing.hasRoom = true →
      FrameMove s t T .put { s.setStage t T (.sending units) with
        outgoing := s.outgoing.put (.video t header unit) }
  | drop {op : FrameOp} {units : List Payload} : T.stage = .sending units →
      (units ≠ [] → T.request.header = none ∨ s.outgoing.isOpen = false) →
      FrameMove s t T op (s.setStage t T .leaving)
  | leave {op : FrameOp} : (∀ units, T.stage ≠ .sending units) → T.stage ≠ .finished →
      FrameMove s t T op (s.setStage t T .leaving)
  | unlock : T.stage = .leaving →
      FrameMove s t T .unlock { s.setStage t T .finished with
        video_mtx := if s.video_mtx = some t then none else s.video_mtx }

theorem put_move {s s' : State} {t : ℕ} {T : Task} (h : put s t T = some s') :
    FrameMove s t T .put s' := by
  unfold put at h
  split at h
  next hstage =>
    obtain rfl := Option.some.inj h
    exact .drop hstage fun hne => absurd rfl hne
  next unit units hstage =>
    split at h
    next hheader =>
      obtain rfl := Option.some.inj h
      exact .drop hstage fun _ => .inl hheader
    next header hheader =>
      split at h
      next hroom =>
        obtain rfl := Option.some.inj h
        exact .put hstage hheader hroom
      next =>
        rw [Option.ite_none_left_eq_some, Option.some_inj] at h
        obtain ⟨hclosed, rfl⟩ := h
        exact .drop hstage fun _ => .inr (Bool.not_eq_true _ ▸ hclosed)
  next => nomatch h

theorem encode_move {s s' : State} {t : ℕ} {T : Task} {units : List Payload}
    (h : encode units s t T = some s') : FrameMove s t T (.encode units) s' := by
  unfold encode at h
  split at h
  next picture planes encoder hstage hencoder =>
    rw [Option.ite_none_right_eq_some] at h
    obtain ⟨hlength, h⟩ := h
    obtain rfl := Option.some.inj h
    exact .encode hstage hlength hencoder
  next picture planes hstage hencoder =>
    rw [Option.ite_none_right_eq_some, Option.some_inj] at h
    obtain ⟨hlength, rfl⟩ := h
    exact .leave (by simp [hstage]) (by simp [hstage])
  next => nomatch h

theorem frameStep_move {s s' : State} {t : ℕ} {T : Task} {op : FrameOp}
    (h : frameStep op s t T = some s') : FrameMove s t T op s' := by
  cases op with
  | storeLuma =>
    simp only [frameStep, storeLuma] at h
    split at h
    next hstage => exact Option.some.inj h ▸ .storeLuma hstage
    next => nomatch h
  | storeAlpha =>
    simp only [frameStep, storeAlpha] at h
    split at h
    next hstage => exact Option.some.inj h ▸ .storeAlpha hstage
    next => nomatch h
  | lock =>
    simp only [frameStep, lock] at h
    split at h
    next hstage hfree => exact Option.some.inj h ▸ .lock hstage hfree
    next => nomatch h
  | testPicture =>
    simp only [frameStep, testPicture] at h
    split at h
    next hstage hpicture => exact Option.some.inj h ▸ .picture hstage hpicture
    next hstage hpicture =>
      exact Option.some.inj h ▸ .leave (by simp [hstage]) (by simp [hstage])
    next => nomatch h
  | readPlane =>
    simp only [frameStep, readPlane] at h
    split at h
    next picture planes hstage =>
      simp only [Option.bind_eq_bind, Option.bind_eq_some_iff, Option.ite_none_right_eq_some,
        Option.some_inj] at h
      obtain ⟨plane, hplane, hlength, rfl⟩ := h
      exact .readPlane hstage hlength hplane
    next => nomatch h
  | encode units => exact encode_move h
  | put => exact put_move h
  | fail =>
    simp only [frameStep, fail] at h
    split at h <;> first
      | exact Option.some.inj h ▸ .leave (by simp [*]) (by simp [*])
      | nomatch h
  | unlock =>
    simp only [frameStep, unlock] at h
    split at h
    next hstage => exact Option.some.inj h ▸ .unlock hstage
    next => nomatch h

/-- What any step can do. `quiet` stands for the steps that change neither the frame tasks and
what they share, nor the x265 handles, nor a message. -/
inductive Move (s : State) : Act → State → Prop
  | frame {t : ℕ} {op : FrameOp} {T : Task} {s' : State} : s.tasks[t]? = some T →
      FrameMove s t T op s' → Move s (.frame t op) s'
  | spawn {r : VideoRequest} {rest : List VideoRequest} {inner image : Size} :
      s.inner = some inner → s.image = some image → s.main ≠ .closed →
      Move s .spawn { s with
        video_requests := rest
        tasks := s.tasks ++ [⟨r, inner, image, s.bDownsize, .computing⟩] }
  | initScale {inner : Size} {downsized : Option Size} : s.main = .sized → s.inner = some inner →
      Move s (.initScale downsized) { s with
        main := .scaled
        image := some (downsized.getD inner)
        bDownsize := downsized.isSome }
  | initReply : s.main = .scaled → s.outgoing.hasRoom = true →
      Move s .initReply { s with main := .replied, outgoing := s.outgoing.put .other }
  | initEncoder {outcome : Outcome} {image : Size} {filter : Bool} : s.main = .replied →
      s.video_mtx = none → s.image = some image →
      Move s (.initEncoder outcome) { s with
        main := .idle, filter := filter, codec := s.codec.init image outcome }
  | endVideo : s.main = .ending → s.video_mtx = none →
      Move s .endVideo { s with main := .idle, codec := s.codec.endVideo }
  | cleanUp : s.main = .closing →
      Move s .cleanUp { s with main := .closed, codec := s.codec.cleanUp }
  | abort : s.main = .idle → Move s .abort { s with main := .aborted }
  | disconnect : s.main = .idle →
      Move s .disconnect { s with
        main := .closing, outgoing := { s.outgoing with isOpen := false } }
  | take {m : Message} {rest : List Message} : s.outgoing.messages = m :: rest →
      Move s .take { s with outgoing := { s.outgoing with
        messages := rest, taken := s.outgoing.taken ++ [m] } }
  | putOther {a : Act} {main : Main} : s.outgoing.hasRoom = true →
      main = s.main ∨ main.between = true ∧ s.main.between = true →
      Move s a { s with main := main, outgoing := s.outgoing.put .other }
  | quiet {a : Act} {main : Main} {inner : Option Size} {sending : Bool}
      {requests : List VideoRequest} :
      main = s.main ∨ main.between = true ∧ s.main.between = true →
      Move s a { s with
        main := main
        inner := inner
        video_requests := requests
        outgoing := { s.outgoing with sending := sending } }

theorem spawn_move {s s' : State} (h : spawn s = some s') : Move s .spawn s' := by
  unfold spawn at h
  split at h
  next r rest inner image _ hinner himage =>
    rw [Option.ite_none_right_eq_some, Option.some_inj] at h
    obtain ⟨⟨-, hmain⟩, rfl⟩ := h
    exact .spawn hinner himage hmain
  next => nomatch h

theorem step_move {s s' : State} {a : Act} (h : step s a = some s') : Move s a s' := by
  cases a with
  | receiveInit inner =>
    rw [step, Option.ite_none_right_eq_some, Option.some_inj] at h
    obtain ⟨hmain, rfl⟩ := h
    exact .quiet (.inr ⟨rfl, hmain ▸ rfl⟩)
  | initError =>
    rw [step, Option.ite_none_right_eq_some, Option.some_inj] at h
    obtain ⟨hmain, rfl⟩ := h
    exact .quiet (.inr ⟨rfl, hmain ▸ rfl⟩)
  | initScale downsized =>
    simp only [step, Option.bind_eq_bind, Option.bind_eq_some_iff,
      Option.ite_none_right_eq_some, Option.some_inj] at h
    obtain ⟨inner, hinner, hmain, rfl⟩ := h
    exact .initScale hmain hinner
  | initReply =>
    rw [step, Option.ite_none_right_eq_some, Option.some_inj] at h
    obtain ⟨⟨hmain, hroom⟩, rfl⟩ := h
    exact .initReply hmain hroom
  | initEncoder outcome =>
    simp only [step, Option.bind_eq_bind, Option.bind_eq_some_iff,
      Option.ite_none_right_eq_some, Option.some_inj] at h
    obtain ⟨image, himage, ⟨hmain, hfree⟩, rfl⟩ := h
    exact .initEncoder hmain hfree himage
  | receiveEnd =>
    rw [step, Option.ite_none_right_eq_some, Option.some_inj] at h
    obtain ⟨hmain, rfl⟩ := h
    exact .quiet (.inr ⟨rfl, hmain ▸ rfl⟩)
  | endVideo =>
    rw [step, Option.ite_none_right_eq_some, Option.some_inj] at h
    obtain ⟨⟨hmain, hfree⟩, rfl⟩ := h
    exact .endVideo hmain hfree
  | receiveHeartbeat =>
    rw [step, Option.ite_none_right_eq_some, Option.some_inj] at h
    obtain ⟨hmain, rfl⟩ := h
    exact .quiet (.inr ⟨rfl, hmain ▸ rfl⟩)
  | echo =>
    rw [step, Option.ite_none_right_eq_some, Option.some_inj] at h
    obtain ⟨⟨hmain, hroom⟩, rfl⟩ := h
    exact .putOther hroom (.inr ⟨rfl, hmain ▸ rfl⟩)
  | video r =>
    rw [step, Option.ite_none_right_eq_some, Option.some_inj] at h
    obtain ⟨-, rfl⟩ := h
    exact .quiet (.inl rfl)
  | abort =>
    rw [step, Option.ite_none_right_eq_some, Option.some_inj] at h
    obtain ⟨hmain, rfl⟩ := h
    exact .abort hmain
  | disconnect =>
    rw [step, Option.ite_none_right_eq_some, Option.some_inj] at h
    obtain ⟨hmain, rfl⟩ := h
    exact .disconnect hmain
  | cleanUp =>
    rw [step, Option.ite_none_right_eq_some, Option.some_inj] at h
    obtain ⟨⟨hmain, -⟩, rfl⟩ := h
    exact .cleanUp hmain
  | spawn => exact spawn_move h
  | skip =>
    rw [step, Option.ite_none_right_eq_some, Option.some_inj] at h
    obtain ⟨-, rfl⟩ := h
    exact .quiet (.inl rfl)
  | frame t op =>
    rw [step, Option.bind_eq_some_iff] at h
    obtain ⟨T, hT, h⟩ := h
    exact .frame hT (frameStep_move h)
  | take =>
    simp only [step] at h
    split at h
    next m rest hmessages =>
      rw [Option.ite_none_right_eq_some, Option.some_inj] at h
      obtain ⟨-, rfl⟩ := h
      exact .take hmessages
    next => nomatch h
  | stopSending =>
    obtain rfl := Option.some.inj h
    exact .quiet (.inl rfl)
  | putOther =>
    rw [step, Option.ite_none_right_eq_some, Option.some_inj] at h
    obtain ⟨hroom, rfl⟩ := h
    exact .putOther hroom (.inl rfl)

/-- What is false between the messages stays as it is in the quiet steps. -/
theorem iff_of_between (p : Main → Prop) {main main' : Main}
    (hmain : main' = main ∨ main'.between = true ∧ main.between = true)
    (hp : ∀ m : Main, m.between = true → ¬ p m) : p main' ↔ p main := by
  rcases hmain with rfl | ⟨hnew, hold⟩
  · exact Iff.rfl
  · exact iff_of_false (hp _ hnew) (hp _ hold)

/-- The stages in which a frame task holds `video_mtx`, before its `finally` block. -/
def Stage.inside : Stage → Bool
  | .locked => true
  | .filling _ _ => true
  | .sending _ => true
  | _ => false

/-- `video_mtx` is held by any frame task that is inside. -/
def Exclusive (s : State) : Prop :=
  ∀ (t : ℕ) (T : Task), s.tasks[t]? = some T → T.stage.inside = true → s.video_mtx = some t

theorem getElem?_spawned {tasks : List Task} {new : Task} {t : ℕ} {T : Task}
    (h : (tasks ++ [new])[t]? = some T) : tasks[t]? = some T ∨ T = new := by
  rw [List.getElem?_append] at h
  split at h
  · exact .inl h
  · exact .inr (List.mem_singleton.mp (List.mem_of_getElem? h))

theorem exclusive_frame {s s' : State} {t : ℕ} {T : Task} {op : FrameOp}
    (hT : s.tasks[t]? = some T) (hex : Exclusive s) (hmove : FrameMove s t T op s') :
    Exclusive s' := by
  have hold : ∀ (u : ℕ) (U : Task) (stage : Stage),
      (s.setStage t T stage).tasks[u]? = some U → U.stage.inside = true →
        (stage.inside = true → T.stage.inside = true) → s.video_mtx = some u := by
    intro u U stage hU hinside hkeep
    obtain ⟨rfl, rfl⟩ | ⟨-, hU⟩ := getElem?_set_cases hU
    · exact hex u T hT (hkeep hinside)
    · exact hex u U hU hinside
  intro u U hU hinside
  cases hmove with
  | storeLuma hstage => exact hold u U _ hU hinside fun h => absurd h (by decide)
  | storeAlpha hstage => exact hold u U _ hU hinside fun h => absurd h (by decide)
  | lock hstage hfree =>
    obtain ⟨rfl, rfl⟩ | ⟨-, hU⟩ := getElem?_set_cases hU
    · rfl
    · have howner := hex u U hU hinside
      rw [hfree] at howner
      cases howner
  | picture hstage hpicture => exact hold u U _ hU hinside fun _ => by rw [hstage]; rfl
  | readPlane hstage hplane => exact hold u U _ hU hinside fun _ => by rw [hstage]; rfl
  | encode hstage hlength hencoder => exact hold u U _ hU hinside fun _ => by rw [hstage]; rfl
  | put hstage hheader hopen => exact hold u U _ hU hinside fun _ => by rw [hstage]; rfl
  | drop hstage hwhy => exact hold u U _ hU hinside fun h => absurd h (by decide)
  | leave hstage hrunning => exact hold u U _ hU hinside fun h => absurd h (by decide)
  | unlock hstage =>
    obtain ⟨rfl, rfl⟩ | ⟨hne, hU⟩ := getElem?_set_cases hU
    · cases hinside
    · have howner := hex u U hU hinside
      have hother : s.video_mtx ≠ some t := by
        rw [howner]
        intro h
        exact hne (Option.some.inj h)
      exact (if_neg hother).trans howner

theorem exclusive_move {s s' : State} {a : Act} (hex : Exclusive s) (hmove : Move s a s') :
    Exclusive s' := by
  cases hmove with
  | frame hT hmove => exact exclusive_frame hT hex hmove
  | spawn hinner himage hmain =>
    intro u U hU hinside
    cases getElem?_spawned hU with
    | inl hU => exact hex u U hU hinside
    | inr hU =>
      rw [hU] at hinside
      nomatch hinside
  | _ => exact hex

theorem exclusive_opened : Exclusive .opened := by
  intro t T hT
  nomatch hT

theorem Exclusive.unique {s : State} (hex : Exclusive s) {t u : ℕ} {T U : Task}
    (hT : s.tasks[t]? = some T) (hU : s.tasks[u]? = some U) (htin : T.stage.inside = true)
    (huin : U.stage.inside = true) : t = u := by
  have hmtx := hex t T hT htin
  rw [hex u U hU huin] at hmtx
  exact (Option.some.inj hmtx).symm

/-- The steps of one `init_video` that comes to `outcome`, without downsizing. -/
def initVideo (inner : Size) (outcome : Outcome) : List Act :=
  [.receiveInit inner, .initScale none, .initReply, .initEncoder outcome]

/-- The steps of frame task `t` up to its call of the encoder. -/
def encodeFrame (t : ℕ) (units : List Payload) : List Act :=
  [.frame t .lock, .frame t .testPicture] ++ List.replicate 6 (.frame t .readPlane) ++
    [.frame t (.encode units)]

/-- The steps of frame task `t` after this call, if every unit is put. -/
def sendFrame (t : ℕ) (units : List Payload) : List Act :=
  List.replicate (units.length + 1) (.frame t .put) ++ [.frame t .unlock]

def oneFrame (t : ℕ) (r : VideoRequest) (units : List Payload) : List Act :=
  [.video r, .spawn, .frame t .storeLuma, .frame t .storeAlpha] ++ encodeFrame t units ++
    sendFrame t units

/-- One `end_video`. -/
def endVideo : List Act := [.receiveEnd, .endVideo]

def finish : List Act := [.disconnect, .stopSending, .cleanUp]

end XWebQL.VideoSession
