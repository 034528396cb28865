import XWebQL.LiveMessages
import XWebQL.Transition
import Mathlib.Data.List.Perm.Subperm
import Mathlib.Data.List.Pairwise
import Mathlib.Tactic.NormNum

/-! Spectra and views that follow the pointer.
The client numbers its requests. The server answers them one after the other, but a
task of its own writes each answer, so that answers overtake each other. The client
keeps the spectra that arrive on a stack, and the next animation frame plots the top
one if it is newer than the last one that was plotted. -/

namespace XWebQL.LiveSession

open Transition Bzip2Compressor LiveMessages

variable {R S : Type}

/-- A `realtime_image_spectrum` request; the region stands for the fields that the
answer is computed from. -/
structure Request (R : Type) where
  seq_id : ℕ
  timestamp : UInt32
  image : Bool
  region : R

/-- What is computed outside of this protocol: the view and the spectrum of a region,
the compression and the parsing of a spectrum, which throws or gives a list. The masks and
the texts that are sent come back. -/
structure Session (R S : Type) where
  codec : Codec
  viewport : R → View
  spectrum : R → List Char
  parse : List Char → Option (List S)
  masks : ∀ region, codec.Restores (viewport region).mask
  texts : ∀ region, codec.Restores (Utf8.encode (spectrum region))

/-- With the decoder of the client, behind any compressor whose tables it rebuilds, this is
so for all masks and for all texts without the sentinel. -/
def Session.ofCompressor {c : Compressor} (hreadable : ∀ bytes, (c.archive bytes).Readable)
    (viewport : R → View) (spectrum : R → List Char) (parse : List Char → Option (List S))
    (hwhole : ∀ region, (Body.spectrum (spectrum region)).Whole c) : Session R S where
  codec := c.codec
  viewport := viewport
  spectrum := spectrum
  parse := parse
  masks region := restores_bits c (hreadable _) (viewport region).mask_bits
  texts region := restored_of_whole hreadable (hwhole region)

structure Client (S : Type) where
  sent_seq_id : ℕ
  last_seq_id : ℕ
  windowLeft : Bool
  moving : Bool
  streaming : Bool
  /-- The top comes first. -/
  spectrum_stack : List (ℕ × List S)
  /-- The calls of `update_spectrum` that wait for the next frame. -/
  frames : ℕ
  plotted : List (ℕ × List S)
  shown : List (ℕ × ReceivedView)

structure Server (R : Type) where
  viewport_requests : List (Request R)
  /-- The request that `getViewportSpectrum` is working on. -/
  computing : Option (Request R)
  /-- The tasks that write answers, with the messages still to be written. -/
  writers : List (List (Header × Body))
  outgoing : List (List UInt8)

structure State (R S : Type) where
  client : Client S
  server : Server R
  /-- All requests that were sent. -/
  requests : List (Request R)
  /-- The two directions of the connection. -/
  up : List (Request R)
  down : List (List UInt8)

inductive Action (R : Type) where
  | mouseenter
  | mouseleave (shiftKey : Bool)
  | mousemove
  | imageTimeout
  | setStreaming (on : Bool)
  | request (timestamp : UInt32) (image : Bool) (region : R)
  | unsent
  | push
  | take
  | answer (elapsed : UInt32)
  | fail
  | put (i : ℕ)
  | other (h : Header) (body : Body)
  | send
  | receive
  | update_spectrum

def answers (m : Session R S) (req : Request R) (elapsed : UInt32) : List (Header × Body) :=
  (if req.image then [(⟨req.timestamp, req.seq_id, elapsed⟩, .viewport (m.viewport req.region))]
    else []) ++
    [(⟨req.timestamp, req.seq_id, elapsed⟩, .spectrum (m.spectrum req.region))]

/-- Messages of the other tasks: units of a video and refreshes of the whole image. -/
def isOther : Body → Bool
  | .spectrum _ => false
  | .viewport _ => false
  | _ => true

namespace Client

def start : Client S := ⟨0, 0, false, false, false, [], 0, [], []⟩

/-- The number of a `kalman_reset` message or of a request. -/
def count (c : Client S) : Client S := { c with sent_seq_id := c.sent_seq_id + 1 }

def mouseenter (c : Client S) : Client S :=
  { c.count with windowLeft := false, spectrum_stack := [], frames := c.frames + 1 }

def mouseleave (c : Client S) (shiftKey : Bool) : Client S :=
  { c.count with windowLeft := c.windowLeft || !shiftKey, spectrum_stack := [] }

/-- The handler of a message that has been read. A view is dropped while the pointer
moves, a video runs or the pointer has left. -/
def handle (m : Session R S) (c : Client S) : ℕ × ℕ × Received → Client S
  | (_, recv_seq_id, .spectrum text) =>
    match m.parse text with
    | some (bin :: bins) =>
      if c.windowLeft then c
      else { c with spectrum_stack := (recv_seq_id, bin :: bins) :: c.spectrum_stack }
    | _ => c
  | (_, recv_seq_id, .viewport view) =>
    if c.streaming || c.moving || c.windowLeft then c
    else { c with shown := c.shown ++ [(recv_seq_id, view)] }
  | _ => c

/-- The next frame is asked for as long as the pointer is there. -/
def again (c : Client S) : Client S := if c.windowLeft then { c with frames := c.frames - 1 } else c

def update_spectrum (c : Client S) : Client S :=
  match c.spectrum_stack with
  | [] => c.again
  | (id, spectrum) :: _ =>
    if id ≤ c.last_seq_id then c.again
    else { c with
      last_seq_id := id, spectrum_stack := [], plotted := c.plotted ++ [(id, spectrum)] }.again

end Client

def Server.start : Server R := ⟨[], none, [], []⟩

/-- The task `i` writes its next message. It ends with its last message, or with the
exception of a field that does not fit. -/
def Server.put (m : Session R S) (s : Server R) (i : ℕ) : Option (Server R) :=
  match s.writers[i]? with
  | some ((h, body) :: rest) =>
    match write m.codec h body with
    | none => some { s with writers := s.writers.eraseIdx i }
    | some bytes =>
      if s.outgoing.length < 32 then
        some { s with
          outgoing := s.outgoing ++ [bytes]
          writers := if rest = [] then s.writers.eraseIdx i else s.writers.set i rest }
      else none
  | _ => none

def step (m : Session R S) (s : State R S) : Action R → Option (State R S)
  | .mouseenter => some { s with client := s.client.mouseenter }
  | .mouseleave shiftKey => some { s with client := s.client.mouseleave shiftKey }
  | .mousemove => some { s with client := { s.client with moving := true, windowLeft := false } }
  | .imageTimeout => some { s with client := { s.client with moving := false } }
  | .setStreaming on => some { s with client := { s.client with streaming := on } }
  | .request timestamp image region =>
    let req := ⟨s.client.sent_seq_id + 1, timestamp, image, region⟩
    some { s with client := s.client.count, requests := s.requests ++ [req], up := s.up ++ [req] }
  | .unsent => some { s with client := s.client.count }
  | .push =>
    match s.up with
    | [] => none
    | req :: up =>
      if s.server.viewport_requests.length < 32 then
        some { s with
          up := up
          server := { s.server with
            viewport_requests := s.server.viewport_requests ++ [req] } }
      else none
  | .take =>
    match s.server.viewport_requests, s.server.computing with
    | req :: viewport_requests, none =>
      some { s with server := { s.server with
        viewport_requests := viewport_requests, computing := some req } }
    | _, _ => none
  | .answer elapsed =>
    s.server.computing.map fun req => { s with server := { s.server with
      computing := none, writers := s.server.writers ++ [answers m req elapsed] } }
  | .fail => some { s with server := { s.server with computing := none } }
  | .put i => (s.server.put m i).map fun server => { s with server := server }
  | .other h body =>
    if isOther body ∧ s.server.outgoing.length < 32 then
      (write m.codec h body).map fun bytes => { s with server := { s.server with
        outgoing := s.server.outgoing ++ [bytes] } }
    else none
  | .send =>
    match s.server.outgoing with
    | [] => none
    | bytes :: outgoing =>
      some { s with server := { s.server with outgoing := outgoing }, down := s.down ++ [bytes] }
  | .receive =>
    match s.down with
    | [] => none
    | bytes :: down =>
      some { s with
        down := down
        client := (receive m.codec bytes).elim s.client (s.client.handle m) }
  | .update_spectrum =>
    if s.client.frames = 0 then none
    else some { s with client := s.client.update_spectrum }

def system (m : Session R S) : System (State R S) (Action R) where
  init := ⟨Client.start, Server.start, [], [], []⟩
  step := step m

section Flight

variable (m : Session R S) (kind : Received → Bool)

def messageNumber (bytes : List UInt8) : Option ℕ :=
  ((receive m.codec bytes).filter fun r => kind r.2.2).map fun r => r.2.1

def bodyNumber (p : Header × Body) : Option ℕ :=
  if kind p.2.received then some p.1.seq_id else none

/-- The numbers of the answers of this kind that may still arrive, the next one first. -/
def inFlight (s : State R S) : List ℕ :=
  s.down.filterMap (messageNumber m kind) ++ (s.server.outgoing.filterMap (messageNumber m kind) ++
    (s.server.writers.flatten.filterMap (bodyNumber kind) ++
      (s.server.computing.toList.map Request.seq_id ++
        (s.server.viewport_requests.map Request.seq_id ++ s.up.map Request.seq_id))))

structure Counted (kind : Received → Bool) : Prop where
  type : ∀ r r' : Received, r.type = r'.type → kind r = kind r'
  seqId : ∀ (body : Body) n, kind body.received = true → body.seqId n = n
  other : ∀ body : Body, isOther body = true → kind body.received = false
  once : ∀ (m : Session R S) (req : Request R) elapsed,
    ((answers m req elapsed).filterMap (bodyNumber kind)).Sublist [req.seq_id]

variable {m kind} {s t : State R S} {a : Action R}

theorem messageNumber_write (hkind : Counted (R := R) (S := S) kind) {h : Header} {body : Body}
    {bytes : List UInt8} (hwrite : write m.codec h body = some bytes) :
    (messageNumber m kind bytes).toList.Sublist (bodyNumber kind (h, body)).toList := by
  rw [messageNumber]
  cases hread : receive m.codec bytes with
  | none => exact List.nil_sublist _
  | some r =>
    obtain ⟨hseq, htype⟩ := type_of_receive hwrite hread
    have hsame : kind r.2.2 = kind body.received :=
      hkind.type _ _ (htype.trans (type_received body).symm)
    by_cases hbody : kind body.received = true
    · rw [bodyNumber, if_pos hbody, Option.filter_some, if_pos (hsame.trans hbody), Option.map_some,
        hseq, hkind.seqId body h.seq_id hbody]
    · rw [Option.filter_some, if_neg (by rwa [hsame])]
      exact List.nil_sublist _

/-- The numbers stay in their order, unless a writer comes before an earlier one. -/
structure Keeps (s : State R S) (l l' : List ℕ) : Prop where
  subperm : l'.Subperm l
  sublist : s.server.writers.length ≤ 1 → l'.Sublist l

theorem Keeps.of_sublist {l l' : List ℕ} (h : l'.Sublist l) : Keeps s l l' :=
  ⟨h.subperm, fun _ => h⟩

theorem Keeps.append {l l' : List ℕ} (first last : List ℕ) (h : Keeps s l l') :
    Keeps s (first ++ (l ++ last)) (first ++ (l' ++ last)) := by
  refine ⟨?_, fun hone => ?_⟩
  · exact (List.subperm_append_left first).mpr ((List.subperm_append_right last).mpr h.subperm)
  · exact (List.Sublist.refl first).append ((h.sublist hone).append (List.Sublist.refl last))

theorem Keeps.append_left {l l' : List ℕ} (first : List ℕ) (h : Keeps s l l') :
    Keeps s (first ++ l) (first ++ l') := by
  have happend := h.append first []
  rwa [List.append_nil, List.append_nil] at happend

theorem filterMap_cons_append {α β : Type} (f : α → Option β) (x : α) (l : List α) :
    (x :: l).filterMap f = (f x).toList ++ l.filterMap f := by
  rw [List.filterMap_cons]
  cases f x <;> rfl

theorem keeps_put {i : ℕ} {server : Server R} (hkind : Counted (R := R) (S := S) kind)
    (hput : s.server.put m i = some server) :
    Keeps s (s.server.outgoing.filterMap (messageNumber m kind) ++
        s.server.writers.flatten.filterMap (bodyNumber kind))
      (server.outgoing.filterMap (messageNumber m kind) ++
        server.writers.flatten.filterMap (bodyNumber kind)) := by
  rw [Server.put] at hput
  split at hput
  next h body rest hi =>
    obtain ⟨hlt, hget⟩ := List.getElem?_eq_some_iff.mp hi
    let first := s.server.writers.take i
    let last := s.server.writers.drop (i + 1)
    have hwriters : s.server.writers = first ++ ((h, body) :: rest) :: last := by
      rw [← hget, List.cons_getElem_drop_succ, List.take_append_drop]
    have herase : s.server.writers.eraseIdx i = first ++ last := List.eraseIdx_eq_take_drop_succ ..
    have hfirst : s.server.writers.length ≤ 1 → first = [] := by
      intro hone
      rw [show first = s.server.writers.take i from rfl, show i = 0 by omega, List.take_zero]
    split at hput
    next hwrite =>
      obtain rfl := Option.some.inj hput
      refine Keeps.of_sublist ((List.Sublist.refl _).append (List.Sublist.filterMap _ ?_))
      rw [herase, hwriters, List.flatten_append, List.flatten_append, List.flatten_cons]
      exact (List.Sublist.refl _).append (List.sublist_append_right _ _)
    next bytes hwrite =>
      split at hput
      · obtain rfl := Option.some.inj hput
        have hnumber := messageNumber_write hkind hwrite
        have hrest : (if rest = [] then s.server.writers.eraseIdx i
            else s.server.writers.set i rest).flatten =
              first.flatten ++ (rest ++ last.flatten) := by
          split_ifs with hnil
          · rw [herase, hnil, List.flatten_append, List.nil_append]
          · rw [List.set_eq_take_append_cons_drop, if_pos hlt, List.flatten_append,
              List.flatten_cons]
        have hold : s.server.writers.flatten.filterMap (bodyNumber kind) =
            first.flatten.filterMap (bodyNumber kind) ++ ((bodyNumber kind (h, body)).toList ++
              (rest ++ last.flatten).filterMap (bodyNumber kind)) := by
          rw [hwriters, List.flatten_append, List.flatten_cons, List.cons_append,
            List.filterMap_append, filterMap_cons_append]
        have hnew : (s.server.outgoing ++ [bytes]).filterMap (messageNumber m kind) =
            s.server.outgoing.filterMap (messageNumber m kind) ++
              (messageNumber m kind bytes).toList := by
          rw [List.filterMap_append, filterMap_cons_append, List.filterMap_nil, List.append_nil]
        have hmoved : (first.flatten ++ (rest ++ last.flatten)).filterMap (bodyNumber kind) =
            first.flatten.filterMap (bodyNumber kind) ++
              (rest ++ last.flatten).filterMap (bodyNumber kind) := List.filterMap_append ..
        have hfewer := (List.Sublist.refl (s.server.outgoing.filterMap
          (messageNumber m kind))).append (hnumber.append (List.Sublist.refl
            (first.flatten.filterMap (bodyNumber kind) ++
              (rest ++ last.flatten).filterMap (bodyNumber kind))))
        dsimp only
        rw [hnew, hrest, hmoved, hold, List.append_assoc]
        refine ⟨hfewer.subperm.trans (List.Perm.subperm ?_), fun hone => ?_⟩
        · refine List.Perm.append_left _ ?_
          rw [← List.append_assoc, ← List.append_assoc]
          exact List.perm_append_comm.append_right _
        · rw [hfirst hone] at hfewer ⊢
          exact hfewer
      · cases hput
  next => cases hput

theorem put_frame {i : ℕ} {server : Server R} (hput : s.server.put m i = some server) :
    server.computing = s.server.computing ∧
      server.viewport_requests = s.server.viewport_requests := by
  rw [Server.put] at hput
  split at hput
  · split at hput
    · obtain rfl := Option.some.inj hput
      exact ⟨rfl, rfl⟩
    · split at hput
      · obtain rfl := Option.some.inj hput
        exact ⟨rfl, rfl⟩
      · cases hput
  · cases hput

theorem Keeps.refl (l : List ℕ) : Keeps s l l := Keeps.of_sublist (List.Sublist.refl l)

theorem Keeps.of_eq {l l' : List ℕ} (h : l' = l) : Keeps s l l' := h ▸ Keeps.refl l'

theorem inFlight_receive {bytes : List UInt8} {down : List (List UInt8)}
    (hdown : s.down = bytes :: down) (client : Client S) : inFlight m kind s =
      (messageNumber m kind bytes).toList ++
        inFlight m kind { s with down := down, client := client } := by
  rw [inFlight, hdown, filterMap_cons_append, List.append_assoc]
  rfl

/-- Only a request brings in a number. -/
theorem inFlight_step (hkind : Counted (R := R) (S := S) kind) (h : step m s a = some t)
    (hreq : ∀ timestamp image region, a ≠ .request timestamp image region) :
    Keeps s (inFlight m kind s) (inFlight m kind t) := by
  cases a with
  | request timestamp image region => exact absurd rfl (hreq timestamp image region)
  | mouseenter | mouseleave | mousemove | imageTimeout | setStreaming | unsent =>
    obtain rfl := Option.some.inj h
    exact Keeps.refl _
  | push =>
    simp only [step] at h
    split at h
    · cases h
    next req up hup =>
      split at h
      · obtain rfl := Option.some.inj h
        exact Keeps.of_eq (by simp [inFlight, hup])
      · cases h
  | take =>
    simp only [step] at h
    split at h
    next req requests hrequests hnone =>
      obtain rfl := Option.some.inj h
      exact Keeps.of_eq (by simp [inFlight, hrequests, hnone])
    · cases h
  | answer elapsed =>
    simp only [step, Option.map_eq_some_iff] at h
    obtain ⟨req, hreq, rfl⟩ := h
    refine Keeps.of_sublist ?_
    have honce := (hkind.once m req elapsed).append (List.Sublist.refl
      (s.server.viewport_requests.map Request.seq_id ++ s.up.map Request.seq_id))
    simpa [inFlight, hreq] using honce
  | fail =>
    obtain rfl := Option.some.inj h
    refine Keeps.of_sublist ?_
    simp only [inFlight, Option.toList_none, List.map_nil, List.nil_append]
    refine (List.Sublist.refl _).append ((List.Sublist.refl _).append
      ((List.Sublist.refl _).append ?_))
    exact List.sublist_append_right _ _
  | put i =>
    simp only [step, Option.map_eq_some_iff] at h
    obtain ⟨server, hput, rfl⟩ := h
    have hframe := put_frame hput
    have hkeeps := (keeps_put hkind hput).append (s.down.filterMap (messageNumber m kind))
      (s.server.computing.toList.map Request.seq_id ++
        (s.server.viewport_requests.map Request.seq_id ++ s.up.map Request.seq_id))
    simpa only [inFlight, hframe.1, hframe.2, List.append_assoc] using hkeeps
  | other header body =>
    simp only [step] at h
    split at h
    next hother =>
      obtain ⟨bytes, hwrite, rfl⟩ := Option.map_eq_some_iff.mp h
      have hnone := hkind.other body hother.1
      have hnumber := messageNumber_write hkind hwrite
      rw [bodyNumber, hnone, if_neg Bool.false_ne_true, Option.toList_none, List.sublist_nil,
        Option.toList_eq_nil_iff] at hnumber
      exact Keeps.of_eq (by simp [inFlight, hnumber])
    · cases h
  | send =>
    simp only [step] at h
    split at h
    · cases h
    next bytes outgoing hout =>
      obtain rfl := Option.some.inj h
      exact Keeps.of_eq (by simp [inFlight, hout, filterMap_cons_append])
  | receive =>
    simp only [step] at h
    split at h
    · cases h
    next bytes down hdown =>
      obtain rfl := Option.some.inj h
      rw [inFlight_receive hdown]
      exact Keeps.of_sublist (List.sublist_append_right _ _)
  | update_spectrum =>
    simp only [step] at h
    split at h
    · cases h
    · obtain rfl := Option.some.inj h
      exact Keeps.refl _

theorem inFlight_request (kind : Received → Bool) {timestamp : UInt32} {image : Bool} {region : R}
    (h : step m s (.request timestamp image region) = some t) :
    inFlight m kind t = inFlight m kind s ++ [s.client.sent_seq_id + 1] := by
  obtain rfl := Option.some.inj h
  simp [inFlight]

end Flight

section Kinds

def isSpectrum : Received → Bool
  | .spectrum _ => true
  | _ => false

def isView : Received → Bool
  | .viewport _ => true
  | _ => false

theorem counted_spectrum : Counted (R := R) (S := S) isSpectrum where
  type r r' h := by cases r <;> cases r' <;> first | rfl | cases h
  seqId body n h := by cases body <;> first | rfl | cases h
  other body h := by cases body <;> first | rfl | cases h
  once m req elapsed := by
    rw [answers]
    split_ifs <;> exact List.Sublist.refl _

theorem counted_view : Counted (R := R) (S := S) isView where
  type r r' h := by cases r <;> cases r' <;> first | rfl | cases h
  seqId body n h := by cases body <;> first | rfl | cases h
  other body h := by cases body <;> first | rfl | cases h
  once m req elapsed := by
    rw [answers]
    split_ifs
    · exact List.Sublist.refl _
    · exact List.nil_sublist _

end Kinds

end XWebQL.LiveSession
