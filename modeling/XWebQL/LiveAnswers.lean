import XWebQL.LiveOrder

/-! Where the spectra and views of the client come from.
Whatever overtakes what, a spectrum that is plotted under a number is the answer to
the one request with this number, and so is a view that is shown. -/

namespace XWebQL.LiveAnswers

open Transition LiveMessages LiveSession LiveOrder
open Utf8 (latin1 encode)

variable {R S : Type} {m : Session R S} {s t : State R S} {a : Action R} {c : Client S}
  {requests requests' : List (Request R)}

section Answers

def Written (m : Session R S) (requests : List (Request R)) (p : Header × Body) : Prop :=
  isOther p.2 = true ∨ ∃ req ∈ requests, ∃ elapsed, p ∈ answers m req elapsed

def Sent (m : Session R S) (requests : List (Request R)) (bytes : List UInt8) : Prop :=
  ∃ p, Written m requests p ∧ write m.codec p.1 p.2 = some bytes

def IsSpectrum (m : Session R S) (req : Request R) (p : ℕ × List S) : Prop :=
  req.seq_id = p.1 ∧ m.parse (latin1 (encode (m.spectrum req.region))) = some p.2

def IsView (m : Session R S) (req : Request R) (p : ℕ × ReceivedView) : Prop :=
  req.seq_id = p.1 ∧ req.image = true ∧ (m.viewport req.region).received = p.2

structure Flow (m : Session R S) (s : State R S) : Prop where
  up : ∀ req ∈ s.up, req ∈ s.requests
  waiting : ∀ req ∈ s.server.viewport_requests, req ∈ s.requests
  computing : ∀ req ∈ s.server.computing, req ∈ s.requests
  writers : ∀ writer ∈ s.server.writers, ∀ p ∈ writer, Written m s.requests p
  outgoing : ∀ bytes ∈ s.server.outgoing, Sent m s.requests bytes
  down : ∀ bytes ∈ s.down, Sent m s.requests bytes

structure Seen (m : Session R S) (requests : List (Request R)) (c : Client S) : Prop where
  stack : ∀ p ∈ c.spectrum_stack, ∃ req ∈ requests, IsSpectrum m req p
  plotted : ∀ p ∈ c.plotted, ∃ req ∈ requests, IsSpectrum m req p
  shown : ∀ p ∈ c.shown, ∃ req ∈ requests, IsView m req p

theorem Written.mono {p : Header × Body} (hsub : requests ⊆ requests')
    (h : Written m requests p) : Written m requests' p := by
  rcases h with h | ⟨req, hreq, elapsed, hp⟩
  · exact Or.inl h
  · exact Or.inr ⟨req, hsub hreq, elapsed, hp⟩

theorem Sent.mono {bytes : List UInt8} (hsub : requests ⊆ requests')
    (h : Sent m requests bytes) : Sent m requests' bytes := by
  obtain ⟨p, hp, hwrite⟩ := h
  exact ⟨p, hp.mono hsub, hwrite⟩

theorem Seen.mono (hsub : requests ⊆ requests') (h : Seen m requests c) : Seen m requests' c where
  stack p hp := (h.stack p hp).imp fun _ hreq => ⟨hsub hreq.1, hreq.2⟩
  plotted p hp := (h.plotted p hp).imp fun _ hreq => ⟨hsub hreq.1, hreq.2⟩
  shown p hp := (h.shown p hp).imp fun _ hreq => ⟨hsub hreq.1, hreq.2⟩

theorem flow_put {i : ℕ} {server : Server R} (hs : Flow m s)
    (hput : s.server.put m i = some server) : Flow m { s with server := server } := by
  have hframe := put_frame hput
  have hwaiting : ∀ req ∈ server.viewport_requests, req ∈ s.requests := by
    rw [hframe.2]
    exact hs.waiting
  have hcomputing : ∀ req ∈ server.computing, req ∈ s.requests := by
    rw [hframe.1]
    exact hs.computing
  rw [Server.put] at hput
  split at hput
  next h body rest hi =>
    have hwriter := hs.writers _ (List.mem_of_getElem? hi)
    have herase : ∀ writer ∈ s.server.writers.eraseIdx i, ∀ p ∈ writer, Written m s.requests p :=
      fun writer hmem => hs.writers writer (List.mem_of_mem_eraseIdx hmem)
    split at hput
    next =>
      obtain rfl := Option.some.inj hput
      exact ⟨hs.up, hwaiting, hcomputing, herase, hs.outgoing, hs.down⟩
    next bytes hwrite =>
      split at hput
      · obtain rfl := Option.some.inj hput
        refine ⟨hs.up, hwaiting, hcomputing, ?_, ?_, hs.down⟩
        · dsimp only
          split_ifs
          · exact herase
          · intro writer hmem p hp
            rcases List.mem_or_eq_of_mem_set hmem with hmem | rfl
            · exact hs.writers writer hmem p hp
            · exact hwriter p (List.mem_cons_of_mem _ hp)
        · refine List.forall_mem_append.mpr ⟨hs.outgoing, List.forall_mem_singleton.mpr ?_⟩
          exact ⟨(h, body), hwriter _ List.mem_cons_self, hwrite⟩
      · cases hput
  next => cases hput

theorem flow_request (hs : Flow m s) (req : Request R) (client : Client S) : Flow m { s with
    client := client, requests := s.requests ++ [req], up := s.up ++ [req] } := by
  have hsub : s.requests ⊆ s.requests ++ [req] := List.subset_append_left _ _
  refine ⟨?_, fun r hr => hsub (hs.waiting r hr), fun r hr => hsub (hs.computing r hr),
    fun writer hwriter p hp => (hs.writers writer hwriter p hp).mono hsub,
    fun bytes hbytes => (hs.outgoing bytes hbytes).mono hsub,
    fun bytes hbytes => (hs.down bytes hbytes).mono hsub⟩
  refine List.forall_mem_append.mpr ⟨fun r hr => hsub (hs.up r hr), ?_⟩
  exact List.forall_mem_singleton.mpr (List.mem_append_right _ List.mem_cons_self)

theorem flow_step (h : step m s a = some t) (hs : Flow m s) : Flow m t := by
  cases a with
  | mouseenter | mouseleave | mousemove | imageTimeout | setStreaming | unsent =>
    obtain rfl := Option.some.inj h
    exact ⟨hs.up, hs.waiting, hs.computing, hs.writers, hs.outgoing, hs.down⟩
  | request timestamp image region =>
    obtain rfl := Option.some.inj h
    exact flow_request hs _ _
  | push =>
    simp only [step] at h
    split at h
    · cases h
    next req up hup =>
      have hreqs := hs.up
      rw [hup, List.forall_mem_cons] at hreqs
      split at h
      · obtain rfl := Option.some.inj h
        exact ⟨hreqs.2,
          List.forall_mem_append.mpr ⟨hs.waiting, List.forall_mem_singleton.mpr hreqs.1⟩,
          hs.computing, hs.writers, hs.outgoing, hs.down⟩
      · cases h
  | take =>
    simp only [step] at h
    split at h
    next req requests hrequests hnone =>
      have hreqs := hs.waiting
      rw [hrequests, List.forall_mem_cons] at hreqs
      obtain rfl := Option.some.inj h
      exact ⟨hs.up, hreqs.2, fun r hr => Option.some.inj hr ▸ hreqs.1, hs.writers, hs.outgoing,
        hs.down⟩
    · cases h
  | answer elapsed =>
    obtain ⟨req, hreq, rfl⟩ := Option.map_eq_some_iff.mp h
    refine ⟨hs.up, hs.waiting, (fun r hr => by cases hr), ?_, hs.outgoing, hs.down⟩
    refine List.forall_mem_append.mpr ⟨hs.writers, List.forall_mem_singleton.mpr fun p hp => ?_⟩
    exact Or.inr ⟨req, hs.computing req hreq, elapsed, hp⟩
  | fail =>
    obtain rfl := Option.some.inj h
    exact ⟨hs.up, hs.waiting, (fun r hr => by cases hr), hs.writers, hs.outgoing, hs.down⟩
  | put i =>
    obtain ⟨server, hput, rfl⟩ := Option.map_eq_some_iff.mp h
    exact flow_put hs hput
  | other header body =>
    simp only [step] at h
    split at h
    next hother =>
      obtain ⟨bytes, hwrite, rfl⟩ := Option.map_eq_some_iff.mp h
      refine ⟨hs.up, hs.waiting, hs.computing, hs.writers, ?_, hs.down⟩
      refine List.forall_mem_append.mpr ⟨hs.outgoing, List.forall_mem_singleton.mpr ?_⟩
      exact ⟨(header, body), Or.inl hother.1, hwrite⟩
    · cases h
  | send =>
    simp only [step] at h
    split at h
    · cases h
    next bytes outgoing hout =>
      have hsent := hs.outgoing
      rw [hout, List.forall_mem_cons] at hsent
      obtain rfl := Option.some.inj h
      exact ⟨hs.up, hs.waiting, hs.computing, hs.writers, hsent.2,
        List.forall_mem_append.mpr ⟨hs.down, List.forall_mem_singleton.mpr hsent.1⟩⟩
  | receive =>
    obtain ⟨bytes, down, hdown, rfl⟩ := receive_step h
    have hsent := hs.down
    rw [hdown, List.forall_mem_cons] at hsent
    exact ⟨hs.up, hs.waiting, hs.computing, hs.writers, hs.outgoing, hsent.2⟩
  | update_spectrum =>
    rw [update_step h]
    exact ⟨hs.up, hs.waiting, hs.computing, hs.writers, hs.outgoing, hs.down⟩

theorem mem_answers {req : Request R} {elapsed : UInt32} {h : Header} {body : Body}
    (hmem : (h, body) ∈ answers m req elapsed) : h.seq_id = req.seq_id ∧
      (body = .spectrum (m.spectrum req.region) ∨
        req.image = true ∧ body = .viewport (m.viewport req.region)) := by
  rw [answers] at hmem
  split_ifs at hmem with himage
  · rcases List.mem_cons.mp hmem with heq | hmem
    · obtain ⟨rfl, rfl⟩ := Prod.mk.inj heq
      exact ⟨rfl, Or.inr ⟨himage, rfl⟩⟩
    · obtain ⟨rfl, rfl⟩ := Prod.mk.inj (List.mem_singleton.mp hmem)
      exact ⟨rfl, Or.inl rfl⟩
  · obtain ⟨rfl, rfl⟩ := Prod.mk.inj (List.mem_singleton.mp hmem)
    exact ⟨rfl, Or.inl rfl⟩

/-- Messages of other tasks are received as such, whatever the decoder makes of them. -/
theorem type_of_other {body : Body} (hother : isOther body = true) : 2 ≤ body.type := by
  cases body with
  | spectrum | viewport => cases hother
  | video | image | fullSpectrum => simp [Body.type]

theorem spectrum_of_sent {bytes : List UInt8} {r : ℕ × ℕ × Received} {text : List Char}
    (hbytes : Sent m requests bytes) (hread : receive m.codec bytes = some r)
    (hkind : r.2.2 = .spectrum text) :
    ∃ req ∈ requests, req.seq_id = r.2.1 ∧ text = latin1 (encode (m.spectrum req.region)) := by
  obtain ⟨⟨h, body⟩, hwritten, hwrite⟩ := hbytes
  obtain ⟨-, htype⟩ := type_of_receive hwrite hread
  rw [hkind] at htype
  rcases hwritten with hother | ⟨req, hreq, elapsed, hmem⟩
  · have hge := type_of_other hother
    rw [← htype] at hge
    exact absurd hge (Nat.not_succ_le_zero 1)
  · obtain ⟨hseq, rfl | ⟨-, rfl⟩⟩ := mem_answers hmem
    · have hrestored : (Body.spectrum (m.spectrum req.region)).Restored m.codec :=
        m.texts req.region
      have hreceived := receive_of_write hrestored hwrite
      obtain rfl := Option.some.inj (hread.symm.trans hreceived)
      exact ⟨req, hreq, hseq.symm, (Received.spectrum.inj hkind).symm⟩
    · cases htype

theorem view_of_sent {bytes : List UInt8} {r : ℕ × ℕ × Received} {view : ReceivedView}
    (hbytes : Sent m requests bytes) (hread : receive m.codec bytes = some r)
    (hkind : r.2.2 = .viewport view) :
    ∃ req ∈ requests, req.seq_id = r.2.1 ∧ req.image = true ∧
      (m.viewport req.region).received = view := by
  obtain ⟨⟨h, body⟩, hwritten, hwrite⟩ := hbytes
  obtain ⟨-, htype⟩ := type_of_receive hwrite hread
  rw [hkind] at htype
  rcases hwritten with hother | ⟨req, hreq, elapsed, hmem⟩
  · have hge := type_of_other hother
    rw [← htype] at hge
    exact absurd hge (Nat.not_succ_le_self 1)
  · obtain ⟨hseq, rfl | ⟨himage, rfl⟩⟩ := mem_answers hmem
    · cases htype
    · have hrestored : (Body.viewport (m.viewport req.region)).Restored m.codec :=
        m.masks req.region
      have hreceived := receive_of_write hrestored hwrite
      obtain rfl := Option.some.inj (hread.symm.trans hreceived)
      exact ⟨req, hreq, hseq.symm, himage, Received.viewport.inj hkind⟩

theorem seen_receive {bytes : List UInt8} {r : ℕ × ℕ × Received} (hbytes : Sent m requests bytes)
    (hread : receive m.codec bytes = some r) (hc : Seen m requests c) :
    Seen m requests (c.handle m r) := by
  rcases handle_cases m c r with heq | ⟨text, spectrum, hkind, hparse, -, heq⟩ | ⟨view, hkind, heq⟩
  · rwa [heq]
  · obtain ⟨req, hreq, hseq, rfl⟩ := spectrum_of_sent hbytes hread hkind
    rw [heq]
    exact ⟨List.forall_mem_cons.mpr ⟨⟨req, hreq, hseq, hparse⟩, hc.stack⟩, hc.plotted, hc.shown⟩
  · obtain ⟨req, hreq, hseq, himage, hview⟩ := view_of_sent hbytes hread hkind
    rw [heq]
    exact ⟨hc.stack, hc.plotted, List.forall_mem_append.mpr ⟨hc.shown,
      List.forall_mem_singleton.mpr ⟨req, hreq, hseq, himage, hview⟩⟩⟩

theorem seen_update (hc : Seen m requests c) : Seen m requests c.update_spectrum := by
  rcases update_cases c with h | ⟨top, rest, hstack, -, h⟩
  · rw [h]
    exact ⟨by simpa using hc.stack, by simpa using hc.plotted, by simpa using hc.shown⟩
  · have htop := hc.stack top (by rw [hstack]; exact List.mem_cons_self)
    rw [h]
    refine ⟨by simp, ?_, by simpa using hc.shown⟩
    rw [again_plotted]
    exact List.forall_mem_append.mpr ⟨hc.plotted, List.forall_mem_singleton.mpr htop⟩

theorem seen_step (h : step m s a = some t) (hflow : Flow m s)
    (hs : Seen m s.requests s.client) : Seen m t.requests t.client := by
  by_cases hremote : isRemote a = true
  · obtain ⟨hclient, hrequests⟩ := client_of_remote hremote h
    rwa [hclient, hrequests]
  · cases a with
    | push | take | answer | put | other | send | fail => exact absurd rfl hremote
    | mouseenter | mouseleave =>
      obtain rfl := Option.some.inj h
      exact ⟨List.forall_mem_nil _, hs.plotted, hs.shown⟩
    | mousemove | imageTimeout | setStreaming | unsent =>
      obtain rfl := Option.some.inj h
      exact ⟨hs.stack, hs.plotted, hs.shown⟩
    | request timestamp image region =>
      obtain rfl := Option.some.inj h
      have hmore := hs.mono (List.subset_append_left s.requests
        [⟨s.client.sent_seq_id + 1, timestamp, image, region⟩])
      exact ⟨hmore.stack, hmore.plotted, hmore.shown⟩
    | receive =>
      obtain ⟨bytes, down, hdown, rfl⟩ := receive_step h
      cases hread : receive m.codec bytes with
      | none => exact hs
      | some r => exact seen_receive (hflow.down bytes (hdown ▸ List.mem_cons_self)) hread hs
    | update_spectrum =>
      rw [update_step h]
      exact seen_update hs

end Answers

section Runs

theorem requests_of_other (h : step m s a = some t)
    (hreq : ∀ timestamp image region, a ≠ .request timestamp image region) :
    t.requests = s.requests := by
  by_cases hremote : isRemote a = true
  · exact (client_of_remote hremote h).2
  · cases a with
    | push | take | answer | put | other | send | fail => exact absurd rfl hremote
    | request timestamp image region => exact absurd rfl (hreq timestamp image region)
    | mouseenter | mouseleave | mousemove | imageTimeout | setStreaming | unsent =>
      obtain rfl := Option.some.inj h
      rfl
    | receive =>
      obtain ⟨bytes, down, -, rfl⟩ := receive_step h
      rfl
    | update_spectrum => rw [update_step h]

theorem requests_step (h : step m s a = some t)
    (hs : Ordered (s.requests.map Request.seq_id) s.client.sent_seq_id) :
    Ordered (t.requests.map Request.seq_id) t.client.sent_seq_id := by
  by_cases hreq : ∃ timestamp image region, a = .request timestamp image region
  · obtain ⟨timestamp, image, region, rfl⟩ := hreq
    obtain rfl := Option.some.inj h
    dsimp only
    rw [List.map_append]
    exact hs.next (Nat.lt_succ_self _)
  · have hsame := requests_of_other h fun timestamp image region heq =>
      hreq ⟨timestamp, image, region, heq⟩
    rw [hsame]
    exact hs.sublist (List.Sublist.refl _) (sent_le h)

structure Genuine (m : Session R S) (s : State R S) : Prop where
  flow : Flow m s
  seen : Seen m s.requests s.client
  numbers : Ordered (s.requests.map Request.seq_id) s.client.sent_seq_id

theorem Genuine.of_reachable (hs : Reachable (system m) s) : Genuine m s := by
  refine hs.invariant (Genuine m) ?_ fun s a t hgenuine _ h => ?_
  · refine ⟨⟨?_, ?_, ?_, ?_, ?_, ?_⟩, ⟨?_, ?_, ?_⟩, List.Pairwise.nil, ?_⟩ <;>
      simp [system, Server.start, Client.start]
  · exact ⟨flow_step h hgenuine.flow, seen_step h hgenuine.flow hgenuine.seen,
      requests_step h hgenuine.numbers⟩

theorem request_unique {l : List (Request R)} (hl : (l.map Request.seq_id).Pairwise (· < ·))
    {req req' : Request R} (hreq : req ∈ l) (hreq' : req' ∈ l) (h : req.seq_id = req'.seq_id) :
    req = req' :=
  List.inj_on_of_nodup_map (hl.imp fun hlt => hlt.ne) hreq hreq' h

def comesBack : Action R → Bool
  | .mouseenter => true
  | .mousemove => true
  | _ => false

theorem windowLeft_step (h : step m s a = some t) (hback : comesBack a = false)
    (hleft : s.client.windowLeft = true) : t.client.windowLeft = true := by
  by_cases hremote : isRemote a = true
  · rwa [(client_of_remote hremote h).1]
  · cases a with
    | push | take | answer | put | other | send | fail => exact absurd rfl hremote
    | mouseenter | mousemove => cases hback
    | mouseleave =>
      obtain rfl := Option.some.inj h
      simp [Client.mouseleave, hleft]
    | imageTimeout | setStreaming | unsent | request =>
      obtain rfl := Option.some.inj h
      exact hleft
    | receive =>
      obtain ⟨bytes, down, -, rfl⟩ := receive_step h
      cases hread : receive m.codec bytes with
      | none => exact hleft
      | some r =>
        rcases handle_cases m s.client r with heq | ⟨text, spectrum, -, -, -, heq⟩ | ⟨view, -, heq⟩ <;>
          simpa [heq] using hleft
    | update_spectrum =>
      rw [update_step h]
      rcases update_cases s.client with heq | ⟨top, rest, -, -, heq⟩ <;> simpa [heq] using hleft

theorem windowLeft_exec {actions : List (Action R)} {u : State R S}
    (h : (system m).exec (fun _ _ => True) s actions = some u)
    (hback : ∀ a ∈ actions, comesBack a = false) (hleft : s.client.windowLeft = true) :
    u.client.windowLeft = true := by
  induction actions generalizing s with
  | nil =>
    obtain rfl := Option.some.inj h
    exact hleft
  | cons a actions ih =>
    rw [System.exec, if_pos trivial, Option.bind_eq_some_iff] at h
    obtain ⟨t, ht, h⟩ := h
    obtain ⟨ha, hback⟩ := List.forall_mem_cons.mp hback
    exact ih h hback (windowLeft_step ht ha hleft)

/-- In every run the plotted numbers only grow, each plotted spectrum is the answer to the
one request with its number, and nothing waits from the pointer leaving the image without
the Shift key until it is back. -/
theorem plotted_answers (hs : Reachable (system m) s) :
    (s.client.plotted.map Prod.fst).Pairwise (· < ·) ∧
      (∀ p ∈ s.client.plotted, ∃! req, req ∈ s.requests ∧ IsSpectrum m req p) ∧
      ∀ actions u, (∀ a ∈ actions, comesBack a = false) →
        (system m).exec (fun _ _ => True) s (.mouseleave false :: actions) = some u →
          u.client.spectrum_stack = [] := by
  have hgenuine := Genuine.of_reachable hs
  have hinv := Inv.of_reachable hs
  refine ⟨hinv.plots.1.1, fun p hp => ?_, fun actions u hback hu => ?_⟩
  · obtain ⟨req, hreq, hanswer⟩ := hgenuine.seen.plotted p hp
    refine ⟨req, ⟨hreq, hanswer⟩, fun req' hreq' => ?_⟩
    exact request_unique hgenuine.numbers.1 hreq'.1 hreq (hreq'.2.1.trans hanswer.1.symm)
  · have huReachable := hs.exec hu
    rw [System.exec, if_pos trivial, Option.bind_eq_some_iff] at hu
    obtain ⟨t, ht, hu⟩ := hu
    obtain rfl := Option.some.inj ht
    refine (Inv.of_reachable huReachable).plots.2 (windowLeft_exec hu hback ?_)
    simp [Client.mouseleave]

theorem plotted_answers_example : ∃ s : State Unit Unit,
    s.client.plotted = [(2, [()])] ∧
      (∀ p ∈ s.client.plotted, ∃! req, req ∈ s.requests ∧ IsSpectrum oneRegion req p) ∧
      ∀ u, (system oneRegion).exec (fun _ _ => True) s [.mouseleave false, .update_spectrum] =
        some u → u.client.spectrum_stack = [] := by
  have hs := reachable_exec (system oneRegion) (overtaking ++ [.update_spectrum]) (by decide)
  have hanswers := plotted_answers hs
  exact ⟨_, by decide, hanswers.2.1, fun u => hanswers.2.2 [.update_spectrum] u (by decide)⟩

/-- With the Shift key a spectrum that arrives afterwards waits for the next frame. -/
example : ((system oneRegion).exec (fun _ _ => True) (system oneRegion).init
    [.mouseenter, .request 0 false (), .push, .take, .answer 0, .put 0, .send, .mouseleave true,
      .receive]).map (fun s => s.client.spectrum_stack) = some [(2, [()])] := by
  decide

/-- In every run a view is shown once at most, for the one request that asked for it. -/
theorem shown_answers (hs : Reachable (system m) s) :
    (s.client.shown.map Prod.fst).Nodup ∧
      ∀ p ∈ s.client.shown, ∃! req, req ∈ s.requests ∧ IsView m req p := by
  have hgenuine := Genuine.of_reachable hs
  have hinv := Inv.of_reachable hs
  refine ⟨(List.nodup_append.mp hinv.views.1).1, fun p hp => ?_⟩
  obtain ⟨req, hreq, hanswer⟩ := hgenuine.seen.shown p hp
  refine ⟨req, ⟨hreq, hanswer⟩, fun req' hreq' => ?_⟩
  exact request_unique hgenuine.numbers.1 hreq'.1 hreq (hreq'.2.1.trans hanswer.1.symm)

def viewed : List (Action Unit) :=
  [.mouseenter, .request 0 true (), .push, .take, .answer 0, .put 0, .put 0, .send, .send,
    .receive, .receive]

theorem shown_answers_example : ∃ s : State Unit Unit,
    s.client.shown.map Prod.fst = [2] ∧
      ∀ p ∈ s.client.shown, ∃! req, req ∈ s.requests ∧ IsView oneRegion req p := by
  have hs := reachable_exec (system oneRegion) viewed (by decide)
  exact ⟨_, by decide, (shown_answers hs).2⟩

end Runs

end XWebQL.LiveAnswers
