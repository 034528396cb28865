import XWebQL.VideoHandles

/-! How a session comes to its end.
A run of tidy steps never leaves the message loop waiting for something that does
not come: from every state it reaches, the steps of the server and the loss of
the connection lead to the end of the loop, where every x265 object has been
released. The last part of the file shows the ways to go wrong. -/

namespace XWebQL.VideoEnd

open Transition VideoSession VideoHandles

/-- The steps of the server, without exceptions, and the loss of the connection. -/
def own : Act → Bool
  | .receiveInit _ | .receiveEnd | .receiveHeartbeat | .video _ | .abort | .putOther => false
  | .frame _ .fail => false
  | _ => true

def Forward (s : State) (a : Act) : Prop := own a = true ∧ Tidy s a

def stored : Stage → Bool
  | .planesStored | .locked | .filling _ _ => true
  | _ => false

structure Loop (s : State) : Prop where
  isOpen : s.main ≠ .closing → s.main ≠ .closed → s.outgoing.isOpen = true
  isClosed : s.main = .closing → s.outgoing.isOpen = false
  image : s.main = .scaled ∨ s.main = .replied → s.image.isSome = true
  room : s.outgoing.messages.length ≤ 32

/-- What a frame task reads is there. -/
structure Ready (s : State) (T : Task) : Prop where
  luma : T.stage = .lumaStored ∨ stored T.stage = true → s.luma.isSome = true
  alpha : stored T.stage = true → s.alpha.isSome = true
  filling : ∀ picture planes, T.stage = .filling picture planes → planes.length ≤ 6

def Held (s : State) : Prop :=
  ∀ t, s.video_mtx = some t →
    ∃ T, s.tasks[t]? = some T ∧ (T.stage.inside = true ∨ T.stage = .leaving)

section Waiting

theorem waiting_step {s s' : State} {a : Act}
    (h : waits s.main = true → s.outgoing.sending = true) (ha : Tidy s a)
    (hstep : step s a = some s') : waits s'.main = true → s'.outgoing.sending = true := by
  cases a with
  | receiveInit inner | initError | endVideo | echo | abort | disconnect | cleanUp =>
    rw [step, Option.ite_none_right_eq_some, Option.some_inj] at hstep
    rw [← hstep.2]
    exact fun hwaits => absurd hwaits Bool.false_ne_true
  | receiveEnd | receiveHeartbeat =>
    rw [step, Option.ite_none_right_eq_some, Option.some_inj] at hstep
    rw [← hstep.2]
    exact fun _ => ha
  | video r | skip | putOther =>
    rw [step, Option.ite_none_right_eq_some, Option.some_inj] at hstep
    rw [← hstep.2]
    exact h
  | initReply =>
    rw [step, Option.ite_none_right_eq_some, Option.some_inj] at hstep
    rw [← hstep.2]
    exact fun _ => h (by rw [hstep.1.1]; rfl)
  | initScale downsized =>
    simp only [step, Option.bind_eq_bind, Option.bind_eq_some_iff,
      Option.ite_none_right_eq_some, Option.some_inj] at hstep
    obtain ⟨inner, -, -, rfl⟩ := hstep
    exact fun _ => ha.2
  | initEncoder outcome =>
    simp only [step, Option.bind_eq_bind, Option.bind_eq_some_iff,
      Option.ite_none_right_eq_some, Option.some_inj] at hstep
    obtain ⟨image, -, -, rfl⟩ := hstep
    exact fun hwaits => absurd hwaits Bool.false_ne_true
  | spawn =>
    simp only [step, spawn] at hstep
    split at hstep
    next =>
      rw [Option.ite_none_right_eq_some, Option.some_inj] at hstep
      rw [← hstep.2]
      exact h
    next => cases hstep
  | frame t op =>
    rw [step, Option.bind_eq_some_iff] at hstep
    obtain ⟨T, -, hstep⟩ := hstep
    cases frameStep_move hstep <;> exact h
  | take =>
    simp only [step] at hstep
    split at hstep
    next =>
      rw [Option.ite_none_right_eq_some, Option.some_inj] at hstep
      rw [← hstep.2]
      exact h
    next => cases hstep
  | stopSending =>
    obtain rfl := Option.some.inj hstep
    intro hwaits
    rw [show waits s.main = false from ha] at hwaits
    cases hwaits

end Waiting

section Reached

variable {s s' : State} {t : ℕ} {T : Task} {stage : Stage} {op : FrameOp} {a : Act}

theorem length_put_le {q : Outgoing} {m : Message} (hroom : q.hasRoom = true) :
    (q.put m).messages.length ≤ 32 := by
  rw [Outgoing.hasRoom, Bool.and_eq_true, decide_eq_true_eq] at hroom
  rw [Outgoing.put, List.length_append]
  exact hroom.2

theorem loop_between (h : Loop s) {main : Main}
    (hmain : main = s.main ∨ main.between = true ∧ s.main.between = true) :
    (main ≠ .closing → main ≠ .closed → s.outgoing.isOpen = true) ∧
      (main = .closing → s.outgoing.isOpen = false) ∧
      (main = .scaled ∨ main = .replied → s.image.isSome = true) := by
  have hclosing : main = .closing ↔ s.main = .closing :=
    iff_of_between (· = .closing) hmain fun m hm h => by rw [h] at hm; nomatch hm
  have hscaled : main = .scaled ↔ s.main = .scaled :=
    iff_of_between (· = .scaled) hmain fun m hm h => by rw [h] at hm; nomatch hm
  have hreplied : main = .replied ↔ s.main = .replied :=
    iff_of_between (· = .replied) hmain fun m hm h => by rw [h] at hm; nomatch hm
  rw [ne_eq, ne_eq, hclosing, closed_iff hmain, hscaled, hreplied]
  exact ⟨h.isOpen, h.isClosed, h.image⟩

theorem loop_move (h : Loop s) (hmove : Move s a s') : Loop s' := by
  cases hmove with
  | frame hT hmove =>
    cases hmove with
    | put hstage hheader hroom => exact ⟨h.isOpen, h.isClosed, h.image, length_put_le hroom⟩
    | _ => exact ⟨h.isOpen, h.isClosed, h.image, h.room⟩
  | spawn => exact ⟨h.isOpen, h.isClosed, h.image, h.room⟩
  | initScale hmain hinner =>
    exact ⟨fun _ _ => h.isOpen (by simp [hmain]) (by simp [hmain]), nofun, fun _ => rfl, h.room⟩
  | initReply hmain hroom =>
    exact ⟨fun _ _ => h.isOpen (by simp [hmain]) (by simp [hmain]), nofun,
      fun _ => h.image (.inl hmain), length_put_le hroom⟩
  | initEncoder hmain hfree himage =>
    exact ⟨fun _ _ => h.isOpen (by simp [hmain]) (by simp [hmain]), nofun, nofun, h.room⟩
  | endVideo hmain hfree =>
    exact ⟨fun _ _ => h.isOpen (by simp [hmain]) (by simp [hmain]), nofun, nofun, h.room⟩
  | cleanUp hmain => exact ⟨fun _ h => absurd rfl h, nofun, nofun, h.room⟩
  | abort hmain =>
    exact ⟨fun _ _ => h.isOpen (by simp [hmain]) (by simp [hmain]), nofun, nofun, h.room⟩
  | disconnect hmain => exact ⟨fun h => absurd rfl h, fun _ => rfl, nofun, h.room⟩
  | take hmessages =>
    have hroom := h.room
    rw [hmessages, List.length_cons] at hroom
    exact ⟨h.isOpen, h.isClosed, h.image, Nat.le_of_succ_le hroom⟩
  | putOther hroom hmain =>
    obtain ⟨hopened, hclosed, himage⟩ := loop_between h hmain
    exact ⟨hopened, hclosed, himage, length_put_le hroom⟩
  | quiet hmain =>
    obtain ⟨hopened, hclosed, himage⟩ := loop_between h hmain
    exact ⟨hopened, hclosed, himage, h.room⟩

theorem ready_of_not_stored (h : stored T.stage = false) (hnot : T.stage ≠ .lumaStored) :
    Ready s T := by
  refine ⟨?_, ?_, ?_⟩
  · rintro (hstage | hstage)
    · exact absurd hstage hnot
    · rw [h] at hstage
      nomatch hstage
  · rw [h]
    exact nofun
  · intro picture planes hstage
    rw [hstage] at h
    nomatch h

theorem Ready.of_kept (h : Ready s T) (hluma : s.luma.isSome = true → s'.luma.isSome = true)
    (halpha : s.alpha.isSome = true → s'.alpha.isSome = true) : Ready s' T :=
  ⟨fun hstage => hluma (h.luma hstage), fun hstage => halpha (h.alpha hstage), h.filling⟩

theorem ready_moved (h : ∀ U ∈ s.tasks, Ready s U)
    (htasks : s'.tasks = (s.setStage t T stage).tasks)
    (hluma : s.luma.isSome = true → s'.luma.isSome = true)
    (halpha : s.alpha.isSome = true → s'.alpha.isSome = true)
    (hnew : Ready s' { T with stage }) : ∀ U ∈ s'.tasks, Ready s' U := by
  intro U hU
  rw [htasks] at hU
  rcases List.mem_or_eq_of_mem_set hU with hU | rfl
  · exact (h U hU).of_kept hluma halpha
  · exact hnew

theorem ready_frame (h : ∀ U ∈ s.tasks, Ready s U) (hT : s.tasks[t]? = some T)
    (hmove : FrameMove s t T op s') : ∀ U ∈ s'.tasks, Ready s' U := by
  have hready := h T (List.mem_of_getElem? hT)
  cases hmove with
  | storeLuma hstage =>
    exact ready_moved h rfl (fun _ => rfl) (fun h => h) ⟨fun _ => rfl, nofun, nofun⟩
  | storeAlpha hstage =>
    exact ready_moved h rfl (fun h => h) (fun _ => rfl)
      ⟨fun _ => hready.luma (.inl hstage), fun _ => rfl, nofun⟩
  | lock hstage hfree =>
    have hstored : stored T.stage = true := by
      rw [hstage]
      rfl
    exact ready_moved h rfl (fun h => h) (fun h => h)
      ⟨fun _ => hready.luma (.inr hstored), fun _ => hready.alpha hstored, nofun⟩
  | picture hstage hpicture =>
    have hstored : stored T.stage = true := by
      rw [hstage]
      rfl
    refine ready_moved h rfl (fun h => h) (fun h => h)
      ⟨fun _ => hready.luma (.inr hstored), fun _ => hready.alpha hstored, ?_⟩
    intro picture' planes hfilling
    rw [Stage.filling.injEq] at hfilling
    rw [← hfilling.2]
    exact Nat.zero_le 6
  | readPlane hstage hlength hplane =>
    have hstored : stored T.stage = true := by
      rw [hstage]
      rfl
    refine ready_moved h rfl (fun h => h) (fun h => h)
      ⟨fun _ => hready.luma (.inr hstored), fun _ => hready.alpha hstored, ?_⟩
    intro picture' planes' hfilling
    rw [Stage.filling.injEq] at hfilling
    rw [← hfilling.2, List.length_append]
    exact hlength
  | encode | put | drop | leave | unlock =>
    exact ready_moved h rfl (fun h => h) (fun h => h) (ready_of_not_stored rfl nofun)

theorem ready_move (h : ∀ U ∈ s.tasks, Ready s U) (hmove : Move s a s') :
    ∀ U ∈ s'.tasks, Ready s' U := by
  cases hmove with
  | frame hT hmove => exact ready_frame h hT hmove
  | spawn hinner himage hmain =>
    intro U hU
    rcases List.mem_append.mp hU with hU | hU
    · exact (h U hU).of_kept (fun h => h) fun h => h
    · rw [List.mem_singleton.mp hU]
      exact ready_of_not_stored rfl nofun
  | _ => exact fun U hU => (h U hU).of_kept (fun h => h) fun h => h

theorem held_moved (h : Held s) (hT : s.tasks[t]? = some T)
    (htasks : s'.tasks = (s.setStage t T stage).tasks) (hmtx : s'.video_mtx = s.video_mtx)
    (hkeep : T.stage.inside = true ∨ T.stage = .leaving →
      stage.inside = true ∨ stage = .leaving) : Held s' := by
  intro u hu
  rw [hmtx] at hu
  obtain ⟨U, hU, hstage⟩ := h u hu
  rw [htasks]
  by_cases hut : u = t
  · subst hut
    obtain rfl : T = U := Option.some.inj (hT.symm.trans hU)
    exact ⟨_, List.getElem?_set_self (List.getElem?_eq_some_iff.mp hT).1, hkeep hstage⟩
  · exact ⟨U, (List.getElem?_set_ne (Ne.symm hut)).trans hU, hstage⟩

theorem held_frame (h : Held s) (hT : s.tasks[t]? = some T) (hmove : FrameMove s t T op s') :
    Held s' := by
  cases hmove with
  | storeLuma hstage | storeAlpha hstage =>
    exact held_moved h hT rfl rfl (by rw [hstage]; exact fun h => by simp [Stage.inside] at h)
  | lock hstage hfree =>
    intro u hu
    obtain rfl := Option.some.inj hu
    exact ⟨_, List.getElem?_set_self (List.getElem?_eq_some_iff.mp hT).1, .inl rfl⟩
  | picture | readPlane | encode | put => exact held_moved h hT rfl rfl fun _ => .inl rfl
  | drop | leave => exact held_moved h hT rfl rfl fun _ => .inr rfl
  | unlock hstage =>
    by_cases howner : s.video_mtx = some t
    · intro u hu
      rw [if_pos howner] at hu
      nomatch hu
    · intro u hu
      rw [if_neg howner] at hu
      have hne : u ≠ t := fun h => howner (h ▸ hu)
      obtain ⟨U, hU, hinside⟩ := h u hu
      exact ⟨U, (List.getElem?_set_ne (Ne.symm hne)).trans hU, hinside⟩

theorem held_move (h : Held s) (hmove : Move s a s') : Held s' := by
  cases hmove with
  | frame hT hmove => exact held_frame h hT hmove
  | spawn hinner himage hmain =>
    intro u hu
    obtain ⟨U, hU, hinside⟩ := h u hu
    exact ⟨U, (List.getElem?_append_left (List.getElem?_eq_some_iff.mp hU).1).trans hU, hinside⟩
  | _ => exact h

end Reached

structure Sound (s : State) : Prop extends Inv s, Loop s where
  waiting : waits s.main = true → s.outgoing.sending = true
  ready : ∀ T ∈ s.tasks, Ready s T
  held : Held s

theorem sound_opened : Sound .opened where
  toInv := inv_opened
  isOpen := fun _ _ => rfl
  isClosed := nofun
  image := nofun
  room := Nat.zero_le _
  waiting := nofun
  ready := fun _ hT => nomatch hT
  held := nofun

theorem sound_of_reach {s : State} (hs : Reach session Tidy s) : Sound s := by
  refine hs.invariant Sound sound_opened fun s a t h ha hstep => ?_
  have hmove := step_move hstep
  exact ⟨inv_move h.toInv ha hmove, loop_move h.toLoop hmove, waiting_step h.waiting ha hstep,
    ready_move h.ready hmove, held_move h.held hmove⟩

/-! The way to the end. -/

/-- How many steps a frame task still has, apart from the units that the encoder returns. -/
def rank : Stage → ℕ
  | .computing => 13
  | .lumaStored => 12
  | .planesStored => 11
  | .locked => 10
  | .filling _ planes => 3 + (6 - planes.length)
  | .sending units => units.length + 2
  | .leaving => 1
  | .finished => 0

/-- A step of frame task `t` on its way to the end. -/
structure Advance (s : State) (t : ℕ) (T : Task) (s' : State) : Prop where
  tasks : ∃ stage, s'.tasks = s.tasks.set t { T with stage } ∧ rank stage < rank T.stage
  main : s'.main = s.main
  requests : s'.video_requests = s.video_requests
  isOpen : s'.outgoing.isOpen = s.outgoing.isOpen
  sending : s'.outgoing.sending = s.outgoing.sending
  video_mtx : s.video_mtx = some t → s'.video_mtx = some t ∨ s'.video_mtx = none

section Forward

variable {s : State} {t : ℕ} {T : Task}

/-- A frame task is never stuck but before the lock and for want of room. -/
theorem exists_advance (hT : s.tasks[t]? = some T) (hready : Ready s T)
    (hrunning : T.stage ≠ .finished) (hlock : T.stage = .planesStored → s.video_mtx = none)
    (hroom : s.outgoing.isOpen = true → s.outgoing.hasRoom = true) :
    ∃ op s', own (.frame t op) = true ∧ step s (.frame t op) = some s' ∧ Advance s t T s' := by
  have hstep : ∀ op, step s (.frame t op) = frameStep op s t T := by
    intro op
    rw [step, hT]
    rfl
  simp only [hstep]
  cases hstage : T.stage with
  | computing =>
    refine ⟨.storeLuma, _, rfl, by rw [frameStep, storeLuma, hstage], ?_⟩
    exact ⟨⟨.lumaStored, rfl, by rw [hstage]; decide⟩, rfl, rfl, rfl, rfl, .inl⟩
  | lumaStored =>
    refine ⟨.storeAlpha, _, rfl, by rw [frameStep, storeAlpha, hstage], ?_⟩
    exact ⟨⟨.planesStored, rfl, by rw [hstage]; decide⟩, rfl, rfl, rfl, rfl, .inl⟩
  | planesStored =>
    refine ⟨.lock, _, rfl, by rw [frameStep, lock, hstage, hlock hstage], ?_⟩
    exact ⟨⟨.locked, rfl, by rw [hstage]; decide⟩, rfl, rfl, rfl, rfl, fun _ => .inl rfl⟩
  | locked =>
    cases hpicture : s.codec.picture with
    | none =>
      refine ⟨.testPicture, _, rfl, by rw [frameStep, testPicture, hstage, hpicture], ?_⟩
      exact ⟨⟨.leaving, rfl, by rw [hstage]; decide⟩, rfl, rfl, rfl, rfl, .inl⟩
    | some picture =>
      refine ⟨.testPicture, _, rfl, by rw [frameStep, testPicture, hstage, hpicture], ?_⟩
      exact ⟨⟨.filling picture [], rfl, by rw [hstage]; exact Nat.lt_succ_self 9⟩, rfl, rfl, rfl,
        rfl, .inl⟩
  | filling picture planes =>
    by_cases hlength : planes.length < 6
    · have hstored : stored T.stage = true := by
        rw [hstage]
        rfl
      have hplane : (s.nextPlane planes).isSome = true := by
        rw [State.nextPlane]
        split
        · exact hready.luma (.inr hstored)
        · exact hready.alpha hstored
      obtain ⟨plane, hplane⟩ := Option.isSome_iff_exists.mp hplane
      refine ⟨.readPlane, s.setStage t T (.filling picture (planes ++ [plane])), rfl, ?_, ?_⟩
      · simp [frameStep, readPlane, hstage, hplane, hlength]
      · refine ⟨⟨_, rfl, ?_⟩, rfl, rfl, rfl, rfl, .inl⟩
        rw [hstage, rank, rank, List.length_append, List.length_singleton]
        omega
    · have hsix : planes.length = 6 := by
        have hle := hready.filling picture planes hstage
        omega
      cases hencoder : s.codec.encoder with
      | none =>
        refine ⟨.encode [], s.setStage t T .leaving, rfl, ?_, ?_⟩
        · simp [frameStep, encode, hstage, hencoder, hsix]
        · exact ⟨⟨_, rfl, by rw [hstage, rank, rank]; omega⟩, rfl, rfl, rfl, rfl, .inl⟩
      | some encoder =>
        refine ⟨.encode [], _, rfl, by rw [frameStep, encode, hstage, hencoder]; exact if_pos hsix,
          ?_⟩
        exact ⟨⟨_, rfl, by rw [hstage, rank, rank, List.length_nil]; omega⟩, rfl, rfl, rfl, rfl,
          .inl⟩
  | sending units =>
    have hleave : ∀ us, rank .leaving < rank (.sending us) := by
      intro us
      rw [rank, rank]
      omega
    cases units with
    | nil =>
      refine ⟨.put, s.setStage t T .leaving, rfl, by rw [frameStep, put, hstage], ?_⟩
      exact ⟨⟨_, rfl, hstage ▸ hleave _⟩, rfl, rfl, rfl, rfl, .inl⟩
    | cons unit units =>
      cases hheader : T.request.header with
      | none =>
        refine ⟨.put, s.setStage t T .leaving, rfl, by simp [frameStep, put, hstage, hheader], ?_⟩
        exact ⟨⟨_, rfl, hstage ▸ hleave _⟩, rfl, rfl, rfl, rfl, .inl⟩
      | some header =>
        by_cases hopen : s.outgoing.isOpen = true
        · refine ⟨.put, { s.setStage t T (.sending units) with
            outgoing := s.outgoing.put (.video t header unit) }, rfl, ?_, ?_⟩
          · simp [frameStep, put, hstage, hheader, hroom hopen]
          · refine ⟨⟨_, rfl, ?_⟩, rfl, rfl, rfl, rfl, .inl⟩
            rw [hstage, rank, rank, List.length_cons]
            omega
        · have hclosed : s.outgoing.hasRoom = false := by
            rw [Outgoing.hasRoom, Bool.eq_false_iff.mpr hopen, Bool.false_and]
          refine ⟨.put, s.setStage t T .leaving, rfl, ?_, ?_⟩
          · simp [frameStep, put, hstage, hheader, hclosed, hopen]
          · exact ⟨⟨_, rfl, hstage ▸ hleave _⟩, rfl, rfl, rfl, rfl, .inl⟩
  | leaving =>
    refine ⟨.unlock, _, rfl, by rw [frameStep, unlock, hstage], ?_⟩
    exact ⟨⟨.finished, rfl, by rw [hstage]; decide⟩, rfl, rfl, rfl, rfl, fun h => .inr (if_pos h)⟩
  | finished => exact absurd hstage hrunning

theorem exists_room (hroom : s.outgoing.messages.length ≤ 32) (hopen : s.outgoing.isOpen = true)
    (hsending : s.outgoing.sending = true) : s.outgoing.hasRoom = true ∨
      ∃ s', step s .take = some s' ∧ s'.outgoing.hasRoom = true ∧ s'.main = s.main ∧
        s'.video_mtx = s.video_mtx ∧ s'.tasks = s.tasks := by
  cases hmessages : s.outgoing.messages with
  | nil => exact .inl (by rw [Outgoing.hasRoom, hopen, hmessages]; rfl)
  | cons m rest =>
    rw [hmessages, List.length_cons] at hroom
    refine .inr ⟨{ s with outgoing := { s.outgoing with
      messages := rest, taken := s.outgoing.taken ++ [m] } }, ?_, ?_, rfl, rfl, rfl⟩
    · simp only [step, hmessages]
      exact if_pos hsending
    · rw [Outgoing.hasRoom, hopen, Bool.true_and, decide_eq_true_eq]
      exact hroom

def holderRank (s : State) : ℕ :=
  ((s.video_mtx.bind fun t => s.tasks[t]?).map fun T => rank T.stage).getD 0

theorem holderRank_lt {s' : State} (hT : s.tasks[t]? = some T) (hmtx : s.video_mtx = some t)
    (h : Advance s t T s') : holderRank s' < holderRank s := by
  obtain ⟨stage, htasks, hrank⟩ := h.tasks
  have hold : holderRank s = rank T.stage := by
    rw [holderRank, hmtx, Option.bind_some, hT]
    rfl
  rw [hold]
  rcases h.video_mtx hmtx with hheld | hfree
  · rw [holderRank, hheld, Option.bind_some, htasks,
      List.getElem?_set_self (List.getElem?_eq_some_iff.mp hT).1]
    exact hrank
  · rw [holderRank, hfree]
    exact Nat.zero_lt_of_lt hrank

theorem leads_room (hs : Reach session Tidy s) (hwaits : waits s.main = true) :
    session.Leads Forward s fun u => Reach session Tidy u ∧ u.outgoing.hasRoom = true ∧
      u.main = s.main ∧ u.video_mtx = s.video_mtx ∧ u.tasks = s.tasks := by
  have hsound := sound_of_reach hs
  have hopen : s.outgoing.isOpen = true := by
    apply hsound.isOpen <;> intro hmain <;> rw [hmain] at hwaits <;> nomatch hwaits
  rcases exists_room hsound.room hopen (hsound.waiting hwaits) with
    hroom | ⟨u, hstep, hroom, hmain, hmtx, htasks⟩
  · exact .here ⟨hs, hroom, rfl, rfl, rfl⟩
  · exact .step (a := .take) ⟨rfl, trivial⟩ hstep
      (.here ⟨hs.next .take trivial hstep, hroom, hmain, hmtx, htasks⟩)

theorem leads_unlocked {main : Main} (hs : Reach session Tidy s) (hmain : s.main = main)
    (hwaits : waits main = true) : session.Leads Forward s fun u =>
      Reach session Tidy u ∧ u.main = main ∧ u.video_mtx = none := by
  refine System.Leads.of_descent (Q := fun s => Reach session Tidy s ∧ s.main = main) holderRank
    ?_ ⟨hs, hmain⟩
  rintro s ⟨hs, hmain⟩
  cases hmtx : s.video_mtx with
  | none => exact .inl ⟨hs, hmain, rfl⟩
  | some t =>
    refine .inr ((leads_room hs (hmain ▸ hwaits)).trans ?_)
    rintro u ⟨hu, hroom, hmain', hmtx', htasks⟩
    have hsound := sound_of_reach hu
    rw [hmtx] at hmtx'
    obtain ⟨T, hT, hstage⟩ := hsound.held t hmtx'
    have hadvance := exists_advance hT (hsound.ready T (List.mem_of_getElem? hT))
      (by rintro h; simp [h, Stage.inside] at hstage) (by rintro h; simp [h, Stage.inside] at hstage)
      fun _ => hroom
    obtain ⟨op, v, hown, hstep, hadvance⟩ := hadvance
    have hsame : holderRank u = holderRank s := by
      rw [holderRank, holderRank, hmtx', htasks, hmtx]
    refine .step ⟨hown, trivial⟩ hstep (.here ⟨⟨hu.next (.frame t op) trivial hstep, ?_⟩, ?_⟩)
    · rw [hadvance.main, hmain', hmain]
    · rw [← hsame]
      exact holderRank_lt hT hmtx' hadvance

theorem leads_idle (hs : Reach session Tidy s)
    (hmain : s.main ≠ .closing ∧ ¬ Over s) :
    session.Leads Forward s fun u => Reach session Tidy u ∧ u.main = .idle := by
  have hreplied : ∀ u, Reach session Tidy u → u.main = .replied →
      session.Leads Forward u fun v => Reach session Tidy v ∧ v.main = .idle := by
    intro u hu hmain
    refine (leads_unlocked hu hmain rfl).trans fun v hv => ?_
    obtain ⟨hv, hmain, hfree⟩ := hv
    obtain ⟨image, himage⟩ := Option.isSome_iff_exists.mp ((sound_of_reach hv).image (.inr hmain))
    have hstep : step v (.initEncoder .opened) = some { v with
        main := .idle
        filter := v.filter || Outcome.opened != .filterError
        codec := v.codec.init image .opened } := by
      simp [step, himage, hmain, hfree]
    exact .step (a := .initEncoder .opened) ⟨rfl, trivial⟩ hstep
      (.here ⟨hv.next (.initEncoder .opened) trivial hstep, rfl⟩)
  cases hat : s.main with
  | idle => exact .here ⟨hs, hat⟩
  | sized =>
    have hstep : step s .initError = some { s with main := .idle } := by
      rw [step, if_pos hat]
    exact .step (a := .initError) ⟨rfl, trivial⟩ hstep
      (.here ⟨hs.next .initError trivial hstep, rfl⟩)
  | scaled =>
    refine (leads_room hs (by rw [hat]; rfl)).trans fun u hu => ?_
    obtain ⟨hu, hroom, hmain, -, -⟩ := hu
    have hstep : step u .initReply = some { u with
        main := .replied, outgoing := u.outgoing.put .other } := by
      rw [step, if_pos ⟨hmain.trans hat, hroom⟩]
    exact .step (a := .initReply) ⟨rfl, trivial⟩ hstep
      (hreplied _ (hu.next .initReply trivial hstep) rfl)
  | replied => exact hreplied s hs hat
  | ending =>
    refine (leads_unlocked hs hat rfl).trans fun u hu => ?_
    obtain ⟨hu, hmain, hfree⟩ := hu
    have hstep : step u .endVideo = some { u with
        main := .idle, codec := u.codec.endVideo } := by
      rw [step, if_pos ⟨hmain, hfree⟩]
    exact .step (a := .endVideo) ⟨rfl, trivial⟩ hstep
      (.here ⟨hu.next .endVideo trivial hstep, rfl⟩)
  | echoing =>
    refine (leads_room hs (by rw [hat]; rfl)).trans fun u hu => ?_
    obtain ⟨hu, hroom, hmain, -, -⟩ := hu
    have hstep : step u .echo = some { u with
        main := .idle, outgoing := u.outgoing.put .other } := by
      rw [step, if_pos ⟨hmain.trans hat, hroom⟩]
    exact .step (a := .echo) ⟨rfl, trivial⟩ hstep (.here ⟨hu.next .echo trivial hstep, rfl⟩)
  | closing => exact absurd hat hmain.1
  | closed => exact absurd (.inl hat) hmain.2
  | aborted => exact absurd (.inr hat) hmain.2

structure Closing (s : State) : Prop where
  reach : Reach session Tidy s
  main : s.main = .closing
  sending : s.outgoing.sending = false

theorem leads_drained (h : Closing s) :
    session.Leads Forward s fun u => Closing u ∧ u.video_requests = [] := by
  refine System.Leads.of_descent (Q := Closing) (fun s => s.video_requests.length) ?_ h
  intro s h
  cases hrequests : s.video_requests with
  | nil => exact .inl ⟨h, rfl⟩
  | cons r rest =>
    have hopen : s.main ≠ .closed := by
      rw [h.main]
      exact nofun
    refine .inr ?_
    cases hspawn : spawn s with
    | some u =>
      have hu : u.main = s.main ∧ u.outgoing = s.outgoing ∧ u.video_requests = rest := by
        simp only [spawn, hrequests] at hspawn
        split at hspawn
        next heq _ _ =>
          rw [Option.ite_none_right_eq_some, Option.some_inj] at hspawn
          rw [← hspawn.2]
          exact ⟨rfl, rfl, (List.cons.inj heq).2.symm⟩
        next => nomatch hspawn
      refine .step (a := .spawn) ⟨rfl, trivial⟩ hspawn (.here ⟨⟨h.reach.next .spawn trivial hspawn,
        hu.1.trans h.main, by rw [hu.2.1, h.sending]⟩, ?_⟩)
      rw [hu.2.2]
      exact Nat.lt_succ_self _
    | none =>
      have hstep : step s .skip = some { s with video_requests := rest } := by
        rw [step, if_pos hopen, hrequests]
        rfl
      exact .step (a := .skip) ⟨rfl, trivial⟩ hstep (.here ⟨⟨h.reach.next .skip trivial hstep,
        h.main, h.sending⟩, Nat.lt_succ_self _⟩)

def ranks (tasks : List Task) : ℕ := tasks.foldr (fun T n => rank T.stage + n) 0

theorem ranks_set_lt {tasks : List Task} {T' : Task} (hT : tasks[t]? = some T)
    (hlt : rank T'.stage < rank T.stage) : ranks (tasks.set t T') < ranks tasks := by
  induction tasks generalizing t with
  | nil => cases hT
  | cons U tasks ih =>
    cases t with
    | zero =>
      obtain rfl : U = T := Option.some.inj hT
      exact Nat.add_lt_add_right hlt _
    | succ t => exact Nat.add_lt_add_left (ih hT) _

theorem exists_running (h : Sound s) (hrunning : ¬ ∀ T ∈ s.tasks, T.stage = .finished) :
    ∃ (t : ℕ) (T : Task), s.tasks[t]? = some T ∧ T.stage ≠ .finished ∧
      (T.stage = .planesStored → s.video_mtx = none) := by
  cases hmtx : s.video_mtx with
  | some t =>
    obtain ⟨T, hT, hstage⟩ := h.held t hmtx
    refine ⟨t, T, hT, ?_, ?_⟩ <;> intro hother <;> simp [hother, Stage.inside] at hstage
  | none =>
    simp only [not_forall] at hrunning
    obtain ⟨T, hT, hstage⟩ := hrunning
    obtain ⟨t, ht⟩ := List.mem_iff_getElem?.mp hT
    exact ⟨t, T, ht, hstage, fun _ => rfl⟩

theorem leads_finished (h : Closing s) (hrequests : s.video_requests = []) :
    session.Leads Forward s fun u =>
      (Closing u ∧ u.video_requests = []) ∧ ∀ T ∈ u.tasks, T.stage = .finished := by
  refine System.Leads.of_descent (Q := fun s => Closing s ∧ s.video_requests = [])
    (fun s => ranks s.tasks) ?_ ⟨h, hrequests⟩
  rintro s ⟨h, hrequests⟩
  by_cases hfinished : ∀ T ∈ s.tasks, T.stage = .finished
  · exact .inl ⟨⟨h, hrequests⟩, hfinished⟩
  · have hsound := sound_of_reach h.reach
    obtain ⟨t, T, hT, hrunning, hlock⟩ := exists_running hsound hfinished
    obtain ⟨op, u, hown, hstep, hadvance⟩ := exists_advance hT
      (hsound.ready T (List.mem_of_getElem? hT)) hrunning hlock
      fun hopen => by rw [hsound.isClosed h.main] at hopen; nomatch hopen
    obtain ⟨stage, htasks, hrank⟩ := hadvance.tasks
    refine .inr (.step ⟨hown, trivial⟩ hstep (.here ⟨⟨⟨h.reach.next (.frame t op) trivial hstep,
      hadvance.main.trans h.main, hadvance.sending.trans h.sending⟩,
      hadvance.requests.trans hrequests⟩, ?_⟩))
    show ranks u.tasks < ranks s.tasks
    rw [htasks]
    exact ranks_set_lt hT hrank

theorem leads_closed (hs : Reach session Tidy s) (hmain : s.main = .closing) :
    session.Leads Forward s fun u => Reach session Tidy u ∧ Over u := by
  have hwaits : waits s.main = false := by
    rw [hmain]
    rfl
  have hstop : step s .stopSending = some { s with
    outgoing := { s.outgoing with sending := false } } := rfl
  refine .step (a := .stopSending) ⟨rfl, hwaits⟩ hstop ?_
  refine (leads_drained ⟨hs.next .stopSending hwaits hstop, hmain, rfl⟩).trans
    fun u ⟨hu, hrequests⟩ => ?_
  refine (leads_finished hu hrequests).trans fun v ⟨⟨hv, hrequests⟩, hfinished⟩ => ?_
  have hclean : step v .cleanUp = some { v with main := .closed, codec := v.codec.cleanUp } := by
    rw [step, if_pos ⟨hv.main, hrequests, hv.sending⟩]
  exact .step (a := .cleanUp) ⟨rfl, hfinished⟩ hclean
    (.here ⟨hv.reach.next .cleanUp hfinished hclean, .inl rfl⟩)

theorem leads_over (hs : Reach session Tidy s) :
    session.Leads Forward s fun u => Reach session Tidy u ∧ Over u := by
  by_cases hover : Over s
  · exact .here ⟨hs, hover⟩
  by_cases hclosing : s.main = .closing
  · exact leads_closed hs hclosing
  refine (leads_idle hs ⟨hclosing, hover⟩).trans fun u ⟨hu, hidle⟩ => ?_
  have hstep : step u .disconnect = some { u with
      main := .closing, outgoing := { u.outgoing with isOpen := false } } := by
    rw [step, if_pos hidle]
  exact .step (a := .disconnect) ⟨rfl, trivial⟩ hstep
    (leads_closed (hu.next .disconnect trivial hstep) rfl)

end Forward

/-- In every run of tidy steps each x265 object is released at most once and not used later, and the
session can always come to its end, where each has been released exactly once. -/
theorem handles_released_once {s : State} (hs : Reach session Tidy s) :
    Released s ∧ session.Leads Forward s fun u => Over u ∧ Released u := by
  refine ⟨released_of_reach hs, (leads_over hs).trans fun u ⟨hu, hover⟩ => ?_⟩
  exact .here ⟨hover, released_of_reach hu⟩

def resolution : Size := ⟨64, 48⟩

/-- A video that is started, shown, ended, started again and left. -/
theorem handles_released_once_example :
    ∃ s, session.exec Tidy .opened (initVideo resolution .opened ++
      oneFrame 0 ⟨some 1, some 7⟩ [[1], [2]] ++ endVideo ++
      initVideo resolution .encoderNull ++ finish) = some s ∧ Released s := by
  have hrun := reach_exec session Tidy (initVideo resolution .opened ++
    oneFrame 0 ⟨some 1, some 7⟩ [[1], [2]] ++ endVideo ++
    initVideo resolution .encoderNull ++ finish) (by decide)
  exact ⟨_, (Option.some_get _).symm, (handles_released_once hrun).1⟩

/-- A second `init_video` without `end_video`: the objects of the first are in no variable any
more and are never released. -/
theorem handles_lost : ¬ ∀ s, Reachable session s → Released s := by
  intro h
  have hs := reachable_exec session
    (initVideo resolution .opened ++ initVideo resolution .opened ++ finish) (by decide)
  have hall := (h _ hs).all (.inl (by decide)) 0 (by decide)
  exact absurd hall (by decide)

-- A frame task that is still computing at the clean-up gives a released encoder to the library.
example : ∃ s, session.exec (fun _ _ => True) .opened (initVideo resolution .opened ++
    [.video ⟨some 1, some 7⟩, .spawn] ++ finish ++ (oneFrame 0 ⟨some 1, some 7⟩ []).drop 2) =
      some s ∧ ∃ c ∈ s.calls, c.live = false :=
  ⟨_, rfl, ⟨0, resolution, List.replicate 6 ⟨0, resolution⟩, false, []⟩, by decide, rfl⟩

-- An exception of the connection leaves the session with all its objects.
example : ∃ s, session.exec (fun _ _ => True) .opened (initVideo resolution .opened ++ [.abort]) =
    some s ∧ Over s ∧ s.codec.released = [] ∧ s.codec.allocated = 3 :=
  ⟨_, rfl, .inr rfl, rfl, rfl⟩

section Hung

variable {s s' : State} {a : Act}

/-- The message loop is about to put a heartbeat into a full queue that nobody empties. -/
structure Hung (s : State) : Prop where
  main : s.main = .echoing
  full : s.outgoing.hasRoom = false
  sending : s.outgoing.sending = false

theorem hung_step (h : Hung s) (hstep : step s a = some s') : Hung s' := by
  obtain ⟨hmain, hfull, hsending⟩ := h
  cases a with
  | skip =>
    rw [step, Option.ite_none_right_eq_some, Option.some_inj] at hstep
    rw [← hstep.2]
    exact ⟨hmain, hfull, hsending⟩
  | stopSending =>
    obtain rfl := Option.some.inj hstep
    exact ⟨hmain, hfull, rfl⟩
  | spawn =>
    simp only [step, spawn] at hstep
    split at hstep
    next =>
      rw [Option.ite_none_right_eq_some, Option.some_inj] at hstep
      rw [← hstep.2]
      exact ⟨hmain, hfull, hsending⟩
    next => cases hstep
  | frame t op =>
    rw [step, Option.bind_eq_some_iff] at hstep
    obtain ⟨T, -, hstep⟩ := hstep
    cases frameStep_move hstep with
    | put hstage hheader hroom =>
      rw [hfull] at hroom
      cases hroom
    | _ => exact ⟨hmain, hfull, hsending⟩
  | take =>
    simp only [step, hsending] at hstep
    split at hstep <;> cases hstep
  | _ => simp [step, hmain, hfull] at hstep

theorem Hung.not_leads (h : Hung s) : ¬ session.Leads (fun _ _ => True) s Over := by
  rintro ⟨u, hsteps, hover⟩
  have hu : Hung u := by
    clear hover
    induction hsteps with
    | refl => exact h
    | tail _ hstep ih =>
      obtain ⟨a, -, hstep⟩ := hstep
      exact hung_step ih hstep
  rcases hover with hclosed | haborted
  · exact nomatch hu.main.symm.trans hclosed
  · exact nomatch hu.main.symm.trans haborted

/-- The sending task stops while a heartbeat waits for room: no object is ever released. -/
theorem handles_kept_for_ever : ∃ s, Reachable session s ∧ s.codec.handles = [1, 2, 0] ∧
    ¬ session.Leads (fun _ _ => True) s Over := by
  have hs := reachable_exec session (initVideo resolution .opened ++
    List.replicate 31 .putOther ++ [.receiveHeartbeat, .stopSending]) (by decide)
  exact ⟨_, hs, by decide, Hung.not_leads ⟨by decide, by decide, by decide⟩⟩

end Hung

end XWebQL.VideoEnd
