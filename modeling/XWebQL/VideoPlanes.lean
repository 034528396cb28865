import XWebQL.VideoSession

/-! The planes that a picture is filled with.
`luma` and `alpha` are variables of the session: a frame task stores its planes
there before it takes the lock and reads them back inside, so the planes of two
tasks can get mixed up. The sizes are those of the session when the frame was
spawned, and the encoder that is called is the one that is open at the end. -/

namespace XWebQL.VideoPlanes

open Transition VideoSession

/-- From the store of its planes to the return of the encoder, or the end of its block. -/
def window : Stage → Bool
  | .lumaStored => true
  | .planesStored => true
  | .locked => true
  | .filling _ _ => true
  | _ => false

def early : Stage → Bool
  | .computing => true
  | stage => window stage

/-- A frame task stores its planes only when no other has stored its own and not encoded yet. -/
def Alone (s : State) : Act → Prop
  | .frame _ .storeLuma => ∀ T ∈ s.tasks, window T.stage = false
  | _ => True

instance (s : State) (a : Act) : Decidable (Alone s a) := by
  unfold Alone
  split <;> infer_instance

/-- Every unit that is sent with the header of a request was encoded from the two planes that
were computed for this request. -/
def OwnPlanes (s : State) : Prop :=
  ∀ t header payload, .video t header payload ∈ s.outgoing.taken ++ s.outgoing.messages →
    ∃ T c, s.tasks[t]? = some T ∧ T.request.header = some header ∧ c ∈ s.calls ∧ c.task = t ∧
      payload ∈ c.units ∧ c.planes = List.replicate 6 ⟨t, T.planeSize⟩

structure Own (s : State) (t : ℕ) (T : Task) : Prop where
  luma : window T.stage = true → s.luma = some ⟨t, T.planeSize⟩
  alpha : window T.stage = true → T.stage ≠ .lumaStored → s.alpha = some ⟨t, T.planeSize⟩
  planes : ∀ picture planes, T.stage = .filling picture planes →
    ∀ p ∈ planes, p = ⟨t, T.planeSize⟩

def Sends (s : State) (t : ℕ) (T : Task) : Prop :=
  ∀ units, T.stage = .sending units → ∃ c ∈ s.calls, c.task = t ∧
    c.planes = List.replicate 6 ⟨t, T.planeSize⟩ ∧ ∀ u ∈ units, u ∈ c.units

structure Inv (s : State) : Prop where
  own : ∀ (t : ℕ) (T : Task), s.tasks[t]? = some T → Own s t T
  sends : ∀ (t : ℕ) (T : Task), s.tasks[t]? = some T → Sends s t T
  messages : OwnPlanes s

theorem own_of_not_window {s : State} {t : ℕ} {T : Task} (h : window T.stage = false) :
    Own s t T := by
  refine ⟨?_, ?_, ?_⟩
  · rw [h]
    exact nofun
  · rw [h]
    exact nofun
  · intro picture planes hstage
    rw [hstage] at h
    nomatch h

theorem sends_of_not_sending {s : State} {t : ℕ} {T : Task}
    (h : ∀ units, T.stage ≠ .sending units) : Sends s t T := by
  intro units hstage
  exact absurd hstage (h units)

theorem Own.of_same {s s' : State} {t : ℕ} {T : Task} (h : Own s t T) (hluma : s'.luma = s.luma)
    (halpha : s'.alpha = s.alpha) : Own s' t T :=
  ⟨fun hw => hluma.trans (h.luma hw), fun hw hne => halpha.trans (h.alpha hw hne), h.planes⟩

theorem Sends.of_more {s s' : State} {t : ℕ} {T : Task} (h : Sends s t T)
    (hcalls : ∀ c ∈ s.calls, c ∈ s'.calls) : Sends s' t T := by
  intro units hstage
  obtain ⟨c, hc, hrest⟩ := h units hstage
  exact ⟨c, hcalls c hc, hrest⟩

/-- Two tasks that have both stored their planes are one. -/
theorem Inv.window_unique {s : State} (hinv : Inv s) {t u : ℕ} {T U : Task}
    (hT : s.tasks[t]? = some T) (hU : s.tasks[u]? = some U) (htw : window T.stage = true)
    (huw : window U.stage = true) : t = u := by
  have hluma := (hinv.own t T hT).luma htw
  rw [(hinv.own u U hU).luma huw, Option.some_inj, Plane.mk.injEq] at hluma
  exact hluma.1.symm

theorem messages_of_moved {s s' : State} {t : ℕ} {T : Task} {stage : Stage}
    (hT : s.tasks[t]? = some T) (hinv : OwnPlanes s)
    (htasks : s'.tasks = (s.setStage t T stage).tasks) (hcalls : ∀ c ∈ s.calls, c ∈ s'.calls)
    (hout : s'.outgoing = s.outgoing) : OwnPlanes s' := by
  intro u header payload hm
  rw [hout] at hm
  obtain ⟨U, c, hU, hheader, hc, hrest⟩ := hinv u header payload hm
  by_cases hut : u = t
  · obtain rfl : T = U := by
      rw [hut, hT] at hU
      exact Option.some.inj hU
    refine ⟨{ T with stage }, c, ?_, hheader, hcalls c hc, hrest⟩
    rw [htasks, hut]
    exact List.getElem?_set_self (List.getElem?_eq_some_iff.mp hT).1
  · refine ⟨U, c, ?_, hheader, hcalls c hc, hrest⟩
    rw [htasks]
    exact (List.getElem?_set_ne (Ne.symm hut)).trans hU

theorem inv_moved {s s' : State} {t : ℕ} {T : Task} {stage : Stage} (hinv : Inv s)
    (htasks : s'.tasks = (s.setStage t T stage).tasks) (hcalls : ∀ c ∈ s.calls, c ∈ s'.calls)
    (hothers : ∀ (u : ℕ) (U : Task), s.tasks[u]? = some U → u ≠ t → Own s' u U)
    (hown : Own s' t { T with stage }) (hsends : Sends s' t { T with stage })
    (hmessages : OwnPlanes s') : Inv s' := by
  refine ⟨?_, ?_, hmessages⟩
  · intro u U hU
    rw [htasks] at hU
    obtain ⟨rfl, rfl⟩ | ⟨hut, hU⟩ := getElem?_set_cases hU
    · exact hown
    · exact hothers u U hU hut
  · intro u U hU
    rw [htasks] at hU
    obtain ⟨rfl, rfl⟩ | ⟨-, hU⟩ := getElem?_set_cases hU
    · exact hsends
    · exact (hinv.sends u U hU).of_more hcalls

theorem filling_start {P : Plane → Prop} {picture : ℕ} : ∀ picture' planes,
    Stage.filling picture [] = .filling picture' planes → ∀ p ∈ planes, P p := by
  intro picture' planes hfilling p hp
  rw [Stage.filling.injEq] at hfilling
  rw [← hfilling.2] at hp
  nomatch hp

theorem filling_next {P : Plane → Prop} {picture : ℕ} {planes : List Plane} {plane : Plane}
    (hplanes : ∀ p ∈ planes, P p) (hplane : P plane) : ∀ picture' planes',
      Stage.filling picture (planes ++ [plane]) = .filling picture' planes' →
        ∀ p ∈ planes', P p := by
  intro picture' planes' hfilling p hp
  rw [Stage.filling.injEq] at hfilling
  rw [← hfilling.2, List.mem_append, List.mem_singleton] at hp
  cases hp with
  | inl hp => exact hplanes p hp
  | inr hp => exact hp ▸ hplane

theorem Own.advance {s s' : State} {t : ℕ} {T : Task} {stage : Stage} (h : Own s t T)
    (hw : window T.stage = true) (hne : T.stage ≠ .lumaStored) (hluma : s'.luma = s.luma)
    (halpha : s'.alpha = s.alpha)
    (hplanes : ∀ picture planes, stage = .filling picture planes →
      ∀ p ∈ planes, p = ⟨t, T.planeSize⟩) : Own s' t { T with stage } :=
  ⟨fun _ => hluma.trans (h.luma hw), fun _ _ => halpha.trans (h.alpha hw hne), hplanes⟩

theorem Own.nextPlane {s : State} {t : ℕ} {T : Task} {picture : ℕ} {planes : List Plane}
    {plane : Plane} (h : Own s t T) (hstage : T.stage = .filling picture planes)
    (hplane : s.nextPlane planes = some plane) : plane = ⟨t, T.planeSize⟩ := by
  have hw : window T.stage = true := by
    rw [hstage]
    rfl
  have hne : T.stage ≠ .lumaStored := by simp [hstage]
  unfold State.nextPlane at hplane
  split at hplane
  · rw [h.luma hw] at hplane
    exact (Option.some.inj hplane).symm
  · rw [h.alpha hw hne] at hplane
    exact (Option.some.inj hplane).symm

theorem messages_put {s s' : State} {t : ℕ} {T : Task} {unit : Payload} {units : List Payload}
    {header : Header} (hT : s.tasks[t]? = some T) (hinv : Inv s)
    (hstage : T.stage = .sending (unit :: units)) (hheader : T.request.header = some header)
    (htasks : s'.tasks = (s.setStage t T (.sending units)).tasks) (hcalls : s'.calls = s.calls)
    (hout : s'.outgoing = s.outgoing.put (.video t header unit)) : OwnPlanes s' := by
  have hbefore : OwnPlanes { s' with outgoing := s.outgoing } :=
    messages_of_moved hT hinv.messages htasks (fun c hc => hcalls ▸ hc) rfl
  intro u header' payload hm
  rw [hout, Outgoing.put, ← List.append_assoc, List.mem_append, List.mem_singleton] at hm
  cases hm with
  | inl hm => exact hbefore u header' payload hm
  | inr hm =>
    rw [Message.video.injEq] at hm
    obtain ⟨rfl, rfl, rfl⟩ := hm
    obtain ⟨c, hc, hcu, hplanes, hunits⟩ := hinv.sends u T hT (payload :: units) hstage
    refine ⟨{ T with stage := .sending units }, c, ?_, hheader, hcalls ▸ hc, hcu,
      hunits payload List.mem_cons_self, hplanes⟩
    rw [htasks]
    exact List.getElem?_set_self (List.getElem?_eq_some_iff.mp hT).1

theorem inv_left {s s' : State} {t : ℕ} {T : Task} {stage : Stage} (hinv : Inv s)
    (hT : s.tasks[t]? = some T) (hstage : stage = .leaving ∨ stage = .finished)
    (htasks : s'.tasks = (s.setStage t T stage).tasks) (hluma : s'.luma = s.luma)
    (halpha : s'.alpha = s.alpha) (hcalls : s'.calls = s.calls)
    (hout : s'.outgoing = s.outgoing) : Inv s' := by
  have hcalls' : ∀ c ∈ s.calls, c ∈ s'.calls := fun c hc => hcalls ▸ hc
  refine inv_moved hinv htasks hcalls' ?_ ?_ ?_
    (messages_of_moved hT hinv.messages htasks hcalls' hout)
  · intro u U hU _
    exact (hinv.own u U hU).of_same hluma halpha
  · apply own_of_not_window
    cases hstage with
    | inl h => rw [h]; rfl
    | inr h => rw [h]; rfl
  · apply sends_of_not_sending
    cases hstage with
    | inl h => rw [h]; exact nofun
    | inr h => rw [h]; exact nofun

theorem inv_frame {s s' : State} {t : ℕ} {T : Task} {op : FrameOp} (hinv : Inv s)
    (hT : s.tasks[t]? = some T) (ha : Alone s (.frame t op)) (hmove : FrameMove s t T op s') :
    Inv s' := by
  have hkeep : ∀ c ∈ s.calls, c ∈ s.calls := fun _ hc => hc
  have hsame : ∀ (u : ℕ) (U : Task), s.tasks[u]? = some U → u ≠ t → Own s u U :=
    fun u U hU _ => hinv.own u U hU
  cases hmove with
  | storeLuma hstage =>
    refine inv_moved hinv rfl hkeep ?_ ⟨fun _ => rfl, fun _ h => absurd rfl h, nofun⟩
      (sends_of_not_sending nofun) (messages_of_moved hT hinv.messages rfl hkeep rfl)
    intro u U hU _
    exact own_of_not_window (ha U (List.mem_of_getElem? hU))
  | storeAlpha hstage =>
    have hw : window T.stage = true := by
      rw [hstage]
      rfl
    refine inv_moved hinv rfl hkeep ?_ ⟨fun _ => (hinv.own t T hT).luma hw, fun _ _ => rfl, nofun⟩
      (sends_of_not_sending nofun) (messages_of_moved hT hinv.messages rfl hkeep rfl)
    intro u U hU hut
    apply own_of_not_window
    rw [← Bool.not_eq_true]
    intro huw
    exact hut (hinv.window_unique hU hT huw hw)
  | lock hstage hfree =>
    refine inv_moved hinv rfl hkeep (fun u U hU h => (hsame u U hU h).of_same rfl rfl)
      ((hinv.own t T hT).advance ?_ ?_ rfl rfl nofun)
      (sends_of_not_sending nofun) (messages_of_moved hT hinv.messages rfl hkeep rfl)
    · rw [hstage]
      rfl
    · simp [hstage]
  | picture hstage hpicture =>
    refine inv_moved hinv rfl hkeep (fun u U hU h => (hsame u U hU h).of_same rfl rfl)
      ((hinv.own t T hT).advance ?_ ?_ rfl rfl filling_start)
      (sends_of_not_sending nofun) (messages_of_moved hT hinv.messages rfl hkeep rfl)
    · rw [hstage]
      rfl
    · simp [hstage]
  | readPlane hstage hlength hplane =>
    have hown := hinv.own t T hT
    refine inv_moved hinv rfl hkeep (fun u U hU h => (hsame u U hU h).of_same rfl rfl)
      (hown.advance ?_ ?_ rfl rfl ?_)
      (sends_of_not_sending nofun) (messages_of_moved hT hinv.messages rfl hkeep rfl)
    · rw [hstage]
      rfl
    · simp [hstage]
    · exact filling_next (hown.planes _ _ hstage) (hown.nextPlane hstage hplane)
  | encode hstage hlength hencoder =>
    have hplanes := (hinv.own t T hT).planes _ _ hstage
    have hmore : ∀ (call : Call), ∀ c ∈ s.calls, c ∈ s.calls ++ [call] :=
      fun _ c hc => List.mem_append_left _ hc
    refine inv_moved hinv rfl (hmore _) (fun u U hU h => (hsame u U hU h).of_same rfl rfl)
      (own_of_not_window rfl) ?_ (messages_of_moved hT hinv.messages rfl (hmore _) rfl)
    intro units' hsending
    rw [Stage.sending.injEq] at hsending
    refine ⟨_, List.mem_append_right _ List.mem_cons_self, rfl, ?_, ?_⟩
    · rw [← hlength]
      exact List.eq_replicate_of_mem hplanes
    · intro u hu
      exact hsending ▸ hu
  | put hstage hheader hopen =>
    refine inv_moved hinv rfl hkeep (fun u U hU h => (hsame u U hU h).of_same rfl rfl)
      (own_of_not_window rfl) ?_ (messages_put hT hinv hstage hheader rfl rfl rfl)
    intro units' hsending
    rw [Stage.sending.injEq] at hsending
    obtain ⟨c, hc, hct, hplanes, hunits⟩ := hinv.sends t T hT _ hstage
    refine ⟨c, hc, hct, hplanes, ?_⟩
    intro u hu
    rw [← hsending] at hu
    exact hunits u (List.mem_cons_of_mem _ hu)
  | drop hstage hwhy => exact inv_left hinv hT (.inl rfl) rfl rfl rfl rfl rfl
  | leave hstage hrunning => exact inv_left hinv hT (.inl rfl) rfl rfl rfl rfl rfl
  | unlock hstage => exact inv_left hinv hT (.inr rfl) rfl rfl rfl rfl rfl

theorem inv_aside {s s' : State} (hinv : Inv s) (htasks : s'.tasks = s.tasks)
    (hluma : s'.luma = s.luma) (halpha : s'.alpha = s.alpha) (hcalls : s'.calls = s.calls)
    (hout : ∀ t header payload,
      .video t header payload ∈ s'.outgoing.taken ++ s'.outgoing.messages →
        .video t header payload ∈ s.outgoing.taken ++ s.outgoing.messages) : Inv s' := by
  refine ⟨?_, ?_, ?_⟩
  · intro t T hT
    rw [htasks] at hT
    exact (hinv.own t T hT).of_same hluma halpha
  · intro t T hT
    rw [htasks] at hT
    exact (hinv.sends t T hT).of_more fun c hc => hcalls ▸ hc
  · intro t header payload hm
    rw [htasks, hcalls]
    exact hinv.messages t header payload (hout t header payload hm)

theorem inv_spawn {s s' : State} {new : Task} (hinv : Inv s) (hnew : new.stage = .computing)
    (htasks : s'.tasks = s.tasks ++ [new]) (hluma : s'.luma = s.luma)
    (halpha : s'.alpha = s.alpha) (hcalls : s'.calls = s.calls)
    (hout : s'.outgoing = s.outgoing) : Inv s' := by
  refine ⟨?_, ?_, ?_⟩
  · intro t T hT
    rw [htasks] at hT
    cases getElem?_spawned hT with
    | inl hT => exact (hinv.own t T hT).of_same hluma halpha
    | inr hT => exact own_of_not_window (by rw [hT, hnew]; rfl)
  · intro t T hT
    rw [htasks] at hT
    cases getElem?_spawned hT with
    | inl hT => exact (hinv.sends t T hT).of_more fun c hc => hcalls ▸ hc
    | inr hT => exact sends_of_not_sending (by simp [hT, hnew])
  · intro t header payload hm
    rw [hout] at hm
    obtain ⟨T, c, hT, hrest⟩ := hinv.messages t header payload hm
    refine ⟨T, c, ?_, hcalls ▸ hrest⟩
    rw [htasks, List.getElem?_append_left (List.getElem?_eq_some_iff.mp hT).1]
    exact hT

theorem mem_of_put_other {q : Outgoing} {t : ℕ} {header : Header} {payload : Payload}
    (hm : .video t header payload ∈ (q.put .other).taken ++ (q.put .other).messages) :
    .video t header payload ∈ q.taken ++ q.messages := by
  rw [Outgoing.put, ← List.append_assoc, List.mem_append, List.mem_singleton] at hm
  cases hm with
  | inl hm => exact hm
  | inr hm => nomatch hm

theorem inv_move {s s' : State} {a : Act} (hinv : Inv s) (ha : Alone s a)
    (hmove : Move s a s') : Inv s' := by
  cases hmove with
  | frame hT hmove => exact inv_frame hinv hT ha hmove
  | spawn hinner himage hmain => exact inv_spawn hinv rfl rfl rfl rfl rfl rfl
  | initEncoder hmain hfree himage => exact inv_aside hinv rfl rfl rfl rfl fun _ _ _ h => h
  | initScale hmain hinner => exact inv_aside hinv rfl rfl rfl rfl fun _ _ _ h => h
  | endVideo hmain hfree => exact inv_aside hinv rfl rfl rfl rfl fun _ _ _ h => h
  | abort hmain => exact inv_aside hinv rfl rfl rfl rfl fun _ _ _ h => h
  | cleanUp hmain => exact inv_aside hinv rfl rfl rfl rfl fun _ _ _ h => h
  | disconnect hmain => exact inv_aside hinv rfl rfl rfl rfl fun _ _ _ h => h
  | take hmessages =>
    refine inv_aside hinv rfl rfl rfl rfl ?_
    intro t header payload hm
    rw [hmessages]
    rwa [List.append_assoc, List.singleton_append] at hm
  | initReply hmain hroom => exact inv_aside hinv rfl rfl rfl rfl fun _ _ _ => mem_of_put_other
  | putOther hroom hmain => exact inv_aside hinv rfl rfl rfl rfl fun _ _ _ => mem_of_put_other
  | quiet hmain => exact inv_aside hinv rfl rfl rfl rfl fun _ _ _ h => h

theorem inv_opened : Inv .opened := by
  refine ⟨?_, ?_, ?_⟩
  · intro t T hT
    nomatch hT
  · intro t T hT
    nomatch hT
  · intro t header payload hm
    nomatch hm

/-- In every run in which frame tasks store their planes alone, each unit is sent under the
header of its own frame. -/
theorem units_of_own_planes {s : State} (hs : Reach session Alone s) : OwnPlanes s := by
  have hinv := hs.invariant Inv inv_opened
    fun _ _ _ h ha hstep => inv_move h ha (step_move hstep)
  exact hinv.messages

def view : Size := ⟨64, 48⟩

def request (seq_id : ℚ) : VideoRequest := ⟨some 0, some seq_id⟩

def framesInTurn : List Act :=
  initVideo view .opened ++ oneFrame 0 (request 1) [[1]] ++ oneFrame 1 (request 2) [[2]]

theorem units_of_own_planes_example :
    ∃ s, session.exec Alone .opened framesInTurn = some s ∧ OwnPlanes s := by
  have hrun := reach_exec session Alone framesInTurn (by decide)
  exact ⟨_, (Option.some_get _).symm, units_of_own_planes hrun⟩

/-- The second task stores its planes between the store and the lock of the first one. -/
def framesAtOnce : List Act :=
  initVideo view .opened ++ [.video (request 1), .video (request 2), .spawn, .spawn,
    .frame 0 .storeLuma, .frame 0 .storeAlpha, .frame 1 .storeLuma, .frame 1 .storeAlpha] ++
    encodeFrame 0 [[1]] ++ sendFrame 0 [[1]]

/-- The unit that is sent for the first request shows the frame of the second one. -/
theorem units_of_other_planes : ¬ ∀ s, Reachable session s → OwnPlanes s := by
  intro h
  have hs := reachable_exec session framesAtOnce (by decide)
  obtain ⟨T, c, hT, -, hc, -, -, hplanes⟩ := h _ hs 0 ⟨0, 1⟩ [1] (by decide)
  have hcalls : ∀ c ∈ ((session.exec (fun _ _ => True) session.init framesAtOnce).get
      (by decide)).calls, ∀ size, c.planes ≠ List.replicate 6 ⟨0, size⟩ := by
    intro c hc size hplanes
    obtain rfl := List.mem_singleton.mp hc
    nomatch hplanes
  exact hcalls c hc _ hplanes

end XWebQL.VideoPlanes
