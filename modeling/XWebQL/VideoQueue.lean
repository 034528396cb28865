import XWebQL.VideoSession

/-! The order of the units on the wire.
A frame task holds `video_mtx` from its call of the encoder until it has put
every unit, and a task that does not hold the lock cannot give it back, so the
units of two frames do not mix. What breaks the sequence is the header: it is
made from the request after the call, and if the request has no proper numbers
the units of the frame are lost. -/

namespace XWebQL.VideoQueue

open Transition VideoSession

def Stage.units : Stage → List Payload
  | .sending units => units
  | _ => []

def unitOf : Message → Option (ℕ × Payload)
  | .video t _ payload => some (t, payload)
  | .other => none

def pending (s : State) : List (ℕ × Payload) :=
  (s.video_mtx.bind fun t =>
    s.tasks[t]?.map fun T => (Stage.units T.stage).map (Prod.mk t)).getD []

def returned (s : State) : List (ℕ × Payload) :=
  s.calls.flatMap fun c => c.units.map (Prod.mk c.task)

/-- What was taken from the queue, what is in it and what is still to be put are the units that
the encoder returned, in this order. -/
def Lossless (s : State) : Prop :=
  s.outgoing.isOpen = true → s.outgoing.taken.filterMap unitOf ++
    s.outgoing.messages.filterMap unitOf ++ pending s = returned s

/-- The encoder returns units only for a request whose numbers can be written into a header. -/
def Convertible (s : State) : Act → Prop
  | .frame t (.encode units) => units ≠ [] → ∀ T ∈ s.tasks[t]?, T.request.header ≠ none
  | _ => True

instance (s : State) (a : Act) : Decidable (Convertible s a) := by
  unfold Convertible
  split <;> infer_instance

structure Inv (s : State) : Prop where
  exclusive : Exclusive s
  headers : ∀ (t : ℕ) (T : Task), s.tasks[t]? = some T → Stage.units T.stage ≠ [] →
    T.request.header ≠ none
  lossless : Lossless s

theorem pending_of_owner {s : State} {t : ℕ} {T : Task} (howner : s.video_mtx = some t)
    (hT : s.tasks[t]? = some T) : pending s = (Stage.units T.stage).map (Prod.mk t) := by
  rw [pending, howner, Option.bind_some, hT]
  rfl

theorem pending_of_free {s : State} (hfree : s.video_mtx = none) : pending s = [] := by
  rw [pending, hfree]
  rfl

theorem pending_of_moved {s s' : State} {t : ℕ} {T : Task} {stage : Stage}
    (hT : s.tasks[t]? = some T) (htasks : s'.tasks = (s.setStage t T stage).tasks)
    (howner : s'.video_mtx = some t) : pending s' = (Stage.units stage).map (Prod.mk t) := by
  have hself : s'.tasks[t]? = some { T with stage } := by
    rw [htasks]
    exact List.getElem?_set_self (List.getElem?_eq_some_iff.mp hT).1
  exact pending_of_owner howner hself

theorem pending_setStage {s s' : State} {t : ℕ} {T : Task} {stage : Stage}
    (hT : s.tasks[t]? = some T) (htasks : s'.tasks = (s.setStage t T stage).tasks)
    (hmtx : s'.video_mtx = s.video_mtx) (hbefore : Stage.units T.stage = [])
    (hafter : Stage.units stage = []) : pending s' = pending s := by
  cases howner : s.video_mtx with
  | none =>
    rw [pending_of_free howner, pending_of_free (hmtx.trans howner)]
  | some u =>
    by_cases hut : u = t
    · rw [hut] at howner
      rw [pending_of_owner howner hT, pending_of_moved hT htasks (hmtx.trans howner), hbefore,
        hafter]
    · have hother : s'.tasks[u]? = s.tasks[u]? := by
        rw [htasks]
        exact List.getElem?_set_ne (Ne.symm hut)
      rw [pending, pending, hmtx, howner, Option.bind_some, Option.bind_some, hother]

theorem headers_setStage {s s' : State} {t : ℕ} {T : Task} {stage : Stage} (hinv : Inv s)
    (htasks : s'.tasks = (s.setStage t T stage).tasks)
    (hself : Stage.units stage ≠ [] → T.request.header ≠ none) :
    ∀ (u : ℕ) (U : Task), s'.tasks[u]? = some U → Stage.units U.stage ≠ [] →
      U.request.header ≠ none := by
  intro u U hU hunits
  rw [htasks] at hU
  obtain ⟨rfl, rfl⟩ | ⟨-, hU⟩ := getElem?_set_cases hU
  · exact hself hunits
  · exact hinv.headers u U hU hunits

theorem inv_silent {s s' : State} {t : ℕ} {T : Task} {stage : Stage} (hinv : Inv s)
    (hex : Exclusive s') (htasks : s'.tasks = (s.setStage t T stage).tasks)
    (hafter : Stage.units stage = []) (hout : s'.outgoing = s.outgoing)
    (hcalls : s'.calls = s.calls)
    (hpending : s.outgoing.isOpen = true → pending s' = pending s) : Inv s' := by
  refine ⟨hex, headers_setStage hinv htasks fun h => absurd hafter h, ?_⟩
  intro hopen
  rw [hout] at hopen ⊢
  unfold returned
  rw [hcalls, hpending hopen]
  exact hinv.lossless hopen

theorem inv_encode {s s' : State} {t : ℕ} {T : Task} {picture : ℕ} {planes : List Plane}
    {units : List Payload} {call : Call} (hinv : Inv s) (hT : s.tasks[t]? = some T)
    (hstage : T.stage = .filling picture planes) (hcall : call.task = t ∧ call.units = units)
    (ha : Convertible s (.frame t (.encode units))) (hex : Exclusive s')
    (htasks : s'.tasks = (s.setStage t T (.sending units)).tasks)
    (hmtx : s'.video_mtx = s.video_mtx) (hout : s'.outgoing = s.outgoing)
    (hcalls : s'.calls = s.calls ++ [call]) : Inv s' := by
  refine ⟨hex, headers_setStage hinv htasks fun h => ha h T hT, ?_⟩
  have howner := hinv.exclusive t T hT (by rw [hstage]; rfl)
  have hnone : pending s = [] := by
    rw [pending_of_owner howner hT, hstage]
    rfl
  intro hopen
  rw [hout] at hopen ⊢
  have hbefore := hinv.lossless hopen
  rw [hnone, List.append_nil] at hbefore
  rw [hbefore, pending_of_moved hT htasks (hmtx.trans howner)]
  unfold returned
  rw [hcalls, List.flatMap_append, List.flatMap_singleton, hcall.1, hcall.2]
  rfl

theorem inv_put {s s' : State} {t : ℕ} {T : Task} {unit : Payload} {units : List Payload}
    {header : Header} (hinv : Inv s) (hT : s.tasks[t]? = some T)
    (hstage : T.stage = .sending (unit :: units)) (hheader : T.request.header = some header)
    (hex : Exclusive s') (htasks : s'.tasks = (s.setStage t T (.sending units)).tasks)
    (hmtx : s'.video_mtx = s.video_mtx)
    (hout : s'.outgoing = s.outgoing.put (.video t header unit)) (hcalls : s'.calls = s.calls) :
    Inv s' := by
  refine ⟨hex, headers_setStage hinv htasks fun _ => by simp [hheader], ?_⟩
  have howner := hinv.exclusive t T hT (by rw [hstage]; rfl)
  intro hopen
  rw [hout] at hopen ⊢
  have hbefore := hinv.lossless hopen
  rw [pending_of_owner howner hT, hstage] at hbefore
  rw [pending_of_moved hT htasks (hmtx.trans howner)]
  unfold returned at hbefore ⊢
  rw [hcalls, ← hbefore]
  simp [Outgoing.put, unitOf, Stage.units]

theorem inv_frame {s s' : State} {t : ℕ} {T : Task} {op : FrameOp} (hinv : Inv s)
    (hT : s.tasks[t]? = some T) (ha : Convertible s (.frame t op))
    (hmove : FrameMove s t T op s') : Inv s' := by
  have hex := exclusive_frame hT hinv.exclusive hmove
  have hquiet : ∀ (s' : State) (stage : Stage), s'.tasks = (s.setStage t T stage).tasks →
      s'.video_mtx = s.video_mtx → Stage.units T.stage = [] → Stage.units stage = [] →
      s.outgoing.isOpen = true → pending s' = pending s :=
    fun s' stage htasks hmtx hbefore hafter _ => pending_setStage hT htasks hmtx hbefore hafter
  cases hmove with
  | storeLuma hstage =>
    exact inv_silent hinv hex rfl rfl rfl rfl (hquiet _ _ rfl rfl (by rw [hstage]; rfl) rfl)
  | storeAlpha hstage =>
    exact inv_silent hinv hex rfl rfl rfl rfl (hquiet _ _ rfl rfl (by rw [hstage]; rfl) rfl)
  | lock hstage hfree =>
    refine inv_silent hinv hex rfl rfl rfl rfl fun _ => ?_
    rw [pending_of_free hfree]
    exact @pending_of_moved s _ t T .locked hT rfl rfl
  | picture hstage hpicture =>
    exact inv_silent hinv hex rfl rfl rfl rfl (hquiet _ _ rfl rfl (by rw [hstage]; rfl) rfl)
  | readPlane hstage hlength hplane =>
    exact inv_silent hinv hex rfl rfl rfl rfl (hquiet _ _ rfl rfl (by rw [hstage]; rfl) rfl)
  | encode hstage hlength hencoder =>
    exact inv_encode hinv hT hstage ⟨rfl, rfl⟩ ha hex rfl rfl rfl rfl
  | put hstage hheader hroom => exact inv_put hinv hT hstage hheader hex rfl rfl rfl rfl
  | @drop _ units hstage hwhy =>
    refine inv_silent hinv hex rfl rfl rfl rfl fun hopen => ?_
    -- the queue is open and the header can be written: there was nothing left to put
    have hempty : Stage.units T.stage = [] := by
      rw [hstage]
      by_contra hne
      have hheader := hinv.headers t T hT (by rw [hstage]; exact hne)
      cases hwhy hne with
      | inl h => exact hheader h
      | inr h =>
        rw [h] at hopen
        nomatch hopen
    exact hquiet _ _ rfl rfl hempty rfl hopen
  | leave hstage hrunning =>
    have hempty : Stage.units T.stage = [] := by
      cases h : T.stage with
      | sending units => exact absurd h (hstage units)
      | _ => rfl
    exact inv_silent hinv hex rfl rfl rfl rfl (hquiet _ _ rfl rfl hempty rfl)
  | unlock hstage =>
    refine inv_silent hinv hex rfl rfl rfl rfl fun hopen => ?_
    have hempty : Stage.units T.stage = [] := by
      rw [hstage]
      rfl
    by_cases howner : s.video_mtx = some t
    · rw [pending_of_owner howner hT, hempty]
      exact pending_of_free (if_pos howner)
    · exact hquiet _ _ rfl (if_neg howner) hempty rfl hopen

theorem inv_aside {s s' : State} (hinv : Inv s) (hex : Exclusive s')
    (htasks : s'.tasks = s.tasks) (hmtx : s'.video_mtx = s.video_mtx)
    (hcalls : s'.calls = s.calls)
    (hopen : s'.outgoing.isOpen = true → s.outgoing.isOpen = true)
    (hout : s'.outgoing.taken.filterMap unitOf ++ s'.outgoing.messages.filterMap unitOf =
      s.outgoing.taken.filterMap unitOf ++ s.outgoing.messages.filterMap unitOf) : Inv s' := by
  refine ⟨hex, ?_, ?_⟩
  · rw [htasks]
    exact hinv.headers
  · intro h
    have hpending : pending s' = pending s := by
      rw [pending, pending, htasks, hmtx]
    unfold returned
    rw [hout, hpending, hcalls]
    exact hinv.lossless (hopen h)

theorem inv_spawn {s s' : State} {new : Task} (hinv : Inv s) (hex : Exclusive s')
    (hnew : Stage.units new.stage = []) (htasks : s'.tasks = s.tasks ++ [new])
    (hmtx : s'.video_mtx = s.video_mtx) (hcalls : s'.calls = s.calls)
    (hout : s'.outgoing = s.outgoing) : Inv s' := by
  have hpending : pending s' = pending s := by
    rw [pending, pending, hmtx, htasks]
    cases s.video_mtx with
    | none => rfl
    | some t =>
      rw [Option.bind_some, Option.bind_some, List.getElem?_append]
      split
      · rfl
      next hlen =>
        rw [List.getElem?_eq_none (Nat.le_of_not_lt hlen)]
        cases h : [new][t - s.tasks.length]? with
        | none => rfl
        | some T =>
          rw [List.mem_singleton.mp (List.mem_of_getElem? h), Option.map_some, hnew]
          rfl
  refine ⟨hex, ?_, ?_⟩
  · intro t T hT hunits
    rw [htasks] at hT
    cases getElem?_spawned hT with
    | inl hT => exact hinv.headers t T hT hunits
    | inr hT =>
      rw [hT] at hunits
      exact absurd hnew hunits
  · unfold Lossless returned
    rw [hout, hpending, hcalls]
    exact hinv.lossless

theorem inv_move {s s' : State} {a : Act} (hinv : Inv s) (ha : Convertible s a)
    (hmove : Move s a s') : Inv s' := by
  have hex := exclusive_move hinv.exclusive hmove
  cases hmove with
  | frame hT hmove => exact inv_frame hinv hT ha hmove
  | spawn hinner himage hmain => exact inv_spawn hinv hex rfl rfl rfl rfl rfl
  | disconnect hmain => exact inv_aside hinv hex rfl rfl rfl nofun rfl
  | take hmessages =>
    refine inv_aside hinv hex rfl rfl rfl (fun h => h) ?_
    rw [hmessages, List.filterMap_append, List.append_assoc, ← List.filterMap_append]
    rfl
  | initReply hmain hroom =>
    refine inv_aside hinv hex rfl rfl rfl (fun h => h) ?_
    simp [Outgoing.put, unitOf]
  | putOther hroom hmain =>
    refine inv_aside hinv hex rfl rfl rfl (fun h => h) ?_
    simp [Outgoing.put, unitOf]
  | _ => exact inv_aside hinv hex rfl rfl rfl (fun h => h) rfl

theorem inv_opened : Inv .opened := by
  refine ⟨exclusive_opened, ?_, fun _ => rfl⟩
  intro t T hT
  nomatch hT

/-- In every run in which the encoder returns units only for requests with proper numbers, the
queue carries the units of the encoder as they came. -/
theorem units_in_order {s : State} (hs : Reach session Convertible s) : Lossless s := by
  have hinv := hs.invariant Inv inv_opened
    fun _ _ _ h ha hstep => inv_move h ha (step_move hstep)
  exact hinv.lossless

def framePart : List Act :=
  initVideo ⟨64, 48⟩ .opened ++ [.take, .video ⟨some 0, some 1⟩, .spawn, .frame 0 .storeLuma,
    .frame 0 .storeAlpha] ++ encodeFrame 0 [[1], [2]] ++ [.frame 0 .put, .take]

theorem units_in_order_example :
    ∃ s, session.exec Convertible .opened framePart = some s ∧ Lossless s := by
  have hrun := reach_exec session Convertible framePart (by decide)
  exact ⟨_, (Option.some_get _).symm, units_in_order hrun⟩

/-- A request without a timestamp: the encoder has used its frame, and its units are lost. -/
theorem units_lost : ¬ ∀ s, Reachable session s → Lossless s := by
  intro h
  have hs := reachable_exec session (initVideo ⟨64, 48⟩ .opened ++
    [.video ⟨none, some 1⟩, .spawn, .frame 0 .storeLuma, .frame 0 .storeAlpha] ++
    encodeFrame 0 [[1], [2]] ++ [.frame 0 .put, .frame 0 .unlock]) (by decide)
  exact absurd (h _ hs (by decide)) (by decide)

end XWebQL.VideoQueue
