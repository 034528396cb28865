import Mathlib.Data.List.Nodup
import XWebQL.VideoSession

/-! The x265 objects of a session, from allocation to release.
What is released and what the three variables hold is, together, everything
that was allocated, as long as no variable is overwritten that still holds an
object, the final clean-up waits for the frame tasks and no exception leaves the
session with objects in its variables. -/

namespace XWebQL.VideoHandles

open Transition VideoSession

/-- The message loop waits for room in `outgoing` or for `video_mtx`. -/
def waits : Main → Bool
  | .scaled | .replied | .ending | .echoing => true
  | _ => false

/-- `init_video` finds `C_NULL` in its three variables, the sending task runs as long as the message
loop waits, no exception leaves the loop while a handle is held, and the final clean-up finds every
frame task finished. -/
def Tidy (s : State) : Act → Prop
  | .initScale _ => s.codec.handles = [] ∧ s.outgoing.sending = true
  | .receiveEnd | .receiveHeartbeat => s.outgoing.sending = true
  | .stopSending => waits s.main = false
  | .abort => s.codec.handles = []
  | .cleanUp => ∀ T ∈ s.tasks, T.stage = .finished
  | _ => True

instance (s : State) (a : Act) : Decidable (Tidy s a) := by
  cases a <;> unfold Tidy <;> infer_instance

def Over (s : State) : Prop := s.main = .closed ∨ s.main = .aborted

/-- Every handle is released at most once, one that is not released is in its variable, none is
left when the session is over, and the encoder is never called with a released one. -/
structure Released (s : State) : Prop where
  once : ∀ h, s.codec.released.count h ≤ 1
  reachable : ∀ h, h < s.codec.allocated → h ∈ s.codec.released ∨ h ∈ s.codec.handles
  all : Over s → ∀ h, h < s.codec.allocated → s.codec.released.count h = 1
  live : ∀ c ∈ s.calls, c.live = true

def Accounted (c : Codec) : Prop := (c.released ++ c.handles).Perm (List.range c.allocated)

def bare : Main → Bool
  | .scaled | .replied | .aborted => true
  | _ => false

structure Inv (s : State) : Prop where
  exclusive : Exclusive s
  accounted : s.main ≠ .closed → Accounted s.codec
  unheld : bare s.main = true → s.codec.handles = []
  closed : s.main = .closed → s.codec.released.Perm (List.range s.codec.allocated)
  ended : s.main = .closed → ∀ T ∈ s.tasks, T.stage = .finished
  filling : ∀ (t : ℕ) (T : Task) (picture : ℕ) (planes : List Plane), s.tasks[t]? = some T →
    T.stage = .filling picture planes → s.codec.picture = some picture
  live : ∀ c ∈ s.calls, c.live = true

theorem Accounted.nodup {c : Codec} (h : Accounted c) : (c.released ++ c.handles).Nodup :=
  h.nodup_iff.mpr List.nodup_range

theorem Accounted.not_released {c : Codec} (hc : Accounted c) {h : ℕ} (hh : h ∈ c.handles) :
    h ∉ c.released := by
  intro hreleased
  have hdisjoint := (List.nodup_append.mp hc.nodup).2.2
  exact hdisjoint h hreleased h hh rfl

theorem encoder_mem_handles {c : Codec} {encoder : Encoder} (h : c.encoder = some encoder) :
    encoder.handle ∈ c.handles := by
  simp [Codec.handles, h]

theorem picture_mem_handles {c : Codec} {picture : ℕ} (h : c.picture = some picture) :
    picture ∈ c.handles := by
  simp [Codec.handles, h]

theorem range_add_two (n : ℕ) : List.range (n + 2) = List.range n ++ [n, n + 1] := by
  rw [List.range_succ, List.range_succ, List.append_assoc]
  rfl

theorem range_add_three (n : ℕ) : List.range (n + 3) = List.range n ++ [n, n + 1, n + 2] := by
  rw [List.range_succ, range_add_two, List.append_assoc]
  rfl

theorem handles_eq_nil {c : Codec} (h : c.handles = []) :
    c.encoder = none ∧ c.picture = none ∧ c.param = none := by
  simpa [Codec.handles] using h

theorem accounted_init {c : Codec} {res : Size} {outcome : Outcome} (hc : Accounted c)
    (hfree : c.handles = []) : Accounted (c.init res outcome) := by
  obtain ⟨hencoder, hpicture, hparam⟩ := handles_eq_nil hfree
  have hall : c.released.Perm (List.range c.allocated) := by
    rwa [Accounted, hfree, List.append_nil] at hc
  unfold Accounted at hc ⊢
  cases outcome with
  | filterError => exact hc
  | paramNull => simpa [Codec.init, Codec.handles, hencoder, hpicture] using hall
  | encoderNull =>
    simp only [Codec.init, Codec.handles, List.range_succ, hpicture, Option.map_none,
      Option.toList_none, List.nil_append, Option.toList_some]
    exact hall.append_right _
  | pictureNull =>
    simp only [Codec.init, Codec.handles, range_add_two, Option.map_some, Option.toList_none,
      List.append_nil, Option.toList_some]
    exact hall.append (List.Perm.swap _ _ _)
  | opened =>
    simp only [Codec.init, Codec.handles, range_add_three, Option.map_some, Option.toList_some]
    have hturn : ([c.allocated + 1, c.allocated + 2] ++ [c.allocated]).Perm
        ([c.allocated] ++ [c.allocated + 1, c.allocated + 2]) := List.perm_append_comm
    exact hall.append hturn

theorem accounted_endVideo {c : Codec} (hc : Accounted c) : Accounted c.endVideo := by
  unfold Accounted at hc ⊢
  simpa [Codec.endVideo, Codec.handles] using hc

theorem not_finished_of_move {s s' : State} {t : ℕ} {T : Task} {op : FrameOp}
    (hmove : FrameMove s t T op s') : T.stage ≠ .finished := by
  intro hfinished
  cases hmove with
  | leave _ hrunning => exact hrunning hfinished
  | _ => simp_all

theorem Inv.running {s s' : State} {t : ℕ} {T : Task} {op : FrameOp} (hinv : Inv s)
    (hT : s.tasks[t]? = some T) (hmove : FrameMove s t T op s') : s.main ≠ .closed := by
  intro hclosed
  exact not_finished_of_move hmove (hinv.ended hclosed T (List.mem_of_getElem? hT))

theorem inv_moved {s s' : State} {t : ℕ} {T : Task} {stage : Stage} (hinv : Inv s)
    (hrunning : s.main ≠ .closed) (hex : Exclusive s')
    (htasks : s'.tasks = (s.setStage t T stage).tasks) (hmain : s'.main = s.main)
    (hcodec : s'.codec = s.codec) (hlive : ∀ c ∈ s'.calls, c.live = true)
    (hfill : ∀ picture planes, stage = .filling picture planes →
      s.codec.picture = some picture) : Inv s' := by
  refine ⟨hex, ?_, ?_, ?_, ?_, ?_, hlive⟩
  · rw [hmain, hcodec]
    exact hinv.accounted
  · rw [hmain, hcodec]
    exact hinv.unheld
  · rw [hmain]
    exact fun h => absurd h hrunning
  · rw [hmain]
    exact fun h => absurd h hrunning
  · intro u U picture planes hU hstage
    rw [hcodec]
    rw [htasks] at hU
    obtain ⟨rfl, rfl⟩ | ⟨-, hU⟩ := getElem?_set_cases hU
    · exact hfill picture planes hstage
    · exact hinv.filling u U picture planes hU hstage

theorem inv_frame {s s' : State} {t : ℕ} {T : Task} {op : FrameOp} (hinv : Inv s)
    (hT : s.tasks[t]? = some T) (hmove : FrameMove s t T op s') : Inv s' := by
  have hrunning := hinv.running hT hmove
  have hex := exclusive_frame hT hinv.exclusive hmove
  cases hmove with
  | picture hstage hpicture =>
    refine inv_moved hinv hrunning hex rfl rfl rfl hinv.live ?_
    intro picture' planes hfilling
    rw [Stage.filling.injEq] at hfilling
    rw [← hfilling.1]
    exact hpicture
  | readPlane hstage hplane =>
    refine inv_moved hinv hrunning hex rfl rfl rfl hinv.live ?_
    intro picture' planes' hfilling
    rw [Stage.filling.injEq] at hfilling
    rw [← hfilling.1]
    exact hinv.filling t T _ _ hT hstage
  | encode hstage hlength hencoder =>
    refine inv_moved hinv hrunning hex rfl rfl rfl ?_ nofun
    intro c hc
    rw [List.mem_append, List.mem_singleton] at hc
    cases hc with
    | inl hc => exact hinv.live c hc
    | inr hc =>
      have haccounted := hinv.accounted hrunning
      have hpicture := hinv.filling t T _ _ hT hstage
      rw [hc, decide_eq_true_eq]
      exact ⟨haccounted.not_released (encoder_mem_handles hencoder),
        haccounted.not_released (picture_mem_handles hpicture)⟩
  | storeLuma hstage => exact inv_moved hinv hrunning hex rfl rfl rfl hinv.live nofun
  | storeAlpha hstage => exact inv_moved hinv hrunning hex rfl rfl rfl hinv.live nofun
  | lock hstage hfree => exact inv_moved hinv hrunning hex rfl rfl rfl hinv.live nofun
  | put hstage hheader hopen =>
    exact inv_moved hinv hrunning hex rfl rfl rfl hinv.live nofun
  | drop hstage hwhy => exact inv_moved hinv hrunning hex rfl rfl rfl hinv.live nofun
  | leave hstage hrun => exact inv_moved hinv hrunning hex rfl rfl rfl hinv.live nofun
  | unlock hstage => exact inv_moved hinv hrunning hex rfl rfl rfl hinv.live nofun

theorem not_filling {s : State} (hex : Exclusive s) (hfree : s.video_mtx = none) {t : ℕ}
    {T : Task} {picture : ℕ} {planes : List Plane} (hT : s.tasks[t]? = some T) :
    T.stage ≠ .filling picture planes := by
  intro hstage
  have howner := hex t T hT (by rw [hstage]; rfl)
  rw [hfree] at howner
  cases howner

theorem inv_aside {s s' : State} (hinv : Inv s) (hex : Exclusive s') (htasks : s'.tasks = s.tasks)
    (hcodec : s'.codec = s.codec) (hcalls : s'.calls = s.calls)
    (hclosed : s'.main = .closed ↔ s.main = .closed)
    (hbare : bare s'.main = true → s.codec.handles = []) : Inv s' := by
  refine ⟨hex, ?_, ?_, ?_, ?_, ?_, ?_⟩
  · rw [ne_eq, hclosed, hcodec]
    exact hinv.accounted
  · rwa [hcodec]
  · rw [hclosed, hcodec]
    exact hinv.closed
  · rw [hclosed, htasks]
    exact hinv.ended
  · rw [htasks, hcodec]
    exact hinv.filling
  · rw [hcalls]
    exact hinv.live

theorem closed_iff {main main' : Main}
    (hmain : main' = main ∨ main'.between = true ∧ main.between = true) :
    main' = .closed ↔ main = .closed :=
  iff_of_between (· = .closed) hmain fun m hm h => by
    rw [h] at hm
    nomatch hm

theorem bare_iff {main main' : Main}
    (hmain : main' = main ∨ main'.between = true ∧ main.between = true) :
    bare main' = true ↔ bare main = true :=
  iff_of_between (bare · = true) hmain fun m hm => by
    cases m <;> simp [bare, Main.between] at hm ⊢

theorem inv_move {s s' : State} {a : Act} (hinv : Inv s) (ha : Tidy s a) (hmove : Move s a s') :
    Inv s' := by
  have hex := exclusive_move hinv.exclusive hmove
  cases hmove with
  | frame hT hmove => exact inv_frame hinv hT hmove
  | spawn hinner himage hmain =>
    refine { hinv with exclusive := hex, ended := fun h => absurd h hmain, filling := ?_ }
    intro u U picture planes hU hstage
    cases getElem?_spawned hU with
    | inl hU => exact hinv.filling u U picture planes hU hstage
    | inr hU =>
      rw [hU] at hstage
      nomatch hstage
  | initScale hmain hinner =>
    exact inv_aside hinv hex rfl rfl rfl (by simp [hmain]) fun _ => ha.1
  | initReply hmain hroom =>
    exact inv_aside hinv hex rfl rfl rfl (by simp [hmain]) fun _ => hinv.unheld (by rw [hmain]; rfl)
  | initEncoder hmain hfree himage =>
    refine ⟨hex, fun _ => ?_, nofun, nofun, nofun, ?_, hinv.live⟩
    · exact accounted_init (hinv.accounted (by rw [hmain]; simp)) (hinv.unheld (by rw [hmain]; rfl))
    · intro u U picture planes hU hstage
      exact absurd hstage (not_filling hinv.exclusive hfree hU)
  | endVideo hmain hfree =>
    refine ⟨hex, fun _ => accounted_endVideo (hinv.accounted (by rw [hmain]; simp)), nofun, nofun,
      nofun, ?_, hinv.live⟩
    intro u U picture planes hU hstage
    exact absurd hstage (not_filling hinv.exclusive hfree hU)
  | cleanUp hmain =>
    refine ⟨hex, fun h => absurd rfl h, nofun, fun _ => ?_, fun _ => ha, hinv.filling, hinv.live⟩
    exact hinv.accounted (by rw [hmain]; simp)
  | abort hmain => exact inv_aside hinv hex rfl rfl rfl (by simp [hmain]) fun _ => ha
  | disconnect hmain => exact inv_aside hinv hex rfl rfl rfl (by simp [hmain]) nofun
  | take hmessages => exact { hinv with exclusive := hex }
  | putOther hroom hmain =>
    exact inv_aside hinv hex rfl rfl rfl (closed_iff hmain) fun h =>
      hinv.unheld ((bare_iff hmain).mp h)
  | quiet hmain =>
    exact inv_aside hinv hex rfl rfl rfl (closed_iff hmain) fun h =>
      hinv.unheld ((bare_iff hmain).mp h)

theorem inv_opened : Inv .opened := by
  refine ⟨exclusive_opened, fun _ => List.Perm.refl _, nofun, nofun, nofun, ?_, ?_⟩
  · intro t T picture planes hT
    nomatch hT
  · intro c hc
    nomatch hc

theorem Inv.released {s : State} (hinv : Inv s) : Released s := by
  have hall : Over s → ∀ h, h < s.codec.allocated → s.codec.released.count h = 1 := by
    intro hover h hh
    have hperm : s.codec.released.Perm (List.range s.codec.allocated) := by
      rcases hover with hclosed | haborted
      · exact hinv.closed hclosed
      · have haccounted := hinv.accounted (by rw [haborted]; simp)
        rwa [Accounted, hinv.unheld (by rw [haborted]; rfl), List.append_nil] at haccounted
    rw [hperm.count_eq]
    exact List.count_eq_one_of_mem List.nodup_range (List.mem_range.mpr hh)
  refine ⟨?_, ?_, hall, hinv.live⟩
  · intro h
    by_cases hclosed : s.main = .closed
    · rw [(hinv.closed hclosed).count_eq]
      exact List.nodup_iff_count_le_one.mp List.nodup_range h
    · have hnodup := (hinv.accounted hclosed).nodup
      exact List.nodup_iff_count_le_one.mp (List.nodup_append.mp hnodup).1 h
  · intro h hh
    by_cases hclosed : s.main = .closed
    · have hone := hall (.inl hclosed) h hh
      exact .inl (List.count_pos_iff.mp (by omega))
    · have hmem := (hinv.accounted hclosed).mem_iff.mpr (List.mem_range.mpr hh)
      exact List.mem_append.mp hmem

theorem released_of_reach {s : State} (hs : Reach session Tidy s) : Released s := by
  have hinv := hs.invariant Inv inv_opened
    fun _ _ _ h ha hstep => inv_move h ha (step_move hstep)
  exact hinv.released

end XWebQL.VideoHandles
