import XWebQL.VideoPlanes

/-! The size of the planes and the resolution of the encoder.
A frame task carries the sizes of the session at its spawn; the encoder has the
size of the session at its `init_video`. Before the call a frame task only tests
that the two handles are there. -/

namespace XWebQL.VideoSizes

open Transition VideoSession VideoPlanes

/-- The size that `getVideoFrame` would return for a frame spawned now. -/
def spawnSize (s : State) : Option Size := do
  let inner ← s.inner
  let image ← s.image
  some (if s.bDownsize then image else inner)

/-- The encoder that the locked part of `init_video` opens. -/
def opens : Outcome → Bool
  | .pictureNull => true
  | .opened => true
  | _ => false

/-- A frame is spawned with the size of the open encoder, if there is one, and an encoder is
opened with the size of all frames that are not encoded yet and of the planes stored for them. -/
def Fitting (s : State) : Act → Prop
  | .spawn => ∀ encoder ∈ s.codec.encoder, ∀ size ∈ spawnSize s, size = encoder.res
  | .initEncoder outcome => opens outcome = true → ∀ res ∈ s.image, ∀ T ∈ s.tasks,
      (early T.stage = true → T.planeSize = res) ∧
        (window T.stage = true → ∀ p ∈ s.luma, p.size = res) ∧
          (window T.stage = true → T.stage ≠ .lumaStored → ∀ p ∈ s.alpha, p.size = res)
  | _ => True

instance (s : State) : (a : Act) → Decidable (Fitting s a)
  | .spawn => inferInstanceAs
      (Decidable (∀ encoder ∈ s.codec.encoder, ∀ size ∈ spawnSize s, size = encoder.res))
  | .initEncoder outcome => inferInstanceAs
      (Decidable (opens outcome = true → ∀ res ∈ s.image, ∀ T ∈ s.tasks,
        (early T.stage = true → T.planeSize = res) ∧
          (window T.stage = true → ∀ p ∈ s.luma, p.size = res) ∧
            (window T.stage = true → T.stage ≠ .lumaStored → ∀ p ∈ s.alpha, p.size = res)))
  | .receiveInit _ | .initError | .initScale _ | .initReply | .receiveEnd | .endVideo
  | .receiveHeartbeat | .echo | .video _ | .abort | .disconnect | .cleanUp | .skip | .frame ..
  | .take | .stopSending | .putOther =>
    instDecidableTrue

/-- Every picture that was given to the encoder has six plane fields of its resolution. -/
def PicturesFit (s : State) : Prop :=
  ∀ c ∈ s.calls, c.planes.length = 6 ∧ ∀ p ∈ c.planes, p.size = c.res

/-- What a frame task at each stage can rely on while an encoder with resolution `res` is
open. -/
structure Fits (s : State) (res : Size) (T : Task) : Prop where
  size : early T.stage = true → T.planeSize = res
  luma : window T.stage = true → ∀ p ∈ s.luma, p.size = res
  alpha : window T.stage = true → T.stage ≠ .lumaStored → ∀ p ∈ s.alpha, p.size = res
  planes : ∀ picture planes, T.stage = .filling picture planes → ∀ p ∈ planes, p.size = res

structure Inv (s : State) : Prop where
  exclusive : Exclusive s
  fits : ∀ encoder ∈ s.codec.encoder, ∀ T ∈ s.tasks, Fits s encoder.res T
  calls : PicturesFit s

theorem early_of_window {stage : Stage} (h : window stage = true) : early stage = true := by
  cases stage <;> first
    | rfl
    | exact h

theorem fits_of_not_early {s : State} {res : Size} {T : Task} (h : early T.stage = false) :
    Fits s res T := by
  have hw : window T.stage ≠ true := by
    intro hw
    rw [early_of_window hw] at h
    nomatch h
  refine ⟨?_, fun h => absurd h hw, fun h => absurd h hw, ?_⟩
  · rw [h]
    exact nofun
  · intro picture planes hstage
    rw [hstage] at h
    nomatch h

theorem Fits.of_same {s s' : State} {res : Size} {T : Task} (h : Fits s res T)
    (hluma : s'.luma = s.luma) (halpha : s'.alpha = s.alpha) : Fits s' res T :=
  ⟨h.size, hluma ▸ h.luma, halpha ▸ h.alpha, h.planes⟩

theorem Fits.advance {s s' : State} {res : Size} {T : Task} {stage : Stage} (h : Fits s res T)
    (hw : window T.stage = true) (hne : T.stage ≠ .lumaStored) (hluma : s'.luma = s.luma)
    (halpha : s'.alpha = s.alpha)
    (hplanes : ∀ picture planes, stage = .filling picture planes → ∀ p ∈ planes, p.size = res) :
    Fits s' res { T with stage } :=
  ⟨fun _ => h.size (early_of_window hw), fun _ => hluma ▸ h.luma hw,
    fun _ _ => halpha ▸ h.alpha hw hne, hplanes⟩

theorem Fits.nextPlane {s : State} {res : Size} {T : Task} {picture : ℕ} {planes : List Plane}
    {plane : Plane} (h : Fits s res T) (hstage : T.stage = .filling picture planes)
    (hplane : s.nextPlane planes = some plane) : plane.size = res := by
  have hw : window T.stage = true := by
    rw [hstage]
    rfl
  unfold State.nextPlane at hplane
  split at hplane
  · exact h.luma hw plane hplane
  · exact h.alpha hw (by simp [hstage]) plane hplane

theorem size_of_stored {t : ℕ} {size res : Size} (h : size = res) :
    ∀ p ∈ (some ⟨t, size⟩ : Option Plane), p.size = res := by
  intro p hp
  rw [← Option.some.inj hp]
  exact h

theorem inv_stored {s s' : State} {t : ℕ} {T : Task} {stage : Stage} (hinv : Inv s)
    (hex : Exclusive s') (hT : s.tasks[t]? = some T)
    (htasks : s'.tasks = (s.setStage t T stage).tasks) (hcodec : s'.codec = s.codec)
    (hcalls : s'.calls = s.calls)
    (hself : ∀ res, Fits s res T → Fits s' res { T with stage })
    (hothers : ∀ res, T.planeSize = res → ∀ U, Fits s res U → Fits s' res U)
    (hearly : early T.stage = true) : Inv s' := by
  refine ⟨hex, ?_, ?_⟩
  · intro encoder hencoder U hU
    rw [hcodec] at hencoder
    rw [htasks] at hU
    have hfitsT := hinv.fits encoder hencoder T (List.mem_of_getElem? hT)
    cases List.mem_or_eq_of_mem_set hU with
    | inl hU => exact hothers _ (hfitsT.size hearly) U (hinv.fits encoder hencoder U hU)
    | inr hU => exact hU ▸ hself _ hfitsT
  · unfold PicturesFit
    rw [hcalls]
    exact hinv.calls

theorem inv_moved {s s' : State} {t : ℕ} {T : Task} {stage : Stage} (hinv : Inv s)
    (hex : Exclusive s') (hT : s.tasks[t]? = some T)
    (htasks : s'.tasks = (s.setStage t T stage).tasks) (hcodec : s'.codec = s.codec)
    (hluma : s'.luma = s.luma) (halpha : s'.alpha = s.alpha) (hcalls : PicturesFit s')
    (hself : ∀ res, Fits s res T → Fits s' res { T with stage }) : Inv s' := by
  refine ⟨hex, ?_, hcalls⟩
  intro encoder hencoder U hU
  rw [hcodec] at hencoder
  rw [htasks] at hU
  cases List.mem_or_eq_of_mem_set hU with
  | inl hU => exact (hinv.fits encoder hencoder U hU).of_same hluma halpha
  | inr hU => exact hU ▸ hself _ (hinv.fits encoder hencoder T (List.mem_of_getElem? hT))

theorem inv_frame {s s' : State} {t : ℕ} {T : Task} {op : FrameOp} (hinv : Inv s)
    (hT : s.tasks[t]? = some T) (hmove : FrameMove s t T op s') : Inv s' := by
  have hex := exclusive_frame hT hinv.exclusive hmove
  have hleft : ∀ (r : State) (res : Size) (stage : Stage), early stage = false →
      Fits s res T → Fits r res { T with stage } := by
    intro r res stage hstage _
    exact fits_of_not_early hstage
  cases hmove with
  | storeLuma hstage =>
    have hearly : early T.stage = true := by
      rw [hstage]
      rfl
    refine inv_stored hinv hex hT rfl rfl rfl ?_ ?_ hearly
    · intro res h
      exact ⟨fun _ => h.size hearly, fun _ => size_of_stored (h.size hearly),
        fun _ hne => absurd rfl hne, nofun⟩
    · intro res hsize U h
      exact ⟨h.size, fun _ => size_of_stored hsize, h.alpha, h.planes⟩
  | storeAlpha hstage =>
    have hearly : early T.stage = true := by
      rw [hstage]
      rfl
    have hw : window T.stage = true := by
      rw [hstage]
      rfl
    refine inv_stored hinv hex hT rfl rfl rfl ?_ ?_ hearly
    · intro res h
      exact ⟨fun _ => h.size hearly, fun _ => h.luma hw,
        fun _ _ => size_of_stored (h.size hearly), nofun⟩
    · intro res hsize U h
      exact ⟨h.size, h.luma, fun _ _ => size_of_stored hsize, h.planes⟩
  | lock hstage hfree =>
    refine inv_moved hinv hex hT rfl rfl rfl rfl hinv.calls ?_
    intro res h
    refine h.advance ?_ ?_ rfl rfl nofun
    · rw [hstage]
      rfl
    · simp [hstage]
  | picture hstage hpicture =>
    refine inv_moved hinv hex hT rfl rfl rfl rfl hinv.calls ?_
    intro res h
    refine h.advance ?_ ?_ rfl rfl ?_
    · rw [hstage]
      rfl
    · simp [hstage]
    · exact filling_start
  | readPlane hstage hlength hplane =>
    refine inv_moved hinv hex hT rfl rfl rfl rfl hinv.calls ?_
    intro res h
    refine h.advance ?_ ?_ rfl rfl ?_
    · rw [hstage]
      rfl
    · simp [hstage]
    · exact filling_next (h.planes _ _ hstage) (h.nextPlane hstage hplane)
  | encode hstage hlength hencoder =>
    refine inv_moved hinv hex hT rfl rfl rfl rfl ?_ fun res => hleft _ res _ rfl
    intro c hc
    rw [List.mem_append, List.mem_singleton] at hc
    cases hc with
    | inl hc => exact hinv.calls c hc
    | inr hc =>
      have hfits := hinv.fits _ hencoder T (List.mem_of_getElem? hT)
      rw [hc]
      exact ⟨hlength, hfits.planes _ _ hstage⟩
  | put hstage hheader hopen =>
    exact inv_moved hinv hex hT rfl rfl rfl rfl hinv.calls fun res => hleft _ res _ rfl
  | drop hstage hwhy =>
    exact inv_moved hinv hex hT rfl rfl rfl rfl hinv.calls fun res => hleft _ res _ rfl
  | leave hstage hrunning =>
    exact inv_moved hinv hex hT rfl rfl rfl rfl hinv.calls fun res => hleft _ res _ rfl
  | unlock hstage =>
    exact inv_moved hinv hex hT rfl rfl rfl rfl hinv.calls fun res => hleft _ res _ rfl

theorem inv_initEncoder {s : State} {outcome : Outcome} {image : Size} {filter : Bool}
    (hinv : Inv s) (hfree : s.video_mtx = none) (himage : s.image = some image)
    (ha : Fitting s (.initEncoder outcome)) :
    Inv { s with main := .idle, filter := filter, codec := s.codec.init image outcome } := by
  refine ⟨hinv.exclusive, ?_, hinv.calls⟩
  have hopened : opens outcome = true → ∀ T ∈ s.tasks, Fits s image T := by
    intro hopens T hT
    obtain ⟨hsize, hluma, halpha⟩ := ha hopens image himage T hT
    refine ⟨hsize, hluma, halpha, ?_⟩
    intro picture planes hstage
    obtain ⟨t, ht⟩ := List.mem_iff_getElem?.mp hT
    have howner := hinv.exclusive t T ht (by rw [hstage]; rfl)
    rw [hfree] at howner
    cases howner
  have hkept : ∀ encoder ∈ s.codec.encoder, ∀ T ∈ s.tasks,
      Fits { s with main := .idle, filter := filter, codec := s.codec.init image outcome }
        encoder.res T :=
    fun encoder hencoder T hT => (hinv.fits encoder hencoder T hT).of_same rfl rfl
  cases outcome with
  | filterError => exact hkept
  | paramNull => exact hkept
  | encoderNull =>
    intro encoder hencoder
    cases hencoder
  | pictureNull =>
    intro encoder hencoder T hT
    rw [← Option.some.inj hencoder]
    exact (hopened rfl T hT).of_same rfl rfl
  | opened =>
    intro encoder hencoder T hT
    rw [← Option.some.inj hencoder]
    exact (hopened rfl T hT).of_same rfl rfl

theorem inv_move {s s' : State} {a : Act} (hinv : Inv s) (ha : Fitting s a)
    (hmove : Move s a s') : Inv s' := by
  have hex := exclusive_move hinv.exclusive hmove
  cases hmove with
  | frame hT hmove => exact inv_frame hinv hT hmove
  | spawn hinner himage hmain =>
    refine ⟨hex, ?_, hinv.calls⟩
    intro encoder hencoder T hT
    rw [List.mem_append, List.mem_singleton] at hT
    cases hT with
    | inl hT => exact (hinv.fits encoder hencoder T hT).of_same rfl rfl
    | inr hT =>
      have hsize := ha encoder hencoder
      rw [spawnSize, hinner, himage] at hsize
      rw [hT]
      exact ⟨fun _ => hsize _ rfl, nofun, nofun, nofun⟩
  | initEncoder hmain hfree himage => exact inv_initEncoder hinv hfree himage ha
  | endVideo hmain hfree =>
    refine ⟨hex, ?_, hinv.calls⟩
    intro encoder hencoder
    cases hencoder
  | _ => exact ⟨hex, fun encoder hencoder T hT => (hinv.fits encoder hencoder T hT).of_same rfl rfl,
      hinv.calls⟩

theorem inv_opened : Inv .opened := by
  refine ⟨exclusive_opened, ?_, ?_⟩
  · intro encoder hencoder
    nomatch hencoder
  · intro c hc
    nomatch hc

/-- In every run of fitting steps each picture has the resolution of the encoder it is given
to. -/
theorem pictures_fit {s : State} (hs : Reach session Fitting s) : PicturesFit s := by
  have hinv := hs.invariant Inv inv_opened
    fun _ _ _ h ha hstep => inv_move h ha (step_move hstep)
  exact hinv.calls

def smallView : Size := ⟨32, 24⟩

def videosInTurn : List Act :=
  initVideo view .opened ++ oneFrame 0 (request 1) [[1]] ++ endVideo ++
    initVideo smallView .opened ++ oneFrame 1 (request 2) [[2]]

theorem pictures_fit_example :
    ∃ s, session.exec Fitting .opened videosInTurn = some s ∧ PicturesFit s := by
  have hrun := reach_exec session Fitting videosInTurn (by decide)
  exact ⟨_, (Option.some_get _).symm, pictures_fit hrun⟩

/-- A frame of the small view that is encoded after the view has become larger: the encoder reads
64 x 48 samples from planes of 32 x 24. -/
theorem picture_too_small : ¬ ∀ s, Reachable session s → PicturesFit s := by
  intro h
  have hs := reachable_exec session (initVideo smallView .opened ++
    [.video (request 1), .spawn, .frame 0 .storeLuma, .frame 0 .storeAlpha] ++
    endVideo ++ initVideo view .opened ++ encodeFrame 0 [[1]]) (by decide)
  have hfit := (h _ hs ⟨0, view, List.replicate 6 ⟨0, smallView⟩, true, [[1]]⟩ (by decide)).2
  exact absurd (hfit ⟨0, smallView⟩ (by decide)) (by decide)

end XWebQL.VideoSizes
