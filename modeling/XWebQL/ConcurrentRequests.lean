import XWebQL.DatasetStore
import XWebQL.Transition

/-! Several requests for datasets at the same time.
`streamXEvents` asks whether a dataset exists, restores or creates an object,
inserts it and starts `load_events` in four separate steps, and the handlers of
other requests run between them. The name of a dataset that comes by url is
not the one that is asked for. Nothing is purged here, so the cache is fixed. -/

namespace XWebQL.ConcurrentRequests

open DatasetStore Transition

/-- How far the handler of a request is; `finished` keeps the id of its page. -/
inductive Stage
  | arrived
  | missing
  | created (object : ℕ)
  | inserted (object : ℕ)
  | finished (datasetid : String)
deriving DecidableEq, Repr

structure Handler where
  request : Request
  stage : Stage
deriving DecidableEq, Repr

/-- The three last fields record every `insert_dataset`, every `load_events` that was started
and every object whose place another one took. -/
structure State where
  datasets : Datasets
  handlers : List Handler
  loading : List ℕ
  insertions : List String
  loads : List String
  replaced : List ℕ

def State.empty : State := ⟨.empty, [], [], [], [], []⟩

def State.setStage (s : State) (i : ℕ) (h : Handler) (stage : Stage) : List Handler :=
  s.handlers.set i { h with stage }

inductive Act
  | arrive (r : Request)
  | test (i : ℕ) (now : ℕ)
  | restore (i : ℕ) (env : Environment) (readable : Bool) (now : ℕ)
  | insert (i : ℕ)
  | startLoad (i : ℕ)
  | finishLoad (object : ℕ) (loaded : Bool)

variable (site : Site) (cache : String → Option XDataSet)

/-- `deserialize(filename)` for the uri of the request -/
def restored (env : Environment) (r : Request) (readable : Bool) : Option XDataSet :=
  if readable then cache (r.resolve site env) else none

/-- `if !dataset_exists(dataset, XOBJECTS, XLOCK)`, with its `else` branch -/
def testStep (s : State) (i : ℕ) (now : ℕ) (h : Handler) : Option State :=
  match h.stage, s.datasets.XOBJECTS h.request.dataset with
  | .arrived, some ref => some { s with
      datasets := s.datasets.updateTimestamp ref now
      handlers := s.setStage i h (.finished h.request.dataset) }
  | .arrived, none => some { s with handlers := s.setStage i h .missing }
  | _, _ => none

def restoreStep (s : State) (i : ℕ) (env : Environment) (readable : Bool) (now : ℕ)
    (h : Handler) : Option State :=
  match h.stage with
  | .missing => some { s with
      datasets := s.datasets.create
        (h.request.restoreOrCreate site env (restored site cache env h.request readable) now)
      handlers := s.setStage i h (.created s.datasets.heap.length) }
  | _ => none

/-- `insert_dataset(xdataset, XOBJECTS, XLOCK)` -/
def insertStep (s : State) (i : ℕ) (h : Handler) : Option State :=
  match h.stage with
  | .created ref => do
    let x ← s.datasets.heap[ref]?
    some { s with
      datasets := s.datasets.insertDataset ref
      handlers := s.setStage i h (.inserted ref)
      insertions := s.insertions ++ [x.id]
      replaced := s.replaced ++ (s.datasets.XOBJECTS x.id).toList }
  | _ => none

/-- `if (!has_events(xdataset)) Threads.@spawn load_events(xdataset)` -/
def startLoadStep (s : State) (i : ℕ) (h : Handler) : Option State :=
  match h.stage with
  | .inserted ref => do
    let x ← s.datasets.heap[ref]?
    if x.has_events then
      some { s with handlers := s.setStage i h (.finished h.request.name) }
    else
      some { s with
        handlers := s.setStage i h (.finished h.request.name)
        loading := s.loading ++ [ref]
        loads := s.loads ++ [x.id] }
  | _ => none

def step (s : State) : Act → Option State
  | .arrive r => some { s with handlers := s.handlers ++ [⟨r, .arrived⟩] }
  | .test i now => s.handlers[i]?.bind (testStep s i now)
  | .restore i env readable now =>
      s.handlers[i]?.bind (restoreStep site cache s i env readable now)
  | .insert i => s.handlers[i]?.bind (insertStep s i)
  | .startLoad i => s.handlers[i]?.bind (startLoadStep s i)
  | .finishLoad ref loaded =>
      if ref ∈ s.loading then
        some { s with
          datasets := s.datasets.finishLoad ref loaded
          loading := s.loading.erase ref }
      else none

def server : System State Act := ⟨.empty, step site cache⟩

/-- One object per id: no id is inserted or loaded twice, nothing is replaced, and the dataset
of every page that was sent has been inserted. -/
structure InsertedOnce (s : State) : Prop where
  insertions : ∀ id, s.insertions.count id ≤ 1
  loads : ∀ id, s.loads.count id ≤ 1
  kept : s.replaced = []
  pages : ∀ h ∈ s.handlers, ∀ id, h.stage = .finished id → s.insertions.count id = 1

def Handler.underway (h : Handler) : Bool :=
  match h.stage with
  | .missing => true
  | .created _ => true
  | _ => false

/-- A request that does not find its dataset is the only one on the way to insert it, and finds
the name under which it will insert it free; a copy from the cache has this name. -/
def Separate (s : State) : Act → Prop
  | .test i _ => ∀ h ∈ s.handlers[i]?, s.datasets.XOBJECTS h.request.dataset = none →
      s.datasets.XOBJECTS h.request.name = none ∧
        ∀ h' ∈ s.handlers, h'.underway → h'.request.name ≠ h.request.name
  | .restore i env readable _ => ∀ h ∈ s.handlers[i]?,
      ∀ copy ∈ restored site cache env h.request readable, copy.id = h.request.name
  | _ => True

instance (s : State) (a : Act) : Decidable (Separate site cache s a) := by
  cases a <;> unfold Separate <;> infer_instance

def Handler.Ok (s : State) (h : Handler) : Prop :=
  match h.stage with
  | .arrived => True
  | .missing => s.datasets.XOBJECTS h.request.name = none
  | .created ref => s.datasets.XOBJECTS h.request.name = none ∧
      ∃ x, s.datasets.heap[ref]? = some x ∧ x.id = h.request.name
  | .inserted ref => (s.datasets.XOBJECTS h.request.name).isSome ∧
      s.loads.count h.request.name = 0 ∧
        ∃ x, s.datasets.heap[ref]? = some x ∧ x.id = h.request.name
  | .finished id => (s.datasets.XOBJECTS id).isSome

theorem Handler.underway_missing {h : Handler} (hstage : h.stage = .missing) :
    h.underway = true := by
  rw [Handler.underway, hstage]

theorem Handler.underway_created {h : Handler} {ref : ℕ} (hstage : h.stage = .created ref) :
    h.underway = true := by
  rw [Handler.underway, hstage]

def Handler.Pending (h : Handler) : Prop :=
  h.underway ∨ ∃ ref, h.stage = .inserted ref

theorem Handler.not_pending_arrived (r : Request) : ¬ (⟨r, .arrived⟩ : Handler).Pending := by
  simp [Handler.Pending, Handler.underway]

theorem Handler.not_pending_finished (r : Request) (id : String) :
    ¬ (⟨r, .finished id⟩ : Handler).Pending := by
  simp [Handler.Pending, Handler.underway]

structure Inv (s : State) : Prop where
  counted : ∀ id, s.insertions.count id = if (s.datasets.XOBJECTS id).isSome then 1 else 0
  loaded : ∀ id, s.loads.count id ≤ s.insertions.count id
  kept : s.replaced = []
  handlers : ∀ h ∈ s.handlers, h.Ok s
  separate : ∀ (i j : ℕ) (h h' : Handler), s.handlers[i]? = some h → s.handlers[j]? = some h' → i ≠ j →
    h.Pending → h'.Pending → h.request.name ≠ h'.request.name

theorem Handler.Ok.of_same {s t : State} {h : Handler} (hok : h.Ok s)
    (hext : s.datasets.Extends t.datasets)
    (hname : t.datasets.XOBJECTS = s.datasets.XOBJECTS) (hloads : t.loads = s.loads) :
    h.Ok t := by
  have hobject : ∀ ref : ℕ, (∃ x, s.datasets.heap[ref]? = some x ∧ x.id = h.request.name) →
      ∃ x, t.datasets.heap[ref]? = some x ∧ x.id = h.request.name := by
    intro ref ⟨x, hx, hid⟩
    obtain ⟨y, hy, hyid, -⟩ := hext ref x hx
    exact ⟨y, hy, hyid.trans hid⟩
  unfold Handler.Ok at hok ⊢
  rw [hname, hloads]
  split at hok
  · trivial
  · exact hok
  · exact ⟨hok.1, hobject _ hok.2⟩
  · exact ⟨hok.1, hok.2.1, hobject _ hok.2.2⟩
  · exact hok

/-- Names that are taken stay taken, and those that a handler counts on stay free. -/
theorem Handler.Ok.of_named {s t : State} {h : Handler} (hok : h.Ok s)
    (hheap : t.datasets.heap = s.datasets.heap) (hloads : t.loads = s.loads)
    (hkept : ∀ id, (s.datasets.XOBJECTS id).isSome → (t.datasets.XOBJECTS id).isSome)
    (hfree : h.underway →
      t.datasets.XOBJECTS h.request.name = s.datasets.XOBJECTS h.request.name) :
    h.Ok t := by
  unfold Handler.Ok at hok ⊢
  rw [hheap, hloads]
  cases hstage : h.stage with
  | arrived => trivial
  | missing =>
    simp only [hstage] at hok ⊢
    rw [hfree (underway_missing hstage)]
    exact hok
  | created ref =>
    simp only [hstage] at hok ⊢
    rw [hfree (underway_created hstage)]
    exact hok
  | inserted ref =>
    simp only [hstage] at hok ⊢
    exact ⟨hkept _ hok.1, hok.2⟩
  | finished id =>
    simp only [hstage] at hok ⊢
    exact hkept _ hok

theorem Handler.Ok.of_loaded {s t : State} {h : Handler} {id : String} (hok : h.Ok s)
    (hdatasets : t.datasets = s.datasets) (hloads : t.loads = s.loads ++ [id])
    (hother : ∀ ref, h.stage = .inserted ref → h.request.name ≠ id) : h.Ok t := by
  unfold Handler.Ok at hok ⊢
  rw [hdatasets, hloads]
  cases hstage : h.stage with
  | inserted ref =>
    simp only [hstage] at hok ⊢
    refine ⟨hok.1, ?_, hok.2.2⟩
    rw [List.count_append, hok.2.1, List.count_singleton,
      beq_false_of_ne (hother ref hstage).symm]
    rfl
  | arrived => trivial
  | _ =>
    simp only [hstage] at hok ⊢
    exact hok

theorem Inv.separate_set {s : State} (hinv : Inv s) {i : ℕ} {g : Handler}
    (hothers : g.Pending → ∀ (j : ℕ) (h : Handler), s.handlers[j]? = some h → j ≠ i →
      h.Pending → h.request.name ≠ g.request.name) :
    ∀ (j k : ℕ) (a b : Handler), (s.handlers.set i g)[j]? = some a →
      (s.handlers.set i g)[k]? = some b → j ≠ k → a.Pending → b.Pending →
        a.request.name ≠ b.request.name := by
  intro j k a b ha hb hjk hpa hpb
  obtain ⟨rfl, rfl⟩ | ⟨hj, ha'⟩ := getElem?_set_cases ha
  · obtain ⟨rfl, rfl⟩ | ⟨hk, hb'⟩ := getElem?_set_cases hb
    · exact absurd rfl hjk
    · exact (hothers hpa k b hb' hk hpb).symm
  · obtain ⟨rfl, rfl⟩ | ⟨hk, hb'⟩ := getElem?_set_cases hb
    · exact hothers hpb j a ha' hj hpa
    · exact hinv.separate j k a b ha' hb' hjk hpa hpb

theorem Inv.others {s : State} (hinv : Inv s) {i : ℕ} {h : Handler}
    (hi : s.handlers[i]? = some h) (hp : h.Pending) :
    ∀ (j : ℕ) (h' : Handler), s.handlers[j]? = some h' → j ≠ i → h'.Pending →
      h'.request.name ≠ h.request.name := by
  intro j h' hj hji hp'
  exact hinv.separate j i h' h hj hi hji hp' hp

theorem ok_set {s t : State} {i : ℕ} {g : Handler} (hg : g.Ok t)
    (hothers : ∀ (j : ℕ) (h : Handler), s.handlers[j]? = some h → j ≠ i → h.Ok t) :
    ∀ h ∈ s.handlers.set i g, h.Ok t := by
  intro h hh
  obtain ⟨j, hj⟩ := List.mem_iff_getElem?.mp hh
  obtain ⟨-, rfl⟩ | ⟨hji, hj⟩ := getElem?_set_cases hj
  · exact hg
  · exact hothers j h hj hji

theorem inv_test {s t : State} {i now : ℕ} (hinv : Inv s) (hsep : Separate site cache s (.test i now))
    (hstep : step site cache s (.test i now) = some t) : Inv t := by
  rw [step, Option.bind_eq_some_iff] at hstep
  obtain ⟨h, hi, hstep⟩ := hstep
  unfold testStep at hstep
  split at hstep
  next ref harrived hstored =>
    rw [← Option.some.inj hstep]
    refine { hinv with handlers := ?_, separate := ?_ }
    · apply ok_set
      · exact Option.isSome_iff_exists.mpr ⟨ref, hstored⟩
      · intro j h' hj _
        exact (hinv.handlers h' (List.mem_of_getElem? hj)).of_same
          (s.datasets.extends_updateTimestamp ref now) rfl rfl
    · apply hinv.separate_set
      intro hp
      exact absurd hp (Handler.not_pending_finished _ _)
  next harrived hmissing =>
    rw [← Option.some.inj hstep]
    obtain ⟨hfree, halone⟩ := hsep h hi hmissing
    refine { hinv with handlers := ?_, separate := ?_ }
    · apply ok_set
      · exact hfree
      · intro j h' hj _
        exact (hinv.handlers h' (List.mem_of_getElem? hj)).of_same
          (Datasets.Extends.refl _) rfl rfl
    · apply hinv.separate_set
      intro _ j h' hj _ hp
      cases hp with
      | inl hunderway => exact halone h' (List.mem_of_getElem? hj) hunderway
      | inr hinserted =>
        -- the name of an inserted object is taken, that of the new one is free
        obtain ⟨ref, hstage⟩ := hinserted
        have hok := hinv.handlers h' (List.mem_of_getElem? hj)
        rw [Handler.Ok, hstage] at hok
        intro hname
        rw [hname, hfree] at hok
        nomatch hok.1
  next => nomatch hstep

theorem inv_arrive {s : State} (r : Request) (hinv : Inv s) :
    Inv { s with handlers := s.handlers ++ [⟨r, .arrived⟩] } := by
  have hold : ∀ (j : ℕ) (h : Handler), (s.handlers ++ [⟨r, .arrived⟩])[j]? = some h →
      h.Pending → s.handlers[j]? = some h := by
    intro j h hj hp
    rw [List.getElem?_append] at hj
    split at hj
    · exact hj
    · have hlast := List.mem_of_getElem? hj
      rw [List.mem_singleton] at hlast
      exact absurd (hlast ▸ hp) (Handler.not_pending_arrived r)
  refine { hinv with handlers := ?_, separate := ?_ }
  · intro h hh
    rw [List.mem_append, List.mem_singleton] at hh
    cases hh with
    | inl hh => exact (hinv.handlers h hh).of_same (Datasets.Extends.refl _) rfl rfl
    | inr hh =>
      rw [hh]
      trivial
  · intro j k a b ha hb hjk hpa hpb
    exact hinv.separate j k a b (hold j a ha hpa) (hold k b hb hpb) hjk hpa hpb

theorem inv_restore {s t : State} {i now : ℕ} {env : Environment} {readable : Bool}
    (hinv : Inv s) (hsep : Separate site cache s (.restore i env readable now))
    (hstep : step site cache s (.restore i env readable now) = some t) : Inv t := by
  rw [step, Option.bind_eq_some_iff] at hstep
  obtain ⟨h, hi, hstep⟩ := hstep
  unfold restoreStep at hstep
  split at hstep
  next hmissing =>
    rw [← Option.some.inj hstep]
    have hok := hinv.handlers h (List.mem_of_getElem? hi)
    rw [Handler.Ok, hmissing] at hok
    have hothers := hinv.others hi (.inl (Handler.underway_missing hmissing))
    refine { hinv with handlers := ?_, separate := ?_ }
    · apply ok_set
      · refine ⟨hok, _, List.getElem?_concat_length, ?_⟩
        exact Request.restoreOrCreate_id site env h.request now (hsep h hi)
      · intro j h' hj _
        exact (hinv.handlers h' (List.mem_of_getElem? hj)).of_same
          (Datasets.extends_create _ _) rfl rfl
    · apply hinv.separate_set
      intro _
      exact hothers
  next => nomatch hstep

theorem inv_insert {s t : State} {i : ℕ} (hinv : Inv s)
    (hstep : step site cache s (.insert i) = some t) : Inv t := by
  rw [step, Option.bind_eq_some_iff] at hstep
  obtain ⟨h, hi, hstep⟩ := hstep
  unfold insertStep at hstep
  split at hstep
  next ref hcreated =>
    simp only [Option.bind_eq_bind, Option.bind_eq_some_iff, Option.some_inj] at hstep
    obtain ⟨x, hx, rfl⟩ := hstep
    have hok := hinv.handlers h (List.mem_of_getElem? hi)
    rw [Handler.Ok, hcreated] at hok
    obtain ⟨hfree, y, hy, hname⟩ := hok
    obtain rfl : x = y := by
      rw [hx] at hy
      exact Option.some.inj hy
    have hXOBJECTS := s.datasets.insertDataset_XOBJECTS hx
    have hcount := hinv.counted x.id
    rw [hname, hfree] at hcount
    have hunloaded : s.loads.count h.request.name = 0 := by
      have hloaded := hinv.loaded h.request.name
      simp only [Option.isSome_none, Bool.false_eq_true, if_false] at hcount
      omega
    have hothers := hinv.others hi (.inl (Handler.underway_created hcreated))
    refine ⟨?_, ?_, ?_, ?_, ?_⟩
    · intro id
      dsimp only
      rw [hXOBJECTS, List.count_append, List.count_singleton, hinv.counted]
      by_cases hid : id = x.id
      · simp [hid, hname, hfree]
      · simp [hid, Ne.symm hid]
    · intro id
      dsimp only
      rw [List.count_append]
      exact Nat.le_trans (hinv.loaded id) (Nat.le_add_right _ _)
    · dsimp only
      rw [hinv.kept, hname, hfree]
      rfl
    · apply ok_set
      · refine ⟨?_, hunloaded, x, hx, hname⟩
        rw [hXOBJECTS, if_pos hname.symm]
        rfl
      · intro j h' hj hji
        refine (hinv.handlers h' (List.mem_of_getElem? hj)).of_named rfl rfl ?_ ?_
        · intro id hid
          dsimp only
          rw [hXOBJECTS]
          split
          · rfl
          · exact hid
        · intro hp
          dsimp only
          rw [hXOBJECTS, hname, if_neg (hothers j h' hj hji (.inl hp))]
    · apply hinv.separate_set
      intro _
      exact hothers
  next => nomatch hstep

theorem inv_startLoad {s t : State} {i : ℕ} (hinv : Inv s)
    (hstep : step site cache s (.startLoad i) = some t) : Inv t := by
  rw [step, Option.bind_eq_some_iff] at hstep
  obtain ⟨h, hi, hstep⟩ := hstep
  unfold startLoadStep at hstep
  split at hstep
  next ref hinserted =>
    simp only [Option.bind_eq_bind, Option.bind_eq_some_iff] at hstep
    obtain ⟨x, hx, hstep⟩ := hstep
    have hok := hinv.handlers h (List.mem_of_getElem? hi)
    rw [Handler.Ok, hinserted] at hok
    obtain ⟨htaken, hunloaded, y, hy, hname⟩ := hok
    obtain rfl : x = y := by
      rw [hx] at hy
      exact Option.some.inj hy
    have hothers := hinv.others hi (.inr ⟨ref, hinserted⟩)
    split at hstep
    · rw [← Option.some.inj hstep]
      refine { hinv with handlers := ?_, separate := ?_ }
      · apply ok_set
        · exact htaken
        · intro j h' hj _
          exact (hinv.handlers h' (List.mem_of_getElem? hj)).of_same
            (Datasets.Extends.refl _) rfl rfl
      · apply hinv.separate_set
        intro hp
        exact absurd hp (Handler.not_pending_finished _ _)
    · rw [← Option.some.inj hstep]
      refine { hinv with loaded := ?_, handlers := ?_, separate := ?_ }
      · intro id
        dsimp only
        rw [List.count_append, List.count_singleton]
        by_cases hid : id = x.id
        · have hcount := hinv.counted id
          rw [hid, hname, if_pos htaken] at hcount
          simp [hid, hname, hunloaded, hcount]
        · simp only [beq_iff_eq, if_neg (Ne.symm hid)]
          exact hinv.loaded id
      · apply ok_set
        · exact htaken
        · intro j h' hj hji
          refine (hinv.handlers h' (List.mem_of_getElem? hj)).of_loaded rfl rfl ?_
          intro ref' hstage
          rw [hname]
          exact hothers j h' hj hji (.inr ⟨ref', hstage⟩)
      · apply hinv.separate_set
        intro hp
        exact absurd hp (Handler.not_pending_finished _ _)
  next => nomatch hstep

theorem inv_finishLoad {s t : State} {ref : ℕ} {loaded : Bool} (hinv : Inv s)
    (hstep : step site cache s (.finishLoad ref loaded) = some t) : Inv t := by
  simp only [step, Option.ite_none_right_eq_some, Option.some_inj] at hstep
  obtain ⟨-, rfl⟩ := hstep
  refine { hinv with handlers := ?_ }
  intro h hh
  exact (hinv.handlers h hh).of_same (s.datasets.extends_finishLoad ref loaded) rfl rfl

theorem inv_step {s t : State} {a : Act} (hinv : Inv s) (ha : Separate site cache s a)
    (hstep : step site cache s a = some t) : Inv t := by
  cases a with
  | arrive r =>
    rw [step, Option.some_inj] at hstep
    exact hstep ▸ inv_arrive r hinv
  | test i now => exact inv_test site cache hinv ha hstep
  | restore i env readable now => exact inv_restore site cache hinv ha hstep
  | insert i => exact inv_insert site cache hinv hstep
  | startLoad i => exact inv_startLoad site cache hinv hstep
  | finishLoad ref loaded => exact inv_finishLoad site cache hinv hstep

theorem inv_empty : Inv .empty := by
  refine ⟨fun _ => rfl, fun _ => Nat.le_refl _, rfl, ?_, ?_⟩
  · intro h hh
    nomatch hh
  · intro i j h h' hi
    nomatch hi

theorem Inv.insertedOnce {s : State} (hinv : Inv s) : InsertedOnce s := by
  have hle : ∀ id, s.insertions.count id ≤ 1 := by
    intro id
    rw [hinv.counted]
    split <;> omega
  refine ⟨hle, fun id => Nat.le_trans (hinv.loaded id) (hle id), hinv.kept, ?_⟩
  intro h hh id hstage
  have hok := hinv.handlers h hh
  rw [Handler.Ok, hstage] at hok
  rw [hinv.counted, if_pos hok]

/-- In every run of separate requests each dataset is inserted and loaded once. -/
theorem dataset_inserted_once {s : State}
    (hs : Reach (server site cache) (Separate site cache) s) : InsertedOnce s := by
  have hinv := hs.invariant Inv inv_empty fun _ _ _ h ha hstep => inv_step site cache h ha hstep
  exact hinv.insertedOnce

/-- `filename=e.fits`, as two browser windows ask for it. -/
def fileRequest : Request := { dir := "/a", dataset := "e.fits" }

def noMission : Site := ⟨"/home", id, id⟩

def noFiles : Environment := ⟨fun _ => false, fun _ _ => none⟩

/-- The second request tests before the first one inserts; its object takes the place of one
that has been loaded, and the file is loaded again. -/
theorem dataset_inserted_twice :
    ¬ ∀ s, Reachable (server noMission fun _ => none) s → InsertedOnce s := by
  intro h
  have hs := reachable_exec (server noMission fun _ => none)
    [.arrive fileRequest, .arrive fileRequest, .test 0 0, .test 1 0, .restore 0 noFiles true 1,
      .insert 0, .startLoad 0, .finishLoad 0 true, .restore 1 noFiles true 2, .insert 1,
      .startLoad 1] rfl
  have honce := h _ hs
  exact absurd (honce.loads "e.fits") (by decide)

def urlRun : List Act :=
  [.arrive { url := "http://h/e.fits" }, .test 0 0, .restore 0 noFiles true 1, .insert 0,
    .startLoad 0, .arrive { dataset := "e.fits" }, .test 1 2]

/-- One request by url and then one by the name of this dataset. -/
theorem dataset_inserted_once_example :
    ∃ s, (server noMission fun _ => none).exec (Separate noMission fun _ => none) .empty urlRun =
      some s ∧ InsertedOnce s := by
  have hrun := reach_exec (server noMission fun _ => none) (Separate noMission fun _ => none)
    urlRun (by decide)
  exact ⟨_, (Option.some_get _).symm, dataset_inserted_once noMission (fun _ => none) hrun⟩

end XWebQL.ConcurrentRequests
