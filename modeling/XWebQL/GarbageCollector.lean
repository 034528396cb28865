import XWebQL.DatasetStore
import XWebQL.Transition

/-! The purge of idle datasets between the steps of the handlers.
`garbage_collector` reads a pair of the dictionary, reads the age of the object
and removes by the key, each on its own; only the removal holds the lock. Time
is the clock that `now()` reads and never goes back. -/

namespace XWebQL.GarbageCollector

open DatasetStore Transition

/-- The loop `for (datasetid, xobject) in xobjects`: between two pairs, with a pair it has read,
or with one it has found older than the timeout. -/
inductive Collector
  | waiting
  | visiting (datasetid : String) (object : ℕ)
  | purging (datasetid : String) (object : ℕ)
deriving DecidableEq, Repr

def Collector.key : Collector → Option String
  | .waiting => none
  | .visiting datasetid _ => some datasetid
  | .purging datasetid _ => some datasetid

/-- An object that left `XOBJECTS`, with its idle time at that moment. -/
structure Removal where
  object : ℕ
  idle : ℤ
deriving DecidableEq, Repr

structure State where
  datasets : Datasets
  now : ℕ
  collector : Collector
  removals : List Removal

def State.empty : State := ⟨.empty, 0, .waiting, []⟩

/-- `get_elapsed(xobject)` of the object at a position -/
def State.elapsed (s : State) (ref : ℕ) : Option ℤ :=
  s.datasets.heap[ref]?.map (XDataSet.getElapsed s.now)

inductive Act
  | next (datasetid : String)
  | age
  | pop
  | tick (seconds : ℕ)
  | create (id uri : String)
  | insertDataset (object : ℕ)
  | updateTimestamp (object : ℕ)
  | getDataset (datasetid : String)

variable (timeout : ℤ)

/-- `if elapsed > timeout` -/
def ageStep (s : State) : Option State :=
  match s.collector with
  | .visiting datasetid ref => do
    let elapsed ← s.elapsed ref
    if timeout < elapsed then some { s with collector := .purging datasetid ref }
    else some { s with collector := .waiting }
  | _ => none

/-- `pop!(XOBJECTS, datasetid)`, which throws for a key that is gone; the loop goes on. -/
def popStep (s : State) : Option State :=
  match s.collector with
  | .purging datasetid _ => some { s with
      datasets := s.datasets.pop datasetid
      collector := .waiting
      removals := s.removals ++ ((s.datasets.XOBJECTS datasetid).bind fun ref =>
        (s.elapsed ref).map (Removal.mk ref)).toList }
  | _ => none

def step (s : State) : Act → Option State
  | .next datasetid => do
    let ref ← s.datasets.XOBJECTS datasetid
    if s.collector = .waiting ∧ 0 < timeout then
      some { s with collector := .visiting datasetid ref }
    else none
  | .age => ageStep timeout s
  | .pop => popStep s
  | .tick seconds => some { s with now := s.now + seconds }
  | .create id uri => some { s with datasets := s.datasets.create (.create id uri s.now) }
  | .insertDataset ref => some { s with datasets := s.datasets.insertDataset ref }
  | .updateTimestamp ref => some { s with datasets := s.datasets.updateTimestamp ref s.now }
  | .getDataset _ => some s

def server : System State Act := ⟨.empty, step timeout⟩

/-- Only objects that are idle for longer than the timeout are removed. -/
def RemovesIdle (s : State) : Prop := ∀ r ∈ s.removals, timeout < r.idle

/-- Nobody touches the object that the collector found too old, and nobody inserts under the
key that it has read. -/
def Undisturbed (s : State) : Act → Prop
  | .updateTimestamp ref => ∀ id ∈ s.collector.key, s.collector ≠ .purging id ref
  | .insertDataset ref => ∀ x ∈ s.datasets.heap[ref]?, x.id ∉ s.collector.key
  | _ => True

instance (s : State) (a : Act) : Decidable (Undisturbed s a) := by
  cases a <;> unfold Undisturbed <;> infer_instance

/-- The pair of the collector is still in the dictionary, and an object that it found too old
still is. -/
def Collector.Ok (s : State) : Collector → Prop
  | .waiting => True
  | .visiting datasetid ref => s.datasets.XOBJECTS datasetid = some ref
  | .purging datasetid ref => s.datasets.XOBJECTS datasetid = some ref ∧
      ∀ elapsed ∈ s.elapsed ref, timeout < elapsed

structure Inv (s : State) : Prop where
  removals : RemovesIdle timeout s
  collector : s.collector.Ok timeout s

theorem inv_next {s t : State} {datasetid : String} (hinv : Inv timeout s)
    (hstep : step timeout s (.next datasetid) = some t) : Inv timeout t := by
  simp only [step, Option.bind_eq_bind, Option.bind_eq_some_iff, Option.ite_none_right_eq_some,
    Option.some_inj] at hstep
  obtain ⟨ref, href, -, rfl⟩ := hstep
  exact ⟨hinv.removals, href⟩

theorem inv_age {s t : State} (hinv : Inv timeout s) (hstep : ageStep timeout s = some t) :
    Inv timeout t := by
  have hok := hinv.collector
  unfold ageStep at hstep
  split at hstep
  next datasetid ref hvisiting =>
    rw [hvisiting] at hok
    simp only [Option.bind_eq_bind, Option.bind_eq_some_iff] at hstep
    obtain ⟨elapsed, helapsed, hstep⟩ := hstep
    split at hstep
    next hold =>
      rw [← Option.some.inj hstep]
      refine ⟨hinv.removals, hok, ?_⟩
      intro elapsed' helapsed'
      change s.elapsed ref = some elapsed' at helapsed'
      rw [helapsed] at helapsed'
      rwa [← Option.some.inj helapsed']
    next =>
      rw [← Option.some.inj hstep]
      exact ⟨hinv.removals, trivial⟩
  next => nomatch hstep

theorem inv_pop {s t : State} (hinv : Inv timeout s) (hstep : popStep s = some t) :
    Inv timeout t := by
  have hok := hinv.collector
  unfold popStep at hstep
  split at hstep
  next datasetid ref hpurging =>
    rw [hpurging] at hok
    obtain ⟨href, hold⟩ := hok
    rw [← Option.some.inj hstep]
    refine ⟨?_, trivial⟩
    intro r hr
    rw [List.mem_append, href, Option.bind_some, Option.mem_toList] at hr
    cases hr with
    | inl hr => exact hinv.removals r hr
    | inr hr =>
      rw [Option.map_eq_some_iff] at hr
      obtain ⟨elapsed, helapsed, rfl⟩ := hr
      exact hold elapsed helapsed
  next => nomatch hstep

theorem inv_tick {s : State} (seconds : ℕ) (hinv : Inv timeout s) :
    Inv timeout { s with now := s.now + seconds } := by
  refine ⟨hinv.removals, ?_⟩
  have hok := hinv.collector
  cases hcollector : s.collector with
  | waiting => trivial
  | visiting datasetid ref =>
    rw [hcollector] at hok
    exact hok
  | purging datasetid ref =>
    rw [hcollector] at hok
    refine ⟨hok.1, ?_⟩
    intro elapsed helapsed
    rw [Option.mem_def, State.elapsed, Option.map_eq_some_iff] at helapsed
    obtain ⟨x, hx, rfl⟩ := helapsed
    have hold := hok.2 (x.getElapsed s.now)
      (by rw [Option.mem_def, State.elapsed, hx, Option.map_some])
    simp only [XDataSet.getElapsed] at hold ⊢
    omega

theorem inv_create {s : State} (id uri : String) (hinv : Inv timeout s) :
    Inv timeout { s with datasets := s.datasets.create (.create id uri s.now) } := by
  refine ⟨hinv.removals, ?_⟩
  have hok := hinv.collector
  cases hcollector : s.collector with
  | waiting => trivial
  | visiting datasetid ref =>
    rw [hcollector] at hok
    exact hok
  | purging datasetid ref =>
    rw [hcollector] at hok
    refine ⟨hok.1, ?_⟩
    intro elapsed helapsed
    apply hok.2
    rw [Option.mem_def, State.elapsed, Datasets.create_heap,
      List.getElem?_append_left (Datasets.lt_of_XOBJECTS hok.1)] at helapsed
    exact helapsed

theorem inv_insertDataset {s : State} {ref : ℕ} (hinv : Inv timeout s)
    (hkey : ∀ x ∈ s.datasets.heap[ref]?, x.id ∉ s.collector.key) :
    Inv timeout { s with datasets := s.datasets.insertDataset ref } := by
  have hkept : ∀ datasetid ∈ s.collector.key,
      (s.datasets.insertDataset ref).XOBJECTS datasetid = s.datasets.XOBJECTS datasetid := by
    intro datasetid hid
    have hne : s.datasets.heap[ref]?.map XDataSet.id ≠ some datasetid := by
      intro h
      rw [Option.map_eq_some_iff] at h
      obtain ⟨x, hx, rfl⟩ := h
      exact hkey x hx hid
    exact if_neg hne
  refine ⟨hinv.removals, ?_⟩
  have hok := hinv.collector
  cases hcollector : s.collector with
  | waiting => trivial
  | visiting datasetid r =>
    rw [hcollector] at hok hkept
    exact (hkept datasetid rfl).trans hok
  | purging datasetid r =>
    rw [hcollector] at hok hkept
    exact ⟨(hkept datasetid rfl).trans hok.1, hok.2⟩

theorem inv_updateTimestamp {s : State} {ref : ℕ} (hinv : Inv timeout s)
    (hother : ∀ id ∈ s.collector.key, s.collector ≠ .purging id ref) :
    Inv timeout { s with datasets := s.datasets.updateTimestamp ref s.now } := by
  refine ⟨hinv.removals, ?_⟩
  have hok := hinv.collector
  cases hcollector : s.collector with
  | waiting => trivial
  | visiting datasetid r =>
    rw [hcollector] at hok
    exact hok
  | purging datasetid r =>
    rw [hcollector] at hok hother
    have hne : ref ≠ r := by
      rintro rfl
      exact hother datasetid rfl rfl
    refine ⟨hok.1, ?_⟩
    intro elapsed helapsed
    apply hok.2
    rw [Option.mem_def, State.elapsed, Datasets.updateTimestamp_heap,
      List.getElem?_modify_ne _ _ hne] at helapsed
    exact helapsed

theorem inv_step {s t : State} {a : Act} (hinv : Inv timeout s) (ha : Undisturbed s a)
    (hstep : step timeout s a = some t) : Inv timeout t := by
  cases a with
  | next datasetid => exact inv_next timeout hinv hstep
  | age => exact inv_age timeout hinv hstep
  | pop => exact inv_pop timeout hinv hstep
  | tick seconds =>
    rw [step, Option.some_inj] at hstep
    exact hstep ▸ inv_tick timeout seconds hinv
  | create id uri =>
    rw [step, Option.some_inj] at hstep
    exact hstep ▸ inv_create timeout id uri hinv
  | insertDataset ref =>
    rw [step, Option.some_inj] at hstep
    exact hstep ▸ inv_insertDataset timeout hinv ha
  | updateTimestamp ref =>
    rw [step, Option.some_inj] at hstep
    exact hstep ▸ inv_updateTimestamp timeout hinv ha
  | getDataset datasetid =>
    rw [step, Option.some_inj] at hstep
    exact hstep ▸ hinv

theorem inv_empty : Inv timeout .empty := by
  refine ⟨?_, trivial⟩
  intro r hr
  nomatch hr

/-- In every run that does not disturb the collector between its steps, it removes nothing but
idle objects. -/
theorem garbage_collector_removes_idle {s : State}
    (hs : Reach (server timeout) Undisturbed s) : RemovesIdle timeout s := by
  have hinv := hs.invariant (Inv timeout) (inv_empty timeout)
    fun _ _ _ h ha hstep => inv_step timeout h ha hstep
  exact hinv.removals

/-- A dataset that is idle for 20 seconds is purged by a collector with a timeout of 10. -/
def idleRun : List Act :=
  [.create "a" "file:///a", .insertDataset 0, .tick 20, .next "a", .age, .tick 1, .pop]

theorem garbage_collector_removes_idle_example :
    ∃ s, (server 10).exec Undisturbed .empty idleRun = some s ∧ RemovesIdle 10 s := by
  have hrun := reach_exec (server 10) Undisturbed idleRun (by decide)
  exact ⟨_, (Option.some_get _).symm, garbage_collector_removes_idle 10 hrun⟩

/-- A handler touches the dataset after its age was read: it is removed at once. -/
theorem garbage_collector_removes_touched :
    ¬ ∀ timeout s, Reachable (server timeout) s → RemovesIdle timeout s := by
  intro h
  have hs := reachable_exec (server 10)
    [.create "a" "file:///a", .insertDataset 0, .tick 20, .next "a", .age, .updateTimestamp 0,
      .pop] (by decide)
  have hidle := h 10 _ hs ⟨0, 0⟩ (by decide)
  exact absurd hidle (by decide)

end XWebQL.GarbageCollector
