import Mathlib.Data.List.Basic
import Mathlib.Data.Int.Notation

/-! The datasets a server holds and the names of a request.
An object is a position in the list of all objects created so far; the
dictionary `XOBJECTS` holds such positions. Its lock makes each of
`dataset_exists`, `insert_dataset` and `get_dataset` one step. -/

namespace XWebQL.DatasetStore

structure XDataSet where
  id : String
  uri : String
  has_events : Bool
  has_error : Bool
  last_accessed : ℕ
deriving DecidableEq, Repr

/-- `XDataSet(id, uri)` -/
def XDataSet.create (id uri : String) (now : ℕ) : XDataSet := ⟨id, uri, false, false, now⟩

/-- `XDataSet()`, which stands for a dataset that was not found. -/
def XDataSet.empty : XDataSet := ⟨"", "", false, false, 0⟩

def XDataSet.updateTimestamp (now : ℕ) (x : XDataSet) : XDataSet :=
  { x with last_accessed := now }

def XDataSet.getElapsed (now : ℕ) (x : XDataSet) : ℤ := now - x.last_accessed

/-- The flags that a run of `load_events` leaves. -/
def XDataSet.finishLoad (loaded : Bool) (x : XDataSet) : XDataSet :=
  { x with has_events := loaded, has_error := !loaded }

@[simp] theorem XDataSet.updateTimestamp_id (now : ℕ) (x : XDataSet) :
    (x.updateTimestamp now).id = x.id := rfl

@[simp] theorem XDataSet.updateTimestamp_uri (now : ℕ) (x : XDataSet) :
    (x.updateTimestamp now).uri = x.uri := rfl

/-- All objects in the order of their creation, and `XOBJECTS`. -/
structure Datasets where
  heap : List XDataSet
  XOBJECTS : String → Option ℕ
  keyed : ∀ id ref, XOBJECTS id = some ref → ∃ x, heap[ref]? = some x ∧ x.id = id

namespace Datasets

def empty : Datasets where
  heap := []
  XOBJECTS _ := none
  keyed _ _ h := nomatch h

def datasetExists (d : Datasets) (datasetid : String) : Bool := (d.XOBJECTS datasetid).isSome

def getDataset (d : Datasets) (datasetid : String) : XDataSet :=
  ((d.XOBJECTS datasetid).bind fun ref => d.heap[ref]?).getD .empty

/-- A constructor call; the new object is at position `d.heap.length`. -/
def create (d : Datasets) (x : XDataSet) : Datasets where
  heap := d.heap ++ [x]
  XOBJECTS := d.XOBJECTS
  keyed id ref h := by
    obtain ⟨y, hy, hid⟩ := d.keyed id ref h
    exact ⟨y, List.getElem?_append_left (List.getElem?_eq_some_iff.mp hy).1 ▸ hy, hid⟩

/-- `xobjects[dataset.id] = dataset` -/
def insertDataset (d : Datasets) (ref : ℕ) : Datasets where
  heap := d.heap
  XOBJECTS id := if d.heap[ref]?.map XDataSet.id = some id then some ref else d.XOBJECTS id
  keyed id r h := by
    split at h
    next hid =>
      obtain rfl : ref = r := Option.some.inj h
      exact Option.map_eq_some_iff.mp hid
    next => exact d.keyed id r h

/-- `pop!(XOBJECTS, datasetid)` -/
def pop (d : Datasets) (datasetid : String) : Datasets where
  heap := d.heap
  XOBJECTS id := if id = datasetid then none else d.XOBJECTS id
  keyed id r h := by
    split at h
    · nomatch h
    · exact d.keyed id r h

/-- An assignment to the fields of one object; no code assigns its id. -/
def modify (d : Datasets) (ref : ℕ) (f : XDataSet → XDataSet) (hf : ∀ x, (f x).id = x.id) :
    Datasets where
  heap := d.heap.modify ref f
  XOBJECTS := d.XOBJECTS
  keyed id r h := by
    obtain ⟨y, hy, hid⟩ := d.keyed id r h
    rw [List.getElem?_modify, hy]
    by_cases hr : ref = r
    · exact ⟨f y, by simp [hr], by rw [hf, hid]⟩
    · exact ⟨y, by simp [hr], hid⟩

def updateTimestamp (d : Datasets) (ref now : ℕ) : Datasets :=
  d.modify ref (XDataSet.updateTimestamp now) fun _ => rfl

def finishLoad (d : Datasets) (ref : ℕ) (loaded : Bool) : Datasets :=
  d.modify ref (XDataSet.finishLoad loaded) fun _ => rfl

@[simp] theorem create_heap (d : Datasets) (x : XDataSet) : (d.create x).heap = d.heap ++ [x] := rfl

@[simp] theorem insertDataset_heap (d : Datasets) (ref : ℕ) :
    (d.insertDataset ref).heap = d.heap := rfl

@[simp] theorem modify_heap (d : Datasets) (ref : ℕ) (f : XDataSet → XDataSet)
    (hf : ∀ x, (f x).id = x.id) : (d.modify ref f hf).heap = d.heap.modify ref f := rfl

@[simp] theorem updateTimestamp_heap (d : Datasets) (ref now : ℕ) :
    (d.updateTimestamp ref now).heap = d.heap.modify ref (XDataSet.updateTimestamp now) := rfl

@[simp] theorem updateTimestamp_XOBJECTS (d : Datasets) (ref now : ℕ) :
    (d.updateTimestamp ref now).XOBJECTS = d.XOBJECTS := rfl

theorem insertDataset_XOBJECTS (d : Datasets) {ref : ℕ} {x : XDataSet}
    (hx : d.heap[ref]? = some x) (id : String) :
    (d.insertDataset ref).XOBJECTS id = if id = x.id then some ref else d.XOBJECTS id := by
  simp only [insertDataset, hx, Option.map_some, Option.some_inj, eq_comm]

theorem getDataset_eq {d : Datasets} {id : String} {ref : ℕ} {x : XDataSet}
    (href : d.XOBJECTS id = some ref) (hx : d.heap[ref]? = some x) : d.getDataset id = x := by
  rw [getDataset, href, Option.bind_some, hx, Option.getD_some]

theorem lt_of_XOBJECTS {d : Datasets} {id : String} {ref : ℕ} (h : d.XOBJECTS id = some ref) :
    ref < d.heap.length := by
  obtain ⟨x, hx, -⟩ := d.keyed id ref h
  exact (List.getElem?_eq_some_iff.mp hx).1

def Extends (d d' : Datasets) : Prop :=
  ∀ (ref : ℕ) (x : XDataSet), d.heap[ref]? = some x →
    ∃ y, d'.heap[ref]? = some y ∧ y.id = x.id ∧ y.uri = x.uri

theorem Extends.refl (d : Datasets) : Extends d d := by
  intro ref x hx
  exact ⟨x, hx, rfl, rfl⟩

theorem Extends.trans {d d' d'' : Datasets} (h : Extends d d') (h' : Extends d' d'') :
    Extends d d'' := by
  intro ref x hx
  obtain ⟨y, hy, hid, huri⟩ := h ref x hx
  obtain ⟨z, hz, hid', huri'⟩ := h' ref y hy
  exact ⟨z, hz, hid'.trans hid, huri'.trans huri⟩

theorem extends_of_heap_eq {d d' : Datasets} (h : d'.heap = d.heap) : Extends d d' := by
  intro ref x hx
  exact ⟨x, by rw [h, hx], rfl, rfl⟩

theorem extends_create (d : Datasets) (x : XDataSet) : Extends d (d.create x) := by
  intro ref y hy
  apply Exists.intro y
  rw [create_heap, List.getElem?_append_left (List.getElem?_eq_some_iff.mp hy).1]
  exact ⟨hy, rfl, rfl⟩

theorem extends_modify (d : Datasets) (ref : ℕ) (f : XDataSet → XDataSet)
    (hf : ∀ x, (f x).id = x.id) (huri : ∀ x, (f x).uri = x.uri) :
    Extends d (d.modify ref f hf) := by
  intro r x hx
  rw [modify_heap, List.getElem?_modify, hx]
  by_cases hr : ref = r
  · exact ⟨f x, by simp [hr], hf x, huri x⟩
  · exact ⟨x, by simp [hr], rfl, rfl⟩

theorem extends_updateTimestamp (d : Datasets) (ref now : ℕ) :
    Extends d (d.updateTimestamp ref now) :=
  extends_modify d ref (XDataSet.updateTimestamp now) (fun _ => rfl) fun _ => rfl

theorem extends_finishLoad (d : Datasets) (ref : ℕ) (loaded : Bool) :
    Extends d (d.finishLoad ref loaded) :=
  extends_modify d ref (XDataSet.finishLoad loaded) (fun _ => rfl) fun _ => rfl

end Datasets

/-- The constants and the text functions of the server that `streamXEvents` uses. -/
structure Site where
  XHOME : String
  uppercase : String → String
  lowercase : String → String

structure Environment where
  isfile : String → Bool
  get_jvo_path : String → String → Option String

/-- The query parameters of `events.html`; a missing one is `""`. -/
structure Request where
  dir : String := ""
  dataset : String := ""
  ext : String := ""
  url : String := ""
  mission : String := ""
deriving DecidableEq, Repr

/-- `split(uri, "/")[end]` -/
def lastSegment (uri : String) : String :=
  String.ofList ((uri.toList.splitOn '/').getLast?.getD [])

namespace Request

/-- The path below `XHOME`, or the one the database knows if there is no such file. -/
def homePath (site : Site) (env : Environment) (r : Request) : String :=
  let uri := site.XHOME ++ (if r.mission ≠ "" then "/" ++ site.uppercase r.mission else "") ++
    "/" ++ r.dataset
  if env.isfile uri then uri
  else (env.get_jvo_path r.dataset (site.lowercase r.mission)).getD uri

/-- The uri that `streamXEvents` computes for a dataset that it does not find in `XOBJECTS`. -/
def resolve (site : Site) (env : Environment) (r : Request) : String :=
  if r.url = "" then
    if r.dir ≠ "" then
      "file://" ++ r.dir ++ "/" ++ r.dataset ++ (if r.ext ≠ "" then "." ++ r.ext else "")
    else "file://" ++ r.homePath site env
  else r.url

def name (r : Request) : String := if r.url = "" then r.dataset else lastSegment r.url

/-- The object of a request that does not find its dataset: the copy that `deserialize` reads,
or a new one after any failure. -/
def restoreOrCreate (site : Site) (env : Environment) (r : Request) (copy : Option XDataSet)
    (now : ℕ) : XDataSet :=
  match copy with
  | some copy => copy.updateTimestamp now
  | none => .create r.name (r.resolve site env) now

theorem restoreOrCreate_id (site : Site) (env : Environment) (r : Request)
    {copy : Option XDataSet} (now : ℕ) (h : ∀ c, copy = some c → c.id = r.name) :
    (r.restoreOrCreate site env copy now).id = r.name := by
  cases copy with
  | some c => exact h c rfl
  | none => rfl

end Request

end XWebQL.DatasetStore
