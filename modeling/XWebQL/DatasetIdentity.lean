import XWebQL.DatasetStore
import XWebQL.Transition

/-! Which dataset the page of a request shows.
`XOBJECTS` goes by a name that one parameter gives, the cache by the UUID of
the whole uri, and a dataset read from the cache keeps the id of the request
that created it. The page gets its id through an attribute that nothing is
escaped in, and keeps asking for it while other pages come and go. Requests are
handled one after another here; between them datasets finish loading, are purged
and are written to the cache, and the server restarts with nothing but the cache. -/

namespace XWebQL.DatasetIdentity

open DatasetStore Transition

/-- A page that was sent: the uri of its request and the id it uses from then on. -/
structure Page where
  uri : String
  datasetid : String

/-- `finalizers` are the objects that left `XOBJECTS` and still wait for `serialize_dataset`. -/
structure State (U : Type) where
  datasets : Datasets
  cache : U → Option XDataSet
  finalizers : List ℕ
  pages : List Page

variable {U : Type}

namespace State

def empty : State U := ⟨.empty, fun _ => none, [], []⟩

variable (uuid5 : String → U) (getAttribute : String → String) (site : Site) (env : Environment)
  (s : State U) (r : Request)

/-- `deserialize(filename)`, which fails if there is no file or if it is not readable. -/
def restored (readable : Bool) : Option XDataSet :=
  if readable then s.cache (uuid5 (r.resolve site env)) else none

/-- The value of `dataset` when the page is written. -/
def written : String := if s.datasets.datasetExists r.dataset then r.dataset else r.name

/-- `data-datasetId='$dataset'`, as the browser reads it: nothing is escaped in it. -/
def pageId : String := getAttribute (s.written r)

def restoreOrCreate (readable : Bool) (now : ℕ) : XDataSet :=
  r.restoreOrCreate site env (s.restored uuid5 site env r readable) now

def serve (readable : Bool) (now : ℕ) : Datasets :=
  match s.datasets.XOBJECTS r.dataset with
  | some ref => s.datasets.updateTimestamp ref now
  | none => (s.datasets.create (s.restoreOrCreate uuid5 site env r readable now)).insertDataset
      s.datasets.heap.length

def replaced (readable : Bool) (now : ℕ) : Option ℕ :=
  if s.datasets.datasetExists r.dataset then none
  else s.datasets.XOBJECTS (s.restoreOrCreate uuid5 site env r readable now).id

def streamXEvents (readable : Bool) (now : ℕ) : State U :=
  let datasets := s.serve uuid5 site env r readable now
  { s with
    datasets := datasets
    finalizers := s.finalizers ++ (s.replaced uuid5 site env r readable now).toList
    pages := s.pages ++ [⟨r.resolve site env, s.pageId getAttribute r⟩] }

variable [DecidableEq U]

/-- `serialize_dataset`; `written` is false when the file cannot be written. -/
def serializeDataset (x : XDataSet) (written : Bool) : State U :=
  if x.has_events ∧ ¬ x.has_error ∧ s.cache (uuid5 x.uri) = none ∧ written then
    { s with cache := fun u => if u = uuid5 x.uri then some x else s.cache u }
  else s

end State

inductive Act
  | request (env : Environment) (r : Request) (readable : Bool) (now : ℕ)
  | finishLoad (ref : ℕ) (loaded : Bool)
  | purge (datasetid : String)
  | finalize (ref : ℕ) (written : Bool)
  | restart

variable [DecidableEq U] (uuid5 : String → U) (getAttribute : String → String) (site : Site)

def step (s : State U) : Act → Option (State U)
  | .request env r readable now => some (s.streamXEvents uuid5 getAttribute site env r readable now)
  | .finishLoad ref loaded => do
    let x ← s.datasets.heap[ref]?
    if x.has_events ∨ x.has_error then none
    else some { s with datasets := s.datasets.finishLoad ref loaded }
  | .purge datasetid => do
    let ref ← s.datasets.XOBJECTS datasetid
    some { s with
      datasets := s.datasets.pop datasetid
      finalizers := s.finalizers ++ [ref] }
  | .finalize ref written => do
    let x ← s.datasets.heap[ref]?
    if ref ∈ s.finalizers then
      some { s.serializeDataset uuid5 x written with finalizers := s.finalizers.erase ref }
    else none
  | .restart => some { s with
      datasets := ⟨s.datasets.heap, fun _ => none, fun _ _ h => nomatch h⟩
      finalizers := [] }

def server : System (State U) Act := ⟨.empty, step uuid5 getAttribute site⟩

/-- Every name in use still stands for the object it stood for before. -/
def Fewer (d d' : Datasets) : Prop :=
  d.Extends d' ∧ ∀ id ref, d'.XOBJECTS id = some ref → d.XOBJECTS id = some ref

/-- What a step can do: serve a request, write a file, or change neither pages nor files. -/
theorem step_cases {s t : State U} {a : Act} (hstep : step uuid5 getAttribute site s a = some t) :
    (∃ env r readable now, a = .request env r readable now ∧
      t = s.streamXEvents uuid5 getAttribute site env r readable now) ∨
    (∃ x written finalizers, (∃ ref, a = .finalize ref written) ∧
      t = { s.serializeDataset uuid5 x written with finalizers := finalizers }) ∨
    ((∀ env r readable now, a ≠ .request env r readable now) ∧ t.cache = s.cache ∧
      t.pages = s.pages ∧ Fewer s.datasets t.datasets) := by
  cases a with
  | request env r readable now =>
    rw [step, Option.some_inj] at hstep
    exact .inl ⟨env, r, readable, now, rfl, hstep.symm⟩
  | finishLoad ref loaded =>
    simp only [step, Option.bind_eq_bind, Option.bind_eq_some_iff,
      Option.ite_none_left_eq_some, Option.some_inj] at hstep
    obtain ⟨x, -, -, rfl⟩ := hstep
    exact .inr (.inr ⟨by simp, rfl, rfl, s.datasets.extends_finishLoad ref loaded,
      fun _ _ h => h⟩)
  | purge datasetid =>
    simp only [step, Option.bind_eq_bind, Option.bind_eq_some_iff, Option.some_inj] at hstep
    obtain ⟨ref, -, rfl⟩ := hstep
    refine .inr (.inr ⟨by simp, rfl, rfl, Datasets.extends_of_heap_eq rfl, fun id ref h => ?_⟩)
    simp only [Datasets.pop, Option.ite_none_left_eq_some] at h
    exact h.2
  | finalize ref written =>
    simp only [step, Option.bind_eq_bind, Option.bind_eq_some_iff,
      Option.ite_none_right_eq_some, Option.some_inj] at hstep
    obtain ⟨x, -, -, rfl⟩ := hstep
    exact .inr (.inl ⟨x, written, _, ⟨ref, rfl⟩, rfl⟩)
  | restart =>
    rw [step, Option.some_inj] at hstep
    rw [← hstep]
    refine .inr (.inr ⟨by simp, rfl, rfl, Datasets.extends_of_heap_eq rfl, fun id ref h => ?_⟩)
    cases h

/-- Every file of the cache holds a dataset of the uri that its name comes from. -/
def CacheKeyed (s : State U) : Prop := ∀ u x, s.cache u = some x → uuid5 x.uri = u

theorem cacheKeyed_serializeDataset {s : State U} (h : CacheKeyed uuid5 s) (x : XDataSet)
    (written : Bool) : CacheKeyed uuid5 (s.serializeDataset uuid5 x written) := by
  intro u y hy
  simp only [State.serializeDataset] at hy
  split at hy
  · dsimp only at hy
    split at hy
    next hu => rw [← Option.some.inj hy, hu]
    next => exact h u y hy
  · exact h u y hy

theorem cacheKeyed_step {s t : State U} {a : Act} (h : CacheKeyed uuid5 s)
    (hstep : step uuid5 getAttribute site s a = some t) : CacheKeyed uuid5 t := by
  obtain ⟨env, r, readable, now, -, rfl⟩ | ⟨x, written, finalizers, -, rfl⟩ | ⟨-, hcache, -⟩ :=
    step_cases uuid5 getAttribute site hstep
  · exact h
  · exact cacheKeyed_serializeDataset uuid5 h x written
  · rw [CacheKeyed, hcache]
    exact h

theorem cacheKeyed_of_reachable {s : State U} (hs : Reachable (server uuid5 getAttribute site) s) :
    CacheKeyed uuid5 s := by
  apply hs.invariant (CacheKeyed uuid5)
  · intro u x hx
    nomatch hx
  · intro s a t h _ hstep
    exact cacheKeyed_step uuid5 getAttribute site h hstep

section Serve

omit [DecidableEq U]

variable (env : Environment) (s : State U) (r : Request) (readable : Bool) (now : ℕ)

theorem serve_of_stored {ref : ℕ} (h : s.datasets.XOBJECTS r.dataset = some ref) :
    s.serve uuid5 site env r readable now = s.datasets.updateTimestamp ref now := by
  rw [State.serve, h]

theorem serve_of_missing (h : s.datasets.XOBJECTS r.dataset = none) :
    s.serve uuid5 site env r readable now =
      (s.datasets.create (s.restoreOrCreate uuid5 site env r readable now)).insertDataset
        s.datasets.heap.length := by
  rw [State.serve, h]

theorem serve_extends : s.datasets.Extends (s.serve uuid5 site env r readable now) := by
  cases h : s.datasets.XOBJECTS r.dataset with
  | some ref =>
    rw [serve_of_stored uuid5 site env s r readable now h]
    exact s.datasets.extends_updateTimestamp ref now
  | none =>
    rw [serve_of_missing uuid5 site env s r readable now h]
    exact (Datasets.extends_create _ _).trans (Datasets.extends_of_heap_eq rfl)

theorem serve_XOBJECTS_of_missing (h : s.datasets.XOBJECTS r.dataset = none) (id : String) :
    (s.serve uuid5 site env r readable now).XOBJECTS id =
      if id = (s.restoreOrCreate uuid5 site env r readable now).id then
        some s.datasets.heap.length
      else s.datasets.XOBJECTS id := by
  rw [serve_of_missing uuid5 site env s r readable now h, Datasets.insertDataset_XOBJECTS]
  · rfl
  · rw [Datasets.create_heap, List.getElem?_concat_length]

theorem serve_heap_of_missing (h : s.datasets.XOBJECTS r.dataset = none) :
    (s.serve uuid5 site env r readable now).heap[s.datasets.heap.length]? =
      some (s.restoreOrCreate uuid5 site env r readable now) := by
  rw [serve_of_missing uuid5 site env s r readable now h, Datasets.insertDataset_heap,
    Datasets.create_heap, List.getElem?_concat_length]

theorem restored_uri (huuid : Function.Injective uuid5) (hs : CacheKeyed uuid5 s)
    {copy : XDataSet} (h : s.restored uuid5 site env r readable = some copy) :
    copy.uri = r.resolve site env := by
  rw [State.restored, Option.ite_none_right_eq_some] at h
  exact huuid (hs _ copy h.2)

theorem restoreOrCreate_uri (huuid : Function.Injective uuid5) (hs : CacheKeyed uuid5 s) :
    (s.restoreOrCreate uuid5 site env r readable now).uri = r.resolve site env := by
  unfold State.restoreOrCreate
  cases h : s.restored uuid5 site env r readable with
  | some copy =>
    have huri : copy.uri = r.resolve site env :=
      restored_uri uuid5 site env s r readable huuid hs h
    exact huri
  | none => rfl

/-- `get_dataset` finds a dataset of this uri under the name. -/
def Finds (d : Datasets) (id uri : String) : Prop :=
  ∃ ref x, d.XOBJECTS id = some ref ∧ d.heap[ref]? = some x ∧ x.uri = uri

theorem getDataset_iff (d : Datasets) (id uri : String) :
    (d.getDataset id).id ≠ "" ∧ (d.getDataset id).uri = uri ↔ id ≠ "" ∧ Finds d id uri := by
  cases href : d.XOBJECTS id with
  | none =>
    have hempty : d.getDataset id = .empty := by
      rw [Datasets.getDataset, href]
      rfl
    constructor
    · rintro ⟨hpresent, -⟩
      rw [hempty] at hpresent
      exact absurd rfl hpresent
    · rintro ⟨-, ref, x, href', -⟩
      rw [href] at href'
      nomatch href'
  | some ref =>
    obtain ⟨x, hx, hid⟩ := d.keyed id ref href
    rw [Datasets.getDataset_eq href hx, hid]
    constructor
    · rintro ⟨hne, huri⟩
      exact ⟨hne, ref, x, href, hx, huri⟩
    · rintro ⟨hne, ref', x', href', hx', huri⟩
      obtain rfl : ref = ref' := Option.some.inj (href.symm.trans href')
      rw [hx, Option.some_inj] at hx'
      exact ⟨hne, hx' ▸ huri⟩

/-- What a request has to get: under the id of its page there is a dataset, it is of the uri of
the request, and a copy from the cache is under the name of the request. -/
structure ServedRight : Prop where
  present : ((s.serve uuid5 site env r readable now).getDataset (s.pageId getAttribute r)).id ≠ ""
  uri : ((s.serve uuid5 site env r readable now).getDataset (s.pageId getAttribute r)).uri =
    r.resolve site env
  restored : s.datasets.datasetExists r.dataset = false →
    (s.restored uuid5 site env r readable).isSome →
      (s.serve uuid5 site env r readable now).XOBJECTS r.name = some s.datasets.heap.length

structure Recognised : Prop where
  named : s.pageId getAttribute r ≠ ""
  found : (s.datasets.datasetExists r.dataset = false ∧ s.pageId getAttribute r = r.name) ∨
    Finds s.datasets (s.pageId getAttribute r) (r.resolve site env)
  cached : s.datasets.datasetExists r.dataset = false →
    ∀ copy, s.restored uuid5 site env r readable = some copy → copy.id = r.name

theorem servedRight_iff_finds : ServedRight uuid5 getAttribute site env s r readable now ↔
    (s.pageId getAttribute r ≠ "" ∧ Finds (s.serve uuid5 site env r readable now)
      (s.pageId getAttribute r) (r.resolve site env)) ∧
    (s.datasets.datasetExists r.dataset = false →
      (s.restored uuid5 site env r readable).isSome →
        (s.serve uuid5 site env r readable now).XOBJECTS r.name =
          some s.datasets.heap.length) := by
  rw [← getDataset_iff]
  exact ⟨fun h => ⟨⟨h.present, h.uri⟩, h.restored⟩, fun h => ⟨h.1.1, h.1.2, h.2⟩⟩

theorem finds_updateTimestamp (d : Datasets) (ref now : ℕ) (id uri : String) :
    Finds (d.updateTimestamp ref now) id uri ↔ Finds d id uri := by
  constructor
  · rintro ⟨ref', x, href, hx, huri⟩
    obtain ⟨y, hy, -⟩ := d.keyed id ref' href
    obtain ⟨x', hx', -, huri'⟩ := d.extends_updateTimestamp ref now ref' y hy
    obtain rfl : x = x' := Option.some.inj (hx.symm.trans hx')
    exact ⟨ref', y, href, hy, huri'.symm.trans huri⟩
  · rintro ⟨ref', x, href, hx, huri⟩
    obtain ⟨y, hy, -, huri'⟩ := d.extends_updateTimestamp ref now ref' x hx
    exact ⟨ref', y, href, hy, huri'.trans huri⟩

theorem servedRight_iff_of_stored {ref : ℕ} (h : s.datasets.XOBJECTS r.dataset = some ref) :
    ServedRight uuid5 getAttribute site env s r readable now ↔
      Recognised uuid5 getAttribute site env s r readable := by
  have hexists : s.datasets.datasetExists r.dataset ≠ false := by
    rw [Datasets.datasetExists, h]
    exact Bool.noConfusion
  rw [servedRight_iff_finds, serve_of_stored uuid5 site env s r readable now h,
    finds_updateTimestamp]
  constructor
  · rintro ⟨⟨hnamed, hfinds⟩, -⟩
    exact ⟨hnamed, .inr hfinds, fun hmissing => absurd hmissing hexists⟩
  · rintro ⟨hnamed, hfound, -⟩
    refine ⟨⟨hnamed, ?_⟩, fun hmissing => absurd hmissing hexists⟩
    exact hfound.resolve_left fun hmissing => absurd hmissing.1 hexists

theorem serve_XOBJECTS_name (h : s.datasets.XOBJECTS r.dataset = none) :
    (s.serve uuid5 site env r readable now).XOBJECTS r.name = some s.datasets.heap.length ↔
      (s.restoreOrCreate uuid5 site env r readable now).id = r.name := by
  rw [serve_XOBJECTS_of_missing uuid5 site env s r readable now h]
  constructor
  · intro hlast
    split at hlast
    next hid => exact hid.symm
    next => exact absurd (Datasets.lt_of_XOBJECTS hlast) (Nat.lt_irrefl _)
  · intro hid
    rw [if_pos hid.symm]

/-- Under its own name the new object is found, under any other name what was found before. -/
theorem finds_serve_of_missing (huuid : Function.Injective uuid5) (hs : CacheKeyed uuid5 s)
    (h : s.datasets.XOBJECTS r.dataset = none) (id uri : String) :
    Finds (s.serve uuid5 site env r readable now) id uri ↔
      if id = (s.restoreOrCreate uuid5 site env r readable now).id then r.resolve site env = uri
      else Finds s.datasets id uri := by
  have hXOBJECTS := serve_XOBJECTS_of_missing uuid5 site env s r readable now h id
  have hnew := serve_heap_of_missing uuid5 site env s r readable now h
  have hextends := serve_extends uuid5 site env s r readable now
  have huri := restoreOrCreate_uri uuid5 site env s r readable now huuid hs
  split_ifs at hXOBJECTS ⊢ with hid
  · constructor
    · rintro ⟨ref, x, href, hx, hxuri⟩
      obtain rfl := Option.some.inj (hXOBJECTS.symm.trans href)
      rw [hnew, Option.some_inj] at hx
      rw [← hxuri, ← hx, huri]
    · intro heq
      exact ⟨_, _, hXOBJECTS, hnew, huri.trans heq⟩
  · constructor
    · rintro ⟨ref, x, href, hx, hxuri⟩
      rw [hXOBJECTS] at href
      obtain ⟨y, hy, -⟩ := s.datasets.keyed id ref href
      obtain ⟨x', hx', -, huri'⟩ := hextends ref y hy
      obtain rfl : x = x' := Option.some.inj (hx.symm.trans hx')
      exact ⟨ref, y, href, hy, huri'.symm.trans hxuri⟩
    · rintro ⟨ref, x, href, hx, hxuri⟩
      obtain ⟨y, hy, -, huri'⟩ := hextends ref x hx
      exact ⟨ref, y, hXOBJECTS.trans href, hy, huri'.trans hxuri⟩

theorem restored_iff_of_missing (h : s.datasets.XOBJECTS r.dataset = none) :
    ((s.restored uuid5 site env r readable).isSome →
      (s.serve uuid5 site env r readable now).XOBJECTS r.name = some s.datasets.heap.length) ↔
    ∀ copy, s.restored uuid5 site env r readable = some copy → copy.id = r.name := by
  rw [serve_XOBJECTS_name uuid5 site env s r readable now h, State.restoreOrCreate]
  constructor
  · intro hname copy hcopy
    rw [hcopy] at hname
    exact hname rfl
  · intro hcached hsome
    exact r.restoreOrCreate_id site env now hcached

theorem servedRight_iff_of_missing (huuid : Function.Injective uuid5) (hs : CacheKeyed uuid5 s)
    (h : s.datasets.XOBJECTS r.dataset = none) :
    ServedRight uuid5 getAttribute site env s r readable now ↔
      Recognised uuid5 getAttribute site env s r readable := by
  have hmissing : s.datasets.datasetExists r.dataset = false := by
    rw [Datasets.datasetExists, h, Option.isSome_none]
  have hfinds := finds_serve_of_missing uuid5 site env s r readable now huuid hs h
    (s.pageId getAttribute r) (r.resolve site env)
  rw [servedRight_iff_finds, imp_iff_right hmissing,
    restored_iff_of_missing uuid5 site env s r readable now h, hfinds]
  constructor
  · rintro ⟨⟨hnamed, hfound⟩, hcached⟩
    have hid := r.restoreOrCreate_id site env now hcached
    refine ⟨hnamed, ?_, fun _ => hcached⟩
    split_ifs at hfound with hpage
    · exact .inl ⟨hmissing, hpage.trans hid⟩
    · exact .inr hfound
  · rintro ⟨hnamed, hfound, hcached⟩
    have hid := r.restoreOrCreate_id site env now (hcached hmissing)
    refine ⟨⟨hnamed, ?_⟩, hcached hmissing⟩
    split_ifs with hpage
    · rfl
    · exact hfound.resolve_left fun hname => hpage (hname.2.trans hid.symm)

theorem servedRight_iff (huuid : Function.Injective uuid5) (hs : CacheKeyed uuid5 s) :
    ServedRight uuid5 getAttribute site env s r readable now ↔
      Recognised uuid5 getAttribute site env s r readable := by
  cases h : s.datasets.XOBJECTS r.dataset with
  | some ref => exact servedRight_iff_of_stored uuid5 getAttribute site env s r readable now h
  | none => exact servedRight_iff_of_missing uuid5 getAttribute site env s r readable now huuid hs h

end Serve

/-- Whatever a page's id finds is of the uri of this page, also long after it was sent. -/
def PagesServed (s : State U) : Prop :=
  ∀ p ∈ s.pages, ∀ uri, Finds s.datasets p.datasetid uri → uri = p.uri

/-- The request does not give a new object the name that a page of another uri uses. -/
def Unclaimed (env : Environment) (s : State U) (r : Request) : Prop :=
  s.datasets.datasetExists r.dataset = false →
    ∀ p ∈ s.pages, p.datasetid = r.name → r.resolve site env = p.uri

/-- The condition on a step: a request is recognised and its name unclaimed, any other step is
free. -/
def ServedStep (s : State U) : Act → Prop
  | .request env r readable _ =>
    Recognised uuid5 getAttribute site env s r readable ∧ Unclaimed site env s r
  | _ => True

omit [DecidableEq U] in
theorem PagesServed.of_fewer {s t : State U} (h : PagesServed s)
    (hfewer : Fewer s.datasets t.datasets) (hpages : t.pages = s.pages) : PagesServed t := by
  rintro p hp uri ⟨ref, x, href, hx, huri⟩
  rw [hpages] at hp
  have href' := hfewer.2 _ _ href
  obtain ⟨y, hy, -⟩ := s.datasets.keyed _ _ href'
  obtain ⟨x', hx', -, huri'⟩ := hfewer.1 ref y hy
  obtain rfl : x = x' := Option.some.inj (hx.symm.trans hx')
  exact h p hp uri ⟨ref, y, href', hy, huri'.symm.trans huri⟩

theorem step_keeps {s t : State U} {a : Act} (hstep : step uuid5 getAttribute site s a = some t)
    (ha : ∀ env r readable now, a ≠ .request env r readable now) :
    Fewer s.datasets t.datasets ∧ t.pages = s.pages := by
  obtain ⟨env, r, readable, now, hrequest, -⟩ | ⟨x, written, finalizers, -, rfl⟩ |
    ⟨-, -, hpages, hfewer⟩ := step_cases uuid5 getAttribute site hstep
  · exact absurd hrequest (ha env r readable now)
  · unfold State.serializeDataset
    split
    · exact ⟨⟨Datasets.extends_of_heap_eq rfl, fun _ _ h => h⟩, rfl⟩
    · exact ⟨⟨Datasets.extends_of_heap_eq rfl, fun _ _ h => h⟩, rfl⟩
  · exact ⟨hfewer, hpages⟩

section Request

omit [DecidableEq U]

variable (env : Environment) (s : State U) (r : Request) (readable : Bool) (now : ℕ)

theorem finds_unique {d : Datasets} {id uri uri' : String} (h : Finds d id uri)
    (h' : Finds d id uri') : uri = uri' := by
  obtain ⟨ref, x, href, hx, huri⟩ := h
  obtain ⟨ref', x', href', hx', huri'⟩ := h'
  obtain rfl := Option.some.inj (href.symm.trans href')
  obtain rfl := Option.some.inj (hx.symm.trans hx')
  exact huri.symm.trans huri'

theorem pagesServed_request (huuid : Function.Injective uuid5) (hs : CacheKeyed uuid5 s)
    (h : PagesServed s) (hrec : Recognised uuid5 getAttribute site env s r readable)
    (hunclaimed : Unclaimed site env s r) :
    PagesServed (s.streamXEvents uuid5 getAttribute site env r readable now) := by
  have hright := (servedRight_iff_finds uuid5 getAttribute site env s r readable now).mp
    ((servedRight_iff uuid5 getAttribute site env s r readable now huuid hs).mpr hrec)
  intro p hp uri hfinds
  rw [State.streamXEvents, List.mem_append, List.mem_singleton] at hp
  obtain hp | rfl := hp
  · cases hstored : s.datasets.XOBJECTS r.dataset with
    | some ref =>
      rw [State.streamXEvents, serve_of_stored uuid5 site env s r readable now hstored,
        finds_updateTimestamp] at hfinds
      exact h p hp uri hfinds
    | none =>
      have hmissing : s.datasets.datasetExists r.dataset = false := by
        rw [Datasets.datasetExists, hstored, Option.isSome_none]
      have hid := r.restoreOrCreate_id site env now (hrec.cached hmissing)
      rw [State.streamXEvents,
        finds_serve_of_missing uuid5 site env s r readable now huuid hs hstored] at hfinds
      split_ifs at hfinds with hclaimed
      · rw [← hfinds]
        exact hunclaimed hmissing p hp (hclaimed.trans hid)
      · exact h p hp uri hfinds
  · exact finds_unique hfinds hright.1.2

/-- With pages that were served right, a request is served right and does not disturb the other
pages exactly under the condition on its step. -/
theorem request_iff (huuid : Function.Injective uuid5) (hs : CacheKeyed uuid5 s)
    (h : PagesServed s) :
    ServedRight uuid5 getAttribute site env s r readable now ∧
        PagesServed (s.streamXEvents uuid5 getAttribute site env r readable now) ↔
      Recognised uuid5 getAttribute site env s r readable ∧ Unclaimed site env s r := by
  rw [servedRight_iff uuid5 getAttribute site env s r readable now huuid hs]
  constructor
  · rintro ⟨hrec, hpages⟩
    refine ⟨hrec, fun hmissing p hp hname => ?_⟩
    have hnone : s.datasets.XOBJECTS r.dataset = none := by
      rw [Datasets.datasetExists] at hmissing
      exact Option.isSome_eq_false_iff.mp hmissing |> Option.isNone_iff_eq_none.mp
    have hid := r.restoreOrCreate_id site env now (hrec.cached hmissing)
    refine hpages p (List.mem_append_left _ hp) (r.resolve site env) ?_
    rw [State.streamXEvents,
      finds_serve_of_missing uuid5 site env s r readable now huuid hs hnone]
    exact (if_pos (hname.trans hid.symm)).mpr rfl
  · rintro ⟨hrec, hunclaimed⟩
    exact ⟨hrec, pagesServed_request uuid5 getAttribute site env s r readable now huuid hs h hrec
      hunclaimed⟩

end Request

theorem pagesServed_step (huuid : Function.Injective uuid5) {s t : State U} {a : Act}
    (hs : CacheKeyed uuid5 s) (h : PagesServed s) (ha : ServedStep uuid5 getAttribute site s a)
    (hstep : step uuid5 getAttribute site s a = some t) : PagesServed t := by
  by_cases hrequest : ∃ env r readable now, a = .request env r readable now
  · obtain ⟨env, r, readable, now, rfl⟩ := hrequest
    rw [step, Option.some_inj] at hstep
    rw [← hstep]
    exact pagesServed_request uuid5 getAttribute site env s r readable now huuid hs h ha.1 ha.2
  · push Not at hrequest
    obtain ⟨hfewer, hpages⟩ := step_keeps uuid5 getAttribute site hstep hrequest
    exact h.of_fewer hfewer hpages

theorem pagesServed_of_reach (huuid : Function.Injective uuid5) {s : State U}
    (hs : Reach (server uuid5 getAttribute site) (ServedStep uuid5 getAttribute site) s) :
    CacheKeyed uuid5 s ∧ PagesServed s := by
  apply hs.invariant fun s => CacheKeyed uuid5 s ∧ PagesServed s
  · constructor
    · intro u x hx
      nomatch hx
    · intro p hp
      nomatch hp
  · intro s a t ⟨hkeyed, hserved⟩ ha hstep
    exact ⟨cacheKeyed_step uuid5 getAttribute site hkeyed hstep,
      pagesServed_step uuid5 getAttribute site huuid hkeyed hserved ha hstep⟩

/-- In every state that any run leads to, a request is served right exactly if the naming schemes
agree on it. In a run of such requests under unclaimed names, whatever the id of a page finds at
any time is of the uri of this page, pages of different uris find different objects, and the
condition on the next request is exact. -/
theorem dataset_identity (huuid : Function.Injective uuid5) :
    (∀ s, Reachable (server uuid5 getAttribute site) s → ∀ env r readable now,
      ServedRight uuid5 getAttribute site env s r readable now ↔
        Recognised uuid5 getAttribute site env s r readable) ∧
    ∀ s, Reach (server uuid5 getAttribute site) (ServedStep uuid5 getAttribute site) s →
      PagesServed s ∧
      (∀ p ∈ s.pages, ∀ q ∈ s.pages, p.uri ≠ q.uri → ∀ ref,
        s.datasets.XOBJECTS p.datasetid = some ref →
          s.datasets.XOBJECTS q.datasetid ≠ some ref) ∧
      ∀ env r readable now,
        ServedRight uuid5 getAttribute site env s r readable now ∧
            PagesServed (s.streamXEvents uuid5 getAttribute site env r readable now) ↔
          Recognised uuid5 getAttribute site env s r readable ∧ Unclaimed site env s r := by
  constructor
  · intro s hs env r readable now
    exact servedRight_iff uuid5 getAttribute site env s r readable now huuid
      (cacheKeyed_of_reachable uuid5 getAttribute site hs)
  · intro s hs
    obtain ⟨hkeyed, hserved⟩ := pagesServed_of_reach uuid5 getAttribute site huuid hs
    refine ⟨hserved, fun p hp q hq huri ref hpref hqref => huri ?_, fun env r readable now =>
      request_iff uuid5 getAttribute site env s r readable now huuid hkeyed hserved⟩
    obtain ⟨x, hx, -⟩ := s.datasets.keyed _ _ hpref
    exact (hserved p hp x.uri ⟨ref, x, hpref, hx, rfl⟩).symm.trans
      (hserved q hq x.uri ⟨ref, x, hqref, hx, rfl⟩)

def quoted (written : String) : String :=
  String.ofList (written.toList.takeWhile fun c => c ≠ (Char.ofNat 39))

/-- `/home` without a mission directory, no file there and no database. -/
def exampleSite : Site := ⟨"/home", id, id⟩

def exampleEnvironment : Environment := ⟨fun _ => false, fun _ _ => none⟩

/-- `dir=/a&filename=e.fits` and `dir=/b&filename=e.fits` -/
def sameName (dir : String) : Request := { dir := dir, dataset := "e.fits" }

/-- One file loads, and a request for another file of this name gets its dataset. -/
theorem dataset_identity_counterexample :
    ¬ ∀ s, Reachable (server (id : String → String) quoted exampleSite) s →
      ∀ env r readable now, ServedRight id quoted exampleSite env s r readable now := by
  intro h
  have hs := reachable_exec (server (id : String → String) quoted exampleSite)
    [.request exampleEnvironment (sameName "/a") true 0, .finishLoad 0 true] rfl
  have hright := h _ hs exampleEnvironment (sameName "/b") true 1
  exact absurd hright.uri (by decide)

theorem dataset_identity_example :
    (∀ s, Reachable (server (id : String → String) quoted exampleSite) s →
      ∀ env r readable now, ServedRight id quoted exampleSite env s r readable now ↔
        Recognised id quoted exampleSite env s r readable) ∧
    ∀ s, Reach (server (id : String → String) quoted exampleSite)
        (ServedStep id quoted exampleSite) s →
      PagesServed s ∧
      (∀ p ∈ s.pages, ∀ q ∈ s.pages, p.uri ≠ q.uri → ∀ ref,
        s.datasets.XOBJECTS p.datasetid = some ref →
          s.datasets.XOBJECTS q.datasetid ≠ some ref) ∧
      ∀ env r readable now,
        ServedRight id quoted exampleSite env s r readable now ∧
            PagesServed (s.streamXEvents id quoted exampleSite env r readable now) ↔
          Recognised id quoted exampleSite env s r readable ∧ Unclaimed exampleSite env s r :=
  dataset_identity id quoted exampleSite fun _ _ h => h

end XWebQL.DatasetIdentity
