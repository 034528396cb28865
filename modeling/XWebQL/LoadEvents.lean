import Mathlib.Data.Rat.Defs
import XWebQL.DatasetStore

/-! A run of `load_events` over every answer of the world around it.
A call that can throw is an `Option`: the download, opening the file, the header
of the second HDU and the three columns. The element operations of the energies
are parameters, since nothing here depends on their rounding. -/

namespace XWebQL.LoadEvents

open DatasetStore

/-- A column as `read(f[2], name)` returns it, one value or one array of values a row. -/
structure Column (α : Type) where
  shape : List ℕ
  data : List α
  size : data.length = shape.foldr (· * ·) 1

def Column.map {α β : Type} (f : α → β) (c : Column α) : Column β where
  shape := c.shape
  data := c.data.map f
  size := by rw [List.length_map, c.size]

/-- `column[mask]`, which throws if the shapes differ. -/
def Column.masked {α : Type} (c : Column α) (mask : Column Bool) : Option (List α) :=
  if c.shape = mask.shape then
    some ((c.data.zip mask.data).filterMap fun p => if p.2 then some p.1 else none)
  else none

abbrev FITSHeader : Type := String → Option String

/-- What an opened file answers to the calls of `load_events`. -/
structure FITS (V P : Type) where
  header : Option FITSHeader
  X : Option (Column V)
  Y : Option (Column V)
  PI : Option (Column P)

/-- What `Downloads.download` reports as `(total, progress)`, and the file, if neither the
download nor `FITS` throws. -/
structure Opening (V P : Type) where
  reports : List (ℤ × ℤ)
  file : Option (FITS V P)

/-- The fields of `XDataSet` that `load_events` writes, besides the flags. -/
structure Dataset (V E : Type) extends XDataSet where
  num_events : ℕ
  header : Option FITSHeader
  x : Option (List V)
  y : Option (List V)
  energy : Option (List E)
  progress : ℤ
  total : ℤ

def Dataset.create {V E : Type} (id uri : String) (now : ℕ) : Dataset V E :=
  { XDataSet.create id uri now with
    num_events := 0, header := none, x := none, y := none, energy := none
    progress := 0, total := 0 }

structure Arithmetic (P E : Type) where
  times : P → ℚ → E
  positive : E → Bool
  log : E → E

def HITOMI_SXS_PI2eV : ℚ := 0.5
def HITOMI_SXI_PI2eV : ℚ := 6
def XRISM_RESOLVE_PI2eV : ℚ := 0.5
def XRISM_XTEND_PI2eV : ℚ := 6

def getEnergyConversionFactor (uppercase : String → String) (header : FITSHeader) :
    Option ℚ := do
  let TELESCOP := uppercase (← header "TELESCOP")
  let INSTRUME := uppercase (← header "INSTRUME")
  if TELESCOP = "HITOMI" ∧ INSTRUME = "SXS" then some HITOMI_SXS_PI2eV
  else if TELESCOP = "HITOMI" ∧ INSTRUME = "SXI" then some HITOMI_SXI_PI2eV
  else if TELESCOP = "XRISM" ∧ INSTRUME = "RESOLVE" then some XRISM_RESOLVE_PI2eV
  else if TELESCOP = "XRISM" ∧ INSTRUME = "XTEND" then some XRISM_XTEND_PI2eV
  else none

variable {V P E : Type} (arith : Arithmetic P E) (uppercase : String → String)

def readEvents (header : FITSHeader) (f : FITS V P) : Option (List V × List V × List E) := do
  let PI2eV ← getEnergyConversionFactor uppercase header
  let x ← f.X
  let y ← f.Y
  let energy := (← f.PI).map fun channel => arith.times channel PI2eV
  let mask := energy.map arith.positive
  some (← x.masked mask, ← y.masked mask, ← energy.masked mask)

/-- The last `try`, with its `catch`; `update_timestamp` is its `finally`. -/
def loadTable (d : Dataset V E) (f : FITS V P) (now : ℕ) : Dataset V E :=
  match f.header with
  | none => { d with has_error := true, last_accessed := now }
  | some header =>
    match readEvents arith uppercase header f with
    | none => { d with header := some header, has_error := true, last_accessed := now }
    | some (x, y, energy) => { d with
        header := some header
        num_events := x.length
        x := some x
        y := some y
        energy := some (energy.map arith.log)
        has_events := true
        last_accessed := now }

/-- `startswith(uri, "http") || startswith(uri, "ftp")` -/
def isRemote (uri : String) : Bool :=
  "http".toList.isPrefixOf uri.toList || "ftp".toList.isPrefixOf uri.toList

/-- `download_progress`, called with every report. -/
def downloadProgress (d : Dataset V E) (reports : List (ℤ × ℤ)) : Dataset V E :=
  reports.foldl (fun d r => { d with total := r.1, progress := r.2 }) d

/-- The dataset when the task of `load_events` is over. Only the download is inside a `try`: an
exception of `FITS(uri)` ends the task. -/
def loadEvents (d : Dataset V E) (opening : Opening V P) (now : ℕ) : Dataset V E :=
  if isRemote d.uri then
    let d := downloadProgress d opening.reports
    match opening.file with
    | none => { d with has_error := true }
    | some f => loadTable arith uppercase { d with total := 1, progress := 1 } f now
  else
    match opening.file with
    | none => d
    | some f => loadTable arith uppercase { d with total := 1, progress := 1 } f now

/-- The answers of `streamImageSpectrum` before it computes an image. -/
def imageSpectrumStatus (d : Dataset V E) (width height : ℤ) : Option ℕ :=
  if d.id = "" ∨ width ≤ 0 ∨ height ≤ 0 then some 404
  else if d.has_error then some 500
  else if ¬ d.has_events then some 202
  else none

theorem zip_filter_length {α β : Type} (a : List α) (b : List β) (mask : List Bool)
    (hab : a.length = b.length) :
    ((a.zip mask).filterMap fun p => if p.2 then some p.1 else none).length =
      ((b.zip mask).filterMap fun p => if p.2 then some p.1 else none).length := by
  induction mask generalizing a b with
  | nil => simp only [List.zip_nil_right, List.filterMap_nil, List.length_nil]
  | cons m mask ih =>
    cases a with
    | nil =>
      obtain rfl : b = [] := List.length_eq_zero_iff.mp hab.symm
      rfl
    | cons u a =>
      cases b with
      | nil => nomatch hab
      | cons v b =>
        have htail := ih a b (Nat.succ.inj hab)
        cases m with
        | false => simpa using htail
        | true => simpa using htail

theorem masked_length {α β : Type} {a : Column α} {b : Column β} {mask : Column Bool}
    {u : List α} {v : List β} (hu : a.masked mask = some u) (hv : b.masked mask = some v) :
    u.length = v.length := by
  rw [Column.masked, Option.ite_none_right_eq_some] at hu hv
  obtain ⟨hashape, hu⟩ := hu
  obtain ⟨hbshape, hv⟩ := hv
  rw [← Option.some.inj hu, ← Option.some.inj hv]
  apply zip_filter_length
  rw [a.size, b.size, hashape, hbshape]

theorem masked_map_mem {α : Type} (p : α → Bool) {a : Column α} {u : List α}
    (hu : a.masked (a.map p) = some u) : ∀ v ∈ u, p v = true := by
  have hshape : a.shape = (a.map p).shape := rfl
  rw [Column.masked, if_pos hshape, Option.some_inj] at hu
  intro v hv
  rw [← hu, List.mem_filterMap] at hv
  obtain ⟨⟨w, m⟩, hmem, hkeep⟩ := hv
  have hm : m = p w := by
    change (w, m) ∈ a.data.zip (a.data.map p) at hmem
    rw [← List.map_prod_left_eq_zip, List.mem_map] at hmem
    obtain ⟨w', -, hw'⟩ := hmem
    rw [Prod.mk.injEq] at hw'
    rw [← hw'.1, hw'.2]
  rw [Option.ite_none_right_eq_some] at hkeep
  rw [← Option.some.inj hkeep.2, ← hm]
  exact hkeep.1

theorem readEvents_spec {header : FITSHeader} {f : FITS V P} {x y : List V} {energy : List E}
    (h : readEvents arith uppercase header f = some (x, y, energy)) :
    y.length = x.length ∧ energy.length = x.length ∧ ∀ e ∈ energy, arith.positive e = true := by
  simp only [readEvents, Option.bind_eq_bind, Option.bind_eq_some_iff, Option.some_inj,
    Prod.mk.injEq] at h
  obtain ⟨PI2eV, -, X, -, Y, -, PI, -, x', hx, y', hy, energy', henergy, rfl, rfl, rfl⟩ := h
  exact ⟨masked_length hy hx, masked_length henergy hx, masked_map_mem arith.positive henergy⟩

/-- The events of a dataset fit together: as many of each as `num_events`, and every energy the
logarithm of a positive one. -/
structure EventsOk (d : Dataset V E) : Prop where
  header : d.header.isSome
  x : ∃ x ∈ d.x, x.length = d.num_events
  y : ∃ y ∈ d.y, y.length = d.num_events
  energy : ∃ energy ∈ d.energy, energy.length = d.num_events ∧
    ∀ e ∈ energy, ∃ v, arith.positive v = true ∧ e = arith.log v

/-- What a run of `load_events` has to leave: one of the two flags, so that no poll is answered
202 again, and sound events with `has_events`. -/
structure Settled (d : Dataset V E) : Prop where
  one : d.has_events ≠ d.has_error
  polled : ∀ width height, imageSpectrumStatus d width height ≠ some 202
  events : d.has_events = true → EventsOk arith d

theorem polled_of_one {d : Dataset V E} (h : d.has_events ≠ d.has_error) (width height : ℤ) :
    imageSpectrumStatus d width height ≠ some 202 := by
  unfold imageSpectrumStatus
  split
  · simp
  split
  · simp
  next herror =>
    have hevents : d.has_events = true := by
      rw [Bool.not_eq_true] at herror
      rw [herror, ne_eq, Bool.not_eq_false] at h
      exact h
    simp [hevents]

theorem settled_of_error {d : Dataset V E} (hevents : d.has_events = false)
    (herror : d.has_error = true) : Settled arith d := by
  have hone : d.has_events ≠ d.has_error := by simp [hevents, herror]
  refine ⟨hone, polled_of_one hone, ?_⟩
  simp [hevents]

theorem loadTable_settled {d : Dataset V E} (f : FITS V P) (now : ℕ)
    (hevents : d.has_events = false) (herror : d.has_error = false) :
    Settled arith (loadTable arith uppercase d f now) := by
  cases hheader : f.header with
  | none =>
    have hload : loadTable arith uppercase d f now =
        { d with has_error := true, last_accessed := now } := by
      rw [loadTable, hheader]
    rw [hload]
    exact settled_of_error arith hevents rfl
  | some header =>
    cases hread : readEvents arith uppercase header f with
    | none =>
      have hload : loadTable arith uppercase d f now =
          { d with header := some header, has_error := true, last_accessed := now } := by
        rw [loadTable, hheader]
        simp only [hread]
      rw [hload]
      exact settled_of_error arith hevents rfl
    | some columns =>
      obtain ⟨x, y, energy⟩ := columns
      obtain ⟨hy, henergy, hpositive⟩ := readEvents_spec arith uppercase hread
      have hload : loadTable arith uppercase d f now = { d with
          header := some header
          num_events := x.length
          x := some x
          y := some y
          energy := some (energy.map arith.log)
          has_events := true
          last_accessed := now } := by
        rw [loadTable, hheader]
        simp only [hread]
      have hone : (loadTable arith uppercase d f now).has_events ≠
          (loadTable arith uppercase d f now).has_error := by
        rw [hload]
        simp [herror]
      refine ⟨hone, polled_of_one hone, fun _ => ?_⟩
      rw [hload]
      refine ⟨rfl, ⟨x, rfl, rfl⟩, ⟨y, rfl, hy⟩, ⟨energy.map arith.log, rfl, ?_, ?_⟩⟩
      · rw [List.length_map]
        exact henergy
      · intro e he
        rw [List.mem_map] at he
        obtain ⟨v, hv, rfl⟩ := he
        exact ⟨v, hpositive v hv, rfl⟩

theorem downloadProgress_flags (d : Dataset V E) (reports : List (ℤ × ℤ)) :
    (downloadProgress d reports).has_events = d.has_events ∧
      (downloadProgress d reports).has_error = d.has_error := by
  induction reports generalizing d with
  | nil => exact ⟨rfl, rfl⟩
  | cons r reports ih => exact ih { d with total := r.1, progress := r.2 }

/-- A run on a new dataset settles it exactly if the uri is a remote one or the file opens. -/
theorem load_events_settled_iff (id uri : String) (created : ℕ) (opening : Opening V P)
    (now : ℕ) :
    Settled arith (loadEvents arith uppercase (Dataset.create id uri created) opening now) ↔
      isRemote uri = true ∨ opening.file.isSome = true := by
  have huri : (Dataset.create id uri created : Dataset V E).uri = uri := rfl
  unfold loadEvents
  rw [huri]
  obtain ⟨hevents, herror⟩ :=
    downloadProgress_flags (Dataset.create id uri created : Dataset V E) opening.reports
  cases hremote : isRemote uri with
  | true =>
    refine iff_of_true ?_ (.inl rfl)
    cases hfile : opening.file with
    | none =>
      have hone : (downloadProgress (Dataset.create id uri created : Dataset V E)
          opening.reports).has_events ≠ true := by
        rw [hevents]
        simp [Dataset.create, XDataSet.create]
      refine ⟨hone, polled_of_one hone, ?_⟩
      intro h
      exact absurd h hone
    | some f => exact loadTable_settled arith uppercase f now hevents herror
  | false =>
    cases hfile : opening.file with
    | none =>
      refine iff_of_false ?_ (by simp)
      intro h
      exact h.one rfl
    | some f =>
      refine iff_of_true ?_ (.inr rfl)
      exact loadTable_settled arith uppercase f now rfl rfl

/-- A local file that is not there: neither flag is set, and every poll is answered 202. -/
theorem load_events_unsettled :
    ¬ ∀ (arith : Arithmetic ℤ ℚ) (uppercase : String → String) (id uri : String) (created : ℕ)
      (opening : Opening ℤ ℤ) (now : ℕ),
      Settled arith (loadEvents arith uppercase (Dataset.create id uri created : Dataset ℤ ℚ)
        opening now) := by
  intro h
  have hsettled := h ⟨fun c f => c * f, fun e => 0 < e, fun e => e⟩ (fun s => s) "e.fits"
    "file:///a/e.fits" 0 ⟨[], none⟩ 1
  exact hsettled.polled 600 600 (by decide)

end XWebQL.LoadEvents
