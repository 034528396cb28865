import XWebQL.HeapProgram
import XWebQL.Registration

/-! The columns of a loaded dataset under its requests.
`x`, `y` and `energy` are references to arrays that every request shares. A
selection by a mask makes a new array, and so does `pack`; the binning routine
sorts the array it is given. What a request computes from the content of its
arrays (pixels, masks, histograms) is a value here: those arrays are made by the
request and belong to it. -/

namespace XWebQL.RowAlignment

open HeapProgram Transition FortranArray Quicksort BayesianBinning UnitGrid EventSelection
  Registration

variable {K : Type} [Field K] [LinearOrder K]

inductive Column (K : Type) where
  | ints (a : List ℤ)
  | reals (a : List K)

/-- The fields of an `XDataSet` with `has_events` set that refer to its events. -/
structure XDataSet where
  x : ℕ
  y : ℕ
  energy : ℕ

def loadInts (r : ℕ) : Prog (Column K) (List ℤ) := do
  match ← load r with
  | .ints a => pure a
  | .reals _ => .fail

def loadReals (r : ℕ) : Prog (Column K) (List K) := do
  match ← load r with
  | .ints _ => .fail
  | .reals a => pure a

/-- The elements of `a[mask]`; a mask of another length throws. -/
def select {α : Type} (a : List α) (mask : List Bool) : Option (List α) :=
  if mask.length = a.length then some (((a.zip mask).filter Prod.snd).map Prod.fst) else none

/-- `x[mask]` -/
def selectInts (x : ℕ) (mask : List Bool) : Prog (Column K) ℕ := do
  let a ← loadInts x
  let selected ← lift (select a mask)
  new (.ints selected)

/-- `energy[mask]` -/
def selectReals (energy : ℕ) (mask : List Bool) : Prog (Column K) ℕ := do
  let a ← loadReals energy
  let selected ← lift (select a mask)
  new (.reals selected)

/-- `bincounts(Hist2D((x, y); binedges=edges))` -/
def countPixels (hist : Hist2D) (x y : ℕ) (r : Rectangle) : Prog (Column K) (List (List ℕ)) := do
  let xs ← loadInts x
  let ys ← loadInts y
  pure (hist.bincounts (xs.zip ys) (unitEdges r.x₁ r.x₂) (unitEdges r.y₁ r.y₂))

/-- `parallel_bayesian_binning(x, n, resolution)`: the argument is sorted in
place before anything else happens to it. -/
def Fortran.parallelBayesianBinning (log : K → K) (schedule : Schedule) (x : ℕ)
    (resolution : Option ℤ) : Prog (Column K) (BayesHistogram K) := do
  let a ← loadReals x
  if a.length = 0 then pure .empty
  else do
    let sorted ← lift (quicksortOmp schedule.sorting a 1 a.length)
    store x (.reals sorted)
    let (_, blocks) ← lift (BayesianBinning.parallelBayesianBinning log schedule a resolution)
    pure blocks

/-- `fast_bayesian_binning_energy_range(x, n, emin, emax, resolution)`: the
array that is sorted is the packed one. -/
def Fortran.fastBayesianBinningEnergyRange (log : K → K) (schedule : Schedule) (x : ℕ)
    (emin emax : K) (resolution : Option ℤ) : Prog (Column K) (BayesHistogram K) := do
  let a ← loadReals x
  if a.length = 0 then pure .empty
  else do
    let energy ← new (.reals (packEnergy emin emax a))
    let packed ← loadReals energy
    if packed.length = 0 then pure .empty
    else Fortran.parallelBayesianBinning log schedule energy resolution

/-- `mask = [energy[i] <= MAXIMUM_ENERGY for i = 1:length(x)]` -/
def energyMask (x : List ℤ) (energy : List K) : Option (List Bool) :=
  (List.range' 1 x.length).mapM fun i =>
    (elem energy i).map fun e => decide (e ≤ MAXIMUM_ENERGY)

def getImage (hist : Hist2D) (xobject : XDataSet) : Prog (Column K) Image := do
  let x ← loadInts xobject.x
  let y ← loadInts xobject.y
  let energy ← loadReals xobject.energy
  let xmin ← lift x.min?
  let xmax ← lift x.max?
  let ymin ← lift y.min?
  let ymax ← lift y.max?
  let mask ← lift (energyMask x energy)
  let x ← selectInts xobject.x mask
  let y ← selectInts xobject.y mask
  let pixels ← countPixels hist x y ⟨xmin, xmax, ymin, ymax⟩
  pure ⟨pixels, pixelMask pixels, ⟨xmin, xmax, ymin, ymax⟩⟩

/-- An empty histogram throws `"No events in the energy range."`. -/
def getBayesSpectrum (log : K → K) (schedule : Schedule) (xobject : XDataSet) (dx : ℤ) :
    Prog (Column K) (Spectrum K) := do
  let energy ← loadReals xobject.energy
  let eMax ← lift energy.max?
  let eMax := min eMax (log MAXIMUM_ENERGY)
  let capped ← selectReals xobject.energy (energy.map fun e => decide (e ≤ eMax))
  let hist ← Fortran.parallelBayesianBinning log schedule capped (some (5 * dx))
  if hist.n = 0 then .fail
  else do
    let eMin ← lift hist.edges.head?
    let eMax ← lift hist.edges.getLast?
    pure ⟨spectrumBins hist, eMin, eMax, hist.n⟩

def getImageSpectrum (hist : Hist2D) (log : K → K) (schedule : Schedule) (xobject : XDataSet)
    (numChannels : ℤ) : Prog (Column K) (Image × Spectrum K) := do
  let image ← getImage hist xobject
  let spectrum ← getBayesSpectrum log schedule xobject numChannels
  pure (image, spectrum)

def getViewport (hist : Hist2D) (log : K → K) (x y energy : ℕ) (r : Rectangle)
    (emin emax : K) : Prog (Column K) (Viewport K) := do
  let xs ← loadInts x
  let ys ← loadInts y
  let es ← loadReals energy
  let mask := (xs.zip (ys.zip es)).map fun row =>
    decide (r.Contains (row.1, row.2.1) ∧ emin ≤ row.2.2 ∧ row.2.2 ≤ emax)
  let x ← selectInts x mask
  let y ← selectInts y mask
  let counts ← countPixels hist x y r
  let maxCount ← lift counts.flatten.max?
  pure ⟨counts, logPixels log counts, pixelMask counts, 1, maxCount⟩

def regionSpectrum (log : K → K) (schedule : Schedule) (energy : ℕ) (mask : List Bool)
    (eMin eMax : K) (dx : ℤ) : Prog (Column K) (List (SpectrumBin K)) := do
  let packed ← selectReals energy mask
  let hist ← Fortran.fastBayesianBinningEnergyRange log schedule packed eMin eMax (some (5 * dx))
  if hist.n = 0 then .fail else pure (spectrumBins hist)

def getSquareSpectrum (log : K → K) (schedule : Schedule) (x y energy : ℕ) (eMin eMax : K)
    (r : Rectangle) (dx : ℤ) : Prog (Column K) (List (SpectrumBin K)) := do
  let xs ← loadInts x
  let ys ← loadInts y
  regionSpectrum log schedule energy ((xs.zip ys).map fun p => decide (r.Contains p)) eMin eMax dx

def getCircleSpectrum (log : K → K) (schedule : Schedule) (x y energy : ℕ) (eMin eMax : K)
    (cx cy r2 : ℤ) (dx : ℤ) : Prog (Column K) (List (SpectrumBin K)) := do
  let xs ← loadInts x
  let ys ← loadInts y
  regionSpectrum log schedule energy
    ((xs.zip ys).map fun p => decide ((p.1 - cx) ^ 2 + (p.2 - cy) ^ 2 ≤ r2)) eMin eMax dx

/-- `@enum Beam CIRCLE SQUARE` -/
inductive Beam where
  | circle
  | square

structure BeamRequest (K : Type) extends ViewportRequest K where
  beam : Beam

/-- The spectrum of `getViewportSpectrum`; the circle is inscribed in the rectangle. -/
def viewportSpectrum (log : K → K) (schedule : Schedule) (x y energy : ℕ) (req : BeamRequest K)
    (numChannels : ℤ) : Prog (Column K) (List (SpectrumBin K)) :=
  let r := req.rectangle
  match req.beam with
  | .circle =>
    let cx := |r.x₁ + r.x₂| / 2
    let cy := |r.y₁ + r.y₂| / 2
    let radius := min (|r.x₂ - r.x₁| / 2) (|r.y₂ - r.y₁| / 2)
    getCircleSpectrum log schedule x y energy req.frameStart req.frameEnd cx cy
      (radius * radius) numChannels
  | .square =>
    getSquareSpectrum log schedule x y energy req.frameStart req.frameEnd r numChannels

/-- The tasks of `getViewportSpectrum`: the image is made by a thread of its own
while the spectrum is computed. -/
def getViewportSpectrum (hist : Hist2D) (log : K → K) (schedule : Schedule) (x y energy : ℕ)
    (req : BeamRequest K) (numChannels : ℤ) : List (Prog (Column K) Unit) :=
  let spectrum := (viewportSpectrum log schedule x y energy req numChannels).forget
  let image := (getViewport hist log x y energy req.rectangle req.frameStart req.frameEnd).forget
  if req.image then [image, spectrum] else [spectrum]

/-- `getVideoFrame` up to its tone mapping, which works on the pixels alone. -/
def getVideoFrame (hist : Hist2D) (log : K → K) (x y energy : ℕ) (s : VideoSession)
    (energyStart energyEnd : K) : Prog (Column K) (Viewport K) :=
  getViewport hist log x y energy s.rectangle energyStart energyEnd

inductive Request (K : Type) where
  | imageSpectrum (numChannels : ℤ)
  | viewport (req : BeamRequest K) (numChannels : ℤ)
  | imageRefresh (session : VideoSession) (frameStart frameEnd : K) (numChannels : ℤ)
  | video (session : VideoSession) (frameStart frameEnd : K)

def Request.tasks (hist : Hist2D) (log : K → K) (xobject : XDataSet) (schedule : Schedule) :
    Request K → List (Prog (Column K) Unit)
  | .imageSpectrum numChannels =>
    [(getImageSpectrum hist log schedule xobject numChannels).forget]
  | .viewport req numChannels =>
    getViewportSpectrum hist log schedule xobject.x xobject.y xobject.energy req numChannels
  | .imageRefresh session frameStart frameEnd numChannels =>
    getViewportSpectrum hist log schedule xobject.x xobject.y xobject.energy
      ⟨⟨session.rectangle, true, frameStart, frameEnd⟩, .square⟩ numChannels
  | .video session frameStart frameEnd =>
    [(getVideoFrame hist log xobject.x xobject.y xobject.energy session frameStart
      frameEnd).forget]

section Frame

variable {D : Set ℕ}

/-- The program overwrites no array of `D`. -/
abbrev Frames (D : Set ℕ) {α : Type} (p : Prog (Column K) α) : Prop :=
  Spares D (fun _ => True) p

omit [Field K] [LinearOrder K] in
theorem frames_loadInts (D : Set ℕ) (r : ℕ) : Frames D (loadInts r : Prog (Column K) (List ℤ)) :=
  (spares_load D r).bind fun c _ => by cases c <;> trivial

omit [Field K] [LinearOrder K] in
theorem frames_loadReals (D : Set ℕ) (r : ℕ) : Frames D (loadReals r : Prog (Column K) (List K)) :=
  (spares_load D r).bind fun c _ => by cases c <;> trivial

omit [Field K] [LinearOrder K] in
theorem spares_selectInts (D : Set ℕ) (x : ℕ) (mask : List Bool) :
    Spares D (· ∉ D) (selectInts x mask : Prog (Column K) ℕ) :=
  (frames_loadInts D x).bind fun a _ => (spares_lift D (select a mask)).bind fun selected _ =>
    spares_new D (.ints selected)

omit [Field K] [LinearOrder K] in
theorem spares_selectReals (D : Set ℕ) (energy : ℕ) (mask : List Bool) :
    Spares D (· ∉ D) (selectReals energy mask : Prog (Column K) ℕ) :=
  (frames_loadReals D energy).bind fun a _ => (spares_lift D (select a mask)).bind
    fun selected _ => spares_new D (.reals selected)

omit [Field K] [LinearOrder K] in
theorem frames_countPixels (D : Set ℕ) (hist : Hist2D) (x y : ℕ) (r : Rectangle) :
    Frames D (countPixels hist x y r : Prog (Column K) (List (List ℕ))) :=
  (frames_loadInts D x).bind fun _ _ => (frames_loadInts D y).bind fun _ _ => trivial

theorem frames_parallelBayesianBinning (log : K → K) (schedule : Schedule) {x : ℕ} (hx : x ∉ D)
    (resolution : Option ℤ) :
    Frames D (Fortran.parallelBayesianBinning log schedule x resolution) := by
  refine (frames_loadReals D x).bind fun a _ => ?_
  split_ifs
  · trivial
  · exact (spares_lift D _).bind fun sorted _ => (spares_store hx (.reals sorted)).bind
      fun _ _ => (spares_lift D _).bind fun _ _ => trivial

theorem frames_energyRange (D : Set ℕ) (log : K → K) (schedule : Schedule) (x : ℕ)
    (emin emax : K) (resolution : Option ℤ) :
    Frames D (Fortran.fastBayesianBinningEnergyRange log schedule x emin emax resolution) := by
  refine (frames_loadReals D x).bind fun a _ => ?_
  split_ifs
  · trivial
  · refine (spares_new D _).bind fun energy henergy => (frames_loadReals D energy).bind
      fun packed _ => ?_
    split_ifs
    · trivial
    · exact frames_parallelBayesianBinning log schedule henergy resolution

theorem frames_getImage (D : Set ℕ) (hist : Hist2D) (xobject : XDataSet) :
    Frames D (getImage hist xobject : Prog (Column K) Image) := by
  refine (frames_loadInts D xobject.x).bind fun x _ => (frames_loadInts D xobject.y).bind
    fun y _ => (frames_loadReals D xobject.energy).bind fun energy _ => ?_
  refine (spares_lift D x.min?).bind fun xmin _ => (spares_lift D x.max?).bind fun xmax _ =>
    (spares_lift D y.min?).bind fun ymin _ => (spares_lift D y.max?).bind fun ymax _ => ?_
  exact (spares_lift D _).bind fun mask _ => (spares_selectInts D xobject.x mask).bind
    fun x _ => (spares_selectInts D xobject.y mask).bind fun y _ =>
      (frames_countPixels D hist x y _).bind fun _ _ => trivial

/-- The array that is sorted is the capped copy. -/
theorem frames_getBayesSpectrum (D : Set ℕ) (log : K → K) (schedule : Schedule)
    (xobject : XDataSet) (dx : ℤ) : Frames D (getBayesSpectrum log schedule xobject dx) := by
  refine (frames_loadReals D xobject.energy).bind fun energy _ =>
    (spares_lift D energy.max?).bind fun eMax _ => ?_
  refine (spares_selectReals D xobject.energy _).bind fun capped hcapped =>
    (frames_parallelBayesianBinning log schedule hcapped _).bind fun hist _ => ?_
  split_ifs
  · trivial
  · exact (spares_lift D _).bind fun _ _ => (spares_lift D _).bind fun _ _ => trivial

theorem frames_getViewport (D : Set ℕ) (hist : Hist2D) (log : K → K) (x y energy : ℕ)
    (r : Rectangle) (emin emax : K) : Frames D (getViewport hist log x y energy r emin emax) := by
  refine (frames_loadInts D x).bind fun xs _ => (frames_loadInts D y).bind fun ys _ =>
    (frames_loadReals D energy).bind fun es _ => ?_
  exact (spares_selectInts D x _).bind fun x _ => (spares_selectInts D y _).bind fun y _ =>
    (frames_countPixels D hist x y r).bind fun _ _ => (spares_lift D _).bind fun _ _ => trivial

theorem frames_regionSpectrum (D : Set ℕ) (log : K → K) (schedule : Schedule) (energy : ℕ)
    (mask : List Bool) (eMin eMax : K) (dx : ℤ) :
    Frames D (regionSpectrum log schedule energy mask eMin eMax dx) := by
  refine (spares_selectReals D energy mask).bind fun packed _ =>
    (frames_energyRange D log schedule packed eMin eMax _).bind fun hist _ => ?_
  split_ifs <;> trivial

theorem frames_viewportSpectrum (D : Set ℕ) (log : K → K) (schedule : Schedule)
    (x y energy : ℕ) (req : BeamRequest K) (numChannels : ℤ) :
    Frames D (viewportSpectrum log schedule x y energy req numChannels) := by
  rw [viewportSpectrum]
  cases req.beam with
  | circle =>
    exact (frames_loadInts D x).bind fun _ _ => (frames_loadInts D y).bind fun _ _ =>
      frames_regionSpectrum D log schedule energy _ _ _ _
  | square =>
    exact (frames_loadInts D x).bind fun _ _ => (frames_loadInts D y).bind fun _ _ =>
      frames_regionSpectrum D log schedule energy _ _ _ _

theorem frames_getViewportSpectrum (D : Set ℕ) (hist : Hist2D) (log : K → K)
    (schedule : Schedule) (x y energy : ℕ) (req : BeamRequest K) (numChannels : ℤ) :
    ∀ p ∈ getViewportSpectrum hist log schedule x y energy req numChannels, Frames D p := by
  have hspectrum := frames_viewportSpectrum D log schedule x y energy req numChannels
  have himage := frames_getViewport D hist log x y energy req.rectangle req.frameStart
    req.frameEnd
  intro p hp
  rw [getViewportSpectrum] at hp
  split_ifs at hp
  · obtain rfl | hp := List.mem_cons.mp hp
    · exact himage.forget
    · obtain rfl := List.mem_singleton.mp hp
      exact hspectrum.forget
  · obtain rfl := List.mem_singleton.mp hp
    exact hspectrum.forget

theorem frames_tasks (D : Set ℕ) (hist : Hist2D) (log : K → K) (xobject : XDataSet)
    (schedule : Schedule) (req : Request K) :
    ∀ p ∈ req.tasks hist log xobject schedule, Frames D p := by
  cases req with
  | imageSpectrum numChannels =>
    intro p hp
    obtain rfl := List.mem_singleton.mp hp
    have himage : Frames D (getImageSpectrum hist log schedule xobject numChannels) :=
      (frames_getImage D hist xobject).bind fun _ _ =>
        (frames_getBayesSpectrum D log schedule xobject numChannels).bind fun _ _ => trivial
    exact himage.forget
  | viewport req numChannels => exact frames_getViewportSpectrum D hist log schedule _ _ _ _ _
  | imageRefresh session frameStart frameEnd numChannels =>
    exact frames_getViewportSpectrum D hist log schedule xobject.x xobject.y xobject.energy
      ⟨⟨session.rectangle, true, frameStart, frameEnd⟩, .square⟩ numChannels
  | video session frameStart frameEnd =>
    intro p hp
    obtain rfl := List.mem_singleton.mp hp
    exact (frames_getViewport D hist log _ _ _ _ _ _).forget

end Frame

section Results

structure Holds (heap : List (Column K)) (xobject : XDataSet) (events : List (Event K)) : Prop where
  x : heap[xobject.x]? = some (.ints (events.map Event.x))
  y : heap[xobject.y]? = some (.ints (events.map Event.y))
  energy : heap[xobject.energy]? = some (.reals (events.map Event.energy))

variable {heap : List (Column K)} {xobject : XDataSet} {events : List (Event K)}

omit [Field K] [LinearOrder K] in
theorem getElem?_new {r : ℕ} {c : Column K} (h : heap[r]? = some c) (c' : Column K) :
    (heap ++ [c'])[r]? = some c := by
  rw [List.getElem?_append_left (List.getElem?_eq_some_iff.mp h).1, h]

omit [Field K] [LinearOrder K] in
theorem run_loadInts {r : ℕ} {a : List ℤ} (h : heap[r]? = some (.ints a)) :
    run (loadInts r) heap = (some a, heap) :=
  run_bind_some (run_load h)

omit [Field K] [LinearOrder K] in
theorem run_loadReals {r : ℕ} {a : List K} (h : heap[r]? = some (.reals a)) :
    run (loadReals r) heap = (some a, heap) :=
  run_bind_some (run_load h)

theorem select_map {α β : Type} (l : List β) (f : β → α) (p : β → Bool) :
    select (l.map f) (l.map p) = some ((l.filter p).map f) := by
  rw [select, if_pos (by simp), List.zip_map']
  induction l with
  | nil => rfl
  | cons v l ih =>
    cases hv : p v <;> simpa [hv] using ih

omit [Field K] [LinearOrder K] in
theorem run_selectInts {r : ℕ} {f : Event K → ℤ} (h : heap[r]? = some (.ints (events.map f)))
    (p : Event K → Bool) :
    run (selectInts r (events.map p)) heap =
      (some heap.length, heap ++ [.ints ((events.filter p).map f)]) := by
  rw [selectInts, run_bind_some (run_loadInts h), select_map]
  rfl

omit [Field K] [LinearOrder K] in
theorem run_selectReals {r : ℕ} {f : Event K → K} (h : heap[r]? = some (.reals (events.map f)))
    (p : Event K → Bool) :
    run (selectReals r (events.map p)) heap =
      (some heap.length, heap ++ [.reals ((events.filter p).map f)]) := by
  rw [selectReals, run_bind_some (run_loadReals h), select_map]
  rfl

omit [Field K] [LinearOrder K] in
theorem run_countPixels (h : Holds heap xobject events) (hist : Hist2D) (r : Rectangle)
    (p : Event K → Bool) {α : Type} (f : List (List ℕ) → Prog (Column K) α) :
    ∃ heap', run (do
        let x ← selectInts xobject.x (events.map p)
        let y ← selectInts xobject.y (events.map p)
        let pixels ← countPixels hist x y r
        f pixels) heap =
      run (f (hist.bincounts ((events.filter p).map Event.pixel) (unitEdges r.x₁ r.x₂)
        (unitEdges r.y₁ r.y₂))) heap' := by
  have hx := run_selectInts h.x p
  have hy := run_selectInts (getElem?_new h.y (.ints ((events.filter p).map Event.x))) p
  generalize hxs : (events.filter p).map Event.x = xs at hx hy
  generalize hys : (events.filter p).map Event.y = ys at hy
  have hcount : run (countPixels hist heap.length (heap ++ [Column.ints xs]).length r)
      (heap ++ [Column.ints xs] ++ [Column.ints ys]) =
        (some (hist.bincounts (xs.zip ys) (unitEdges r.x₁ r.x₂) (unitEdges r.y₁ r.y₂)),
          heap ++ [Column.ints xs] ++ [Column.ints ys]) := by
    rw [countPixels, run_bind_some (run_loadInts (getElem?_new List.getElem?_concat_length _)),
      run_bind_some (run_loadInts List.getElem?_concat_length)]
    rfl
  refine ⟨heap ++ [Column.ints xs] ++ [Column.ints ys], ?_⟩
  rw [run_bind_some hx, run_bind_some hy, run_bind_some hcount, ← hxs, ← hys, List.zip_map']
  rfl

theorem run_parallelBayesianBinning (log : K → K) (schedule : Schedule) {x : ℕ} {a : List K}
    (resolution : Option ℤ) (h : heap[x]? = some (.reals a)) (hne : a ≠ []) :
    ∃ sorted, sorted.Perm a ∧ sorted.Pairwise (· ≤ ·) ∧
      run (Fortran.parallelBayesianBinning log schedule x resolution) heap =
        ((BayesianBinning.parallelBayesianBinning log schedule a resolution).map Prod.snd,
          heap.set x (.reals sorted)) := by
  obtain ⟨sorted, hsort, hperm, hsorted⟩ := (quicksortOmp_sorts schedule.sorting a.length 1
    a.length le_rfl (List.length_pos_iff.mpr hne) le_rfl).whole a rfl
  refine ⟨sorted, hperm, hsorted, ?_⟩
  rw [Fortran.parallelBayesianBinning, run_bind_some (run_loadReals h),
    if_neg (by simpa using hne), hsort, run_bind_some (run_lift _ _),
    run_bind_some (run_store (List.getElem?_eq_some_iff.mp h).1 _), run_bind, run_lift]
  cases BayesianBinning.parallelBayesianBinning log schedule a resolution <;> rfl

theorem parallelBayesianBinning_result (log : K → K) (schedule : Schedule) {x : ℕ} {a : List K}
    (resolution : Option ℤ) (h : heap[x]? = some (.reals a)) :
    (run (Fortran.parallelBayesianBinning log schedule x resolution) heap).1 =
      (BayesianBinning.parallelBayesianBinning log schedule a resolution).map Prod.snd := by
  by_cases hne : a = []
  · subst hne
    rw [Fortran.parallelBayesianBinning, run_bind_some (run_loadReals h)]
    rfl
  · obtain ⟨sorted, _, _, hrun⟩ :=
      run_parallelBayesianBinning log schedule resolution h hne
    rw [hrun]

theorem energyRange_result (log : K → K) (schedule : Schedule) {x : ℕ} {a : List K}
    (emin emax : K) (resolution : Option ℤ) (h : heap[x]? = some (.reals a)) :
    (run (Fortran.fastBayesianBinningEnergyRange log schedule x emin emax resolution) heap).1 =
      fastBayesianBinningEnergyRange log schedule a emin emax resolution := by
  rw [Fortran.fastBayesianBinningEnergyRange, run_bind_some (run_loadReals h),
    fastBayesianBinningEnergyRange]
  by_cases hlen : a.length = 0
  · rw [if_pos hlen, if_pos hlen]
    rfl
  rw [if_neg hlen, if_neg hlen, run_new_bind,
    run_bind_some (run_loadReals List.getElem?_concat_length)]
  by_cases hpacked : (packEnergy emin emax a).length = 0
  · simp only [hpacked, if_true]
    rfl
  · simp only [hpacked, if_false]
    exact parallelBayesianBinning_result log schedule resolution List.getElem?_concat_length

theorem energyMask_eq (events : List (Event K)) :
    energyMask (events.map Event.x) (events.map Event.energy) =
      some (events.map fun e => decide (e.energy ≤ MAXIMUM_ENERGY)) := by
  have hterms : ∀ i ∈ List.range' 1 (events.map Event.x).length,
      ((elem (events.map Event.energy) i).map fun e => decide (e ≤ MAXIMUM_ENERGY)) =
        some (decide (ConquerBinning.edgeAt (events.map Event.energy) i ≤ MAXIMUM_ENERGY)) := by
    intro i hi
    have hi' := List.mem_range'_1.mp hi
    rw [List.length_map] at hi'
    obtain ⟨e, he⟩ := exists_elem (a := events.map Event.energy) (i := i) (by omega)
      (by rw [List.length_map]; omega)
    rw [he, ConquerBinning.edgeAt_eq he, Option.map_some]
  rw [energyMask, mapM_eq_some_map hterms]
  have hread := ConquerBinning.map_edgeAt_range' (events.map Event.energy)
  rw [List.length_map] at hread ⊢
  have hmap := congrArg (List.map fun e => decide (e ≤ (MAXIMUM_ENERGY : K))) hread
  rw [List.map_map, List.map_map] at hmap
  exact congrArg some hmap

theorem getImage_result (h : Holds heap xobject events) (hist : Hist2D) :
    (run (getImage hist xobject : Prog (Column K) Image) heap).1 =
      EventSelection.getImage hist events := by
  rw [getImage, run_bind_some (run_loadInts h.x), run_bind_some (run_loadInts h.y),
    run_bind_some (run_loadReals h.energy)]
  simp only [run_lift_bind, energyMask_eq, Option.bind_some]
  rw [EventSelection.getImage, imageBounds]
  simp only [Option.bind_eq_bind, Option.bind_assoc, Option.bind_some]
  congr 1
  funext xmin
  congr 1
  funext xmax
  congr 1
  funext ymin
  congr 1
  funext ymax
  obtain ⟨heap', hrun⟩ := run_countPixels h hist ⟨xmin, xmax, ymin, ymax⟩
    (fun e => decide (e.energy ≤ MAXIMUM_ENERGY))
    fun pixels => pure (⟨pixels, pixelMask pixels, ⟨xmin, xmax, ymin, ymax⟩⟩ : Image)
  rw [hrun]
  rfl

theorem getViewport_result (h : Holds heap xobject events) (hist : Hist2D) (log : K → K)
    (r : Rectangle) (emin emax : K) :
    (run (getViewport hist log xobject.x xobject.y xobject.energy r emin emax) heap).1 =
      EventSelection.getViewport hist log events r emin emax := by
  rw [getViewport, run_bind_some (run_loadInts h.x), run_bind_some (run_loadInts h.y),
    run_bind_some (run_loadReals h.energy), List.zip_map', List.zip_map', List.map_map]
  obtain ⟨heap', hrun⟩ := run_countPixels h hist r
    (fun e => decide (r.Contains e.pixel ∧ emin ≤ e.energy ∧ e.energy ≤ emax))
    fun counts => do
      let maxCount ← lift counts.flatten.max?
      pure (⟨counts, logPixels log counts, pixelMask counts, 1, maxCount⟩ : Viewport K)
  exact (congrArg Prod.fst hrun).trans (run_lift_bind _ _ _)

theorem getSquareSpectrum_result (h : Holds heap xobject events) (log : K → K)
    (schedule : Schedule) (eMin eMax : K) (r : Rectangle) (dx : ℤ) :
    (run (getSquareSpectrum log schedule xobject.x xobject.y xobject.energy eMin eMax r dx)
      heap).1 = EventSelection.getSquareSpectrum log schedule events eMin eMax r dx := by
  rw [getSquareSpectrum, run_bind_some (run_loadInts h.x), run_bind_some (run_loadInts h.y),
    List.zip_map', List.map_map, regionSpectrum]
  have hselect := run_selectReals h.energy
    ((fun p => decide (r.Contains p)) ∘ fun e : Event K => (e.x, e.y))
  rw [run_bind_some hselect]
  exact run_bind_fst (energyRange_result log schedule eMin eMax _ List.getElem?_concat_length)
    fun hist heap' => by split_ifs <;> rfl

omit [Field K] [LinearOrder K] in
/-- The source looks at the number of blocks first, which makes no difference. -/
theorem spectrum_of_hist (hist : BayesHistogram K) (heap : List (Column K)) :
    (run (if hist.n = 0 then .fail
      else do
        let eMin ← lift hist.edges.head?
        let eMax ← lift hist.edges.getLast?
        pure ⟨spectrumBins hist, eMin, eMax, hist.n⟩ : Prog (Column K) (Spectrum K)) heap).1 =
      hist.edges.head?.bind fun eMin => hist.edges.getLast?.bind fun eMax =>
        if hist.n = 0 then none else some ⟨spectrumBins hist, eMin, eMax, hist.n⟩ := by
  split_ifs
  · cases hist.edges.head? <;> cases hist.edges.getLast? <;> rfl
  · simp only [run_lift_bind]
    rfl

theorem getBayesSpectrum_result (h : Holds heap xobject events) (log : K → K)
    (schedule : Schedule) (dx : ℤ) :
    (run (getBayesSpectrum log schedule xobject dx) heap).1 =
      EventSelection.getBayesSpectrum log schedule events dx := by
  rw [getBayesSpectrum, run_bind_some (run_loadReals h.energy), run_lift_bind,
    EventSelection.getBayesSpectrum, spectrumEnergies]
  simp only [Option.bind_eq_bind, Option.bind_assoc, Option.bind_some]
  congr 1
  funext eMax
  have hselect := run_selectReals h.energy
    ((fun e => decide (e ≤ min eMax (log MAXIMUM_ENERGY))) ∘ Event.energy)
  have hparallel := parallelBayesianBinning_result log schedule (some (5 * dx))
    (List.getElem?_concat_length (l := heap) (a := Column.reals ((events.filter
      ((fun e => decide (e ≤ min eMax (log MAXIMUM_ENERGY))) ∘ Event.energy)).map Event.energy)))
  rw [List.map_map, run_bind_some hselect, List.filter_map,
    run_bind_fst hparallel spectrum_of_hist, Option.bind_map]
  rfl

theorem getBayesSpectrum_heap (h : Holds heap xobject events) (log : K → K) (schedule : Schedule)
    (dx : ℤ) {eMax : K} (hmax : (events.map Event.energy).max? = some eMax)
    (hne : (events.filter fun e => decide (e.energy ≤ min eMax (log MAXIMUM_ENERGY))) ≠ []) :
    ∃ sorted : List K,
      sorted.Perm ((events.filter fun e =>
        decide (e.energy ≤ min eMax (log MAXIMUM_ENERGY))).map Event.energy) ∧
      sorted.Pairwise (· ≤ ·) ∧
      (run (getBayesSpectrum log schedule xobject dx) heap).2 = heap ++ [.reals sorted] := by
  have hselect := run_selectReals h.energy
    ((fun e => decide (e ≤ min eMax (log MAXIMUM_ENERGY))) ∘ Event.energy)
  generalize hcapped : (events.filter
    ((fun e => decide (e ≤ min eMax (log MAXIMUM_ENERGY))) ∘ Event.energy)) = capped at hselect
  rw [show (events.filter fun e => decide (e.energy ≤ min eMax (log MAXIMUM_ENERGY))) = capped
    from hcapped] at hne ⊢
  obtain ⟨sorted, hperm, hsorted, hrun⟩ := run_parallelBayesianBinning log schedule
    (some (5 * dx)) (List.getElem?_concat_length (l := heap)) (mt List.map_eq_nil_iff.mp hne)
  refine ⟨sorted, hperm, hsorted, ?_⟩
  rw [getBayesSpectrum, run_bind_some (run_loadReals h.energy), hmax, run_bind_some (run_lift _ _)]
  simp only [List.map_map]
  rw [run_bind_some hselect]
  refine run_bind_snd ((congrArg Prod.snd hrun).trans (by simp)) fun hist => ?_
  split_ifs
  · rfl
  · cases hist.edges.head? <;> cases hist.edges.getLast? <;> rfl

end Results

/-- The server: requests, each with the order of its sorting tasks, on the memory
in which the dataset was loaded. -/
def requests (hist : Hist2D) (log : K → K) (xobject : XDataSet) (heap : List (Column K)) :
    System (Pool (Column K)) (Act (Schedule × Request K)) :=
  server (fun req => req.2.tasks hist log xobject req.1) heap

section Runs

variable {hist : Hist2D} {log : K → K} {xobject : XDataSet} {heap : List (Column K)}
  {s : Pool (Column K)}

def XDataSet.columns (xobject : XDataSet) : Set ℕ := {xobject.x, xobject.y, xobject.energy}

omit [Field K] [LinearOrder K] in
theorem columns_live {x y energy : Column K} (hx : heap[xobject.x]? = some x)
    (hy : heap[xobject.y]? = some y) (henergy : heap[xobject.energy]? = some energy) :
    ∀ r ∈ xobject.columns, r < heap.length := by
  rintro r (rfl | rfl | rfl)
  · exact (List.getElem?_eq_some_iff.mp hx).1
  · exact (List.getElem?_eq_some_iff.mp hy).1
  · exact (List.getElem?_eq_some_iff.mp henergy).1

theorem columns_kept (hlive : ∀ r ∈ xobject.columns, r < heap.length)
    (hs : Reachable (requests hist log xobject heap) s) : Keeps xobject.columns heap s.heap := by
  have htasks : ∀ req : Schedule × Request K, ∀ p ∈ req.2.tasks hist log xobject req.1,
      Frames xobject.columns p := fun req => frames_tasks _ hist log xobject req.1 req.2
  exact server_keeps hlive htasks hs

/-- The rows of the dataset stay aligned. -/
theorem Holds.of_reachable {events : List (Event K)} (h : Holds heap xobject events)
    (hs : Reachable (requests hist log xobject heap) s) : Holds s.heap xobject events := by
  have hkeeps := columns_kept (columns_live h.x h.y h.energy) hs
  exact ⟨(hkeeps.same xobject.x (.inl rfl)).trans h.x,
    (hkeeps.same xobject.y (.inr (.inl rfl))).trans h.y,
    (hkeeps.same xobject.energy (.inr (.inr rfl))).trans h.energy⟩

theorem answers_of_reachable {events : List (Event K)} (h : Holds heap xobject events)
    (hs : Reachable (requests hist log xobject heap) s) (schedule : Schedule) (r : Rectangle)
    (emin emax : K) (dx : ℤ) :
    (run (getImage hist xobject : Prog (Column K) Image) s.heap).1 =
        EventSelection.getImage hist events ∧
      (run (getBayesSpectrum log schedule xobject dx) s.heap).1 =
        EventSelection.getBayesSpectrum log schedule events dx ∧
      (run (getViewport hist log xobject.x xobject.y xobject.energy r emin emax) s.heap).1 =
        EventSelection.getViewport hist log events r emin emax ∧
      (run (getSquareSpectrum log schedule xobject.x xobject.y xobject.energy emin emax r dx)
        s.heap).1 = EventSelection.getSquareSpectrum log schedule events emin emax r dx :=
  have h' := h.of_reachable hs
  ⟨getImage_result h' hist, getBayesSpectrum_result h' log schedule dx,
    getViewport_result h' hist log r emin emax,
    getSquareSpectrum_result h' log schedule emin emax r dx⟩

end Runs

/-- Requests start in any order and number, and their tasks interleave in any
way: between any two operations the columns of the dataset are what they were
when it was loaded. -/
theorem columns_unchanged (hist : Hist2D) (log : K → K) (xobject : XDataSet)
    (heap : List (Column K)) (x y : List ℤ) (energy : List K)
    (hx : heap[xobject.x]? = some (.ints x)) (hy : heap[xobject.y]? = some (.ints y))
    (henergy : heap[xobject.energy]? = some (.reals energy)) {s : Pool (Column K)}
    (hs : Reachable (requests hist log xobject heap) s) :
    s.heap[xobject.x]? = some (.ints x) ∧ s.heap[xobject.y]? = some (.ints y) ∧
      s.heap[xobject.energy]? = some (.reals energy) := by
  have hkeeps := columns_kept (columns_live hx hy henergy) hs
  exact ⟨(hkeeps.same xobject.x (.inl rfl)).trans hx,
    (hkeeps.same xobject.y (.inr (.inl rfl))).trans hy,
    (hkeeps.same xobject.energy (.inr (.inr rfl))).trans henergy⟩

def twoRows : List (Column ℚ) := [.ints [4, 3], .ints [5, 5], .reals [2, 1]]

/-- After an image request the copy of the energies is sorted, the column is not. -/
theorem columns_unchanged_image_served :
    ∃ s, Reachable (requests Hist2D.counting id ⟨0, 1, 2⟩ twoRows) s ∧
      s.heap[5]? = some (.reals [1, 2]) ∧ s.heap[0]? = some (.ints [4, 3]) ∧
      s.heap[1]? = some (.ints [5, 5]) ∧ s.heap[2]? = some (.reals [2, 1]) := by
  have hstart : Reachable (requests Hist2D.counting id ⟨0, 1, 2⟩ twoRows)
      ⟨twoRows, [(getImageSpectrum Hist2D.counting id .inOrder ⟨0, 1, 2⟩ 160).forget]⟩ :=
    .next (.start (.inOrder, .imageSpectrum 160)) .start trivial rfl
  obtain ⟨s, hs, hheap⟩ := reach_run (i := 0) hstart rfl
  have hrows : Holds (twoRows ++ [.ints [4, 3], .ints [5, 5]]) ⟨0, 1, 2⟩
      [⟨4, 5, 2⟩, ⟨3, 5, 1⟩] := ⟨rfl, rfl, rfl⟩
  obtain ⟨image, himage⟩ : ∃ image, run (getImage Hist2D.counting ⟨0, 1, 2⟩) twoRows =
      (some image, twoRows ++ [.ints [4, 3], .ints [5, 5]]) := ⟨_, rfl⟩
  obtain ⟨sorted, hperm, hsorted, hspectrum⟩ :=
    getBayesSpectrum_heap hrows id .inOrder 160 (by rfl) (by decide)
  obtain rfl : sorted = [1, 2] := (hperm.trans (.swap 1 2 [])).eq_of_pairwise' hsorted (by decide)
  have hcopy : s.heap = twoRows ++ [.ints [4, 3], .ints [5, 5]] ++ [.reals [1, 2]] := by
    rw [hheap]
    refine run_bind_snd ?_ fun _ => rfl
    rw [getImageSpectrum, run_bind_some himage]
    exact run_bind_snd hspectrum fun _ => rfl
  exact ⟨s, hs, by rw [hcopy]; rfl, columns_unchanged Hist2D.counting id ⟨0, 1, 2⟩ twoRows [4, 3]
    [5, 5] [2, 1] rfl rfl rfl hs⟩

end XWebQL.RowAlignment
