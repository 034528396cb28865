import XWebQL.BayesianBinning
import XWebQL.UnitGrid

/-! Which events the server counts: the image, the spectrum and the viewport.
An event list holds the columns `x`, `y` and `energy` row by row; the energy is
the logarithm that `load_events` stores. A selection is a filter on this list,
applied before the histogram routine is called. -/

namespace XWebQL.EventSelection

open BayesianBinning UnitGrid

variable {K : Type} [Field K] [LinearOrder K]

structure Event (K : Type) where
  x : ℤ
  y : ℤ
  energy : K
deriving DecidableEq

def Event.pixel (e : Event K) : ℤ × ℤ := (e.x, e.y)

/-- `const MAXIMUM_ENERGY = Float32(20000.0) # eV` -/
def MAXIMUM_ENERGY : K := 20000

/-- `load_events`: `energy` is the raw channel until it is converted. -/
def loadEvents (log : K → K) (PI2eV : K) (rows : List (Event K)) : List (Event K) :=
  ((rows.map fun e => { e with energy := e.energy * PI2eV }).filter fun e => 0 < e.energy).map
    fun e => { e with energy := log e.energy }

/-- `(minimum(x), maximum(x), minimum(y), maximum(y))`; an empty column throws. -/
def imageBounds (events : List (Event K)) : Option Rectangle := do
  let xmin ← (events.map Event.x).min?
  let xmax ← (events.map Event.x).max?
  let ymin ← (events.map Event.y).min?
  let ymax ← (events.map Event.y).max?
  some ⟨xmin, xmax, ymin, ymax⟩

/-- What `getImage` returns; `bounds` is `(xmin, xmax, ymin, ymax)`. -/
structure Image where
  pixels : List (List ℕ)
  mask : List (List Bool)
  bounds : Rectangle

/-- `pixels .> 0` -/
def pixelMask (pixels : List (List ℕ)) : List (List Bool) :=
  pixels.map fun column => column.map fun c => decide (0 < c)

/-- `mask = [energy[i] <= MAXIMUM_ENERGY for i = 1:length(x)]` -/
def imageEvents (events : List (Event K)) : List (Event K) :=
  events.filter fun e => e.energy ≤ MAXIMUM_ENERGY

def getImage (hist : Hist2D) (events : List (Event K)) : Option Image := do
  let r ← imageBounds events
  let pixels := hist.bincounts ((imageEvents events).map Event.pixel)
    (unitEdges r.x₁ r.x₂) (unitEdges r.y₁ r.y₂)
  some ⟨pixels, pixelMask pixels, r⟩

/-- The array `energy[(energy .<= E_max)]` that `getBayesSpectrum` bins. -/
def spectrumEnergies (log : K → K) (events : List (Event K)) : Option (List K) := do
  let eMax ← (events.map Event.energy).max?
  let eMax := min eMax (log MAXIMUM_ENERGY)
  some ((events.map Event.energy).filter fun e => e ≤ eMax)

/-- `Dict("center" => c, "height" => h, "width" => w)` -/
structure SpectrumBin (K : Type) where
  center : K
  height : K
  width : K

def spectrumBins (hist : BayesHistogram K) : List (SpectrumBin K) :=
  List.zipWith (fun c hw => ⟨c, hw.1, hw.2⟩) hist.centers (hist.heights.zip hist.widths)

/-- What `getBayesSpectrum` returns. -/
structure Spectrum (K : Type) where
  bins : List (SpectrumBin K)
  eMin : K
  eMax : K
  len : ℕ

def getBayesSpectrum (log : K → K) (schedule : Schedule) (events : List (Event K)) (dx : ℤ) :
    Option (Spectrum K) := do
  let energy ← spectrumEnergies log events
  let (_, hist) ← parallelBayesianBinning log schedule energy (some (5 * dx))
  let eMin ← hist.edges.head?
  let eMax ← hist.edges.getLast?
  if hist.n = 0 then none else some ⟨spectrumBins hist, eMin, eMax, hist.n⟩

/-- `xmin <= x <= xmax && ymin <= y <= ymax && emin <= e <= emax` -/
def viewportEvents (r : Rectangle) (emin emax : K) (events : List (Event K)) :
    List (Event K) :=
  events.filter fun e => r.Contains e.pixel ∧ emin ≤ e.energy ∧ e.energy ≤ emax

/-- What `getViewport` returns, with the counts before the logarithm. -/
structure Viewport (K : Type) where
  counts : List (List ℕ)
  pixels : List (List K)
  mask : List (List Bool)
  minCount : ℕ
  maxCount : ℕ

/-- `log.(pixels)` with infinity replaced by `0.0` -/
def logPixels (log : K → K) (counts : List (List ℕ)) : List (List K) :=
  counts.map fun column => column.map fun c => if c = 0 then 0 else log c

def getViewport (hist : Hist2D) (log : K → K) (events : List (Event K)) (r : Rectangle)
    (emin emax : K) : Option (Viewport K) := do
  let counts := hist.bincounts ((viewportEvents r emin emax events).map Event.pixel)
    (unitEdges r.x₁ r.x₂) (unitEdges r.y₁ r.y₂)
  let maxCount ← counts.flatten.max?
  some ⟨counts, logPixels log counts, pixelMask counts, 1, maxCount⟩

/-- `packed = energy[mask]` with `mask` the square. -/
def squareEnergies (r : Rectangle) (events : List (Event K)) : List K :=
  (events.filter fun e => r.Contains e.pixel).map Event.energy

def getSquareSpectrum (log : K → K) (schedule : Schedule) (events : List (Event K))
    (eMin eMax : K) (r : Rectangle) (dx : ℤ) : Option (List (SpectrumBin K)) := do
  let hist ← fastBayesianBinningEnergyRange log schedule (squareEnergies r events) eMin eMax
    (some (5 * dx))
  if hist.n = 0 then none else some (spectrumBins hist)

structure ViewportRequest (K : Type) where
  rectangle : Rectangle
  image : Bool
  frameStart : K
  frameEnd : K

/-- `getViewportSpectrum` for `beam = square` and no downsizing. -/
def getViewportSpectrum (hist : Hist2D) (log : K → K) (schedule : Schedule)
    (events : List (Event K)) (req : ViewportRequest K) (numChannels : ℤ) :
    Option (Option (Viewport K) × List (SpectrumBin K)) := do
  let spectrum ← getSquareSpectrum log schedule events req.frameStart req.frameEnd
    req.rectangle numChannels
  if req.image then do
    let view ← getViewport hist log events req.rectangle req.frameStart req.frameEnd
    some (some view, spectrum)
  else some (none, spectrum)

/-- The events whose energies `fast_bayesian_binning_energy_range` packs. -/
def binnedEvents (r : Rectangle) (emin emax : K) (events : List (Event K)) : List (Event K) :=
  events.filter fun e => r.Contains e.pixel ∧ emin < e.energy ∧ e.energy ≤ emax

omit [Field K] in
theorem packEnergy_squareEnergies (r : Rectangle) (emin emax : K) (events : List (Event K)) :
    packEnergy emin emax (squareEnergies r events) =
      (binnedEvents r emin emax events).map Event.energy := by
  rw [packEnergy, squareEnergies, binnedEvents, List.filter_map, List.filter_filter]
  congr 1
  apply List.filter_congr
  intro e _
  simp only [Function.comp_apply]
  rw [Bool.eq_iff_iff]
  simp only [Bool.and_eq_true, decide_eq_true_eq]
  exact and_comm

omit [Field K] in
theorem bincounts_viewportEvents (hist : Hist2D) (r : Rectangle) (emin emax : K)
    (events : List (Event K)) :
    hist.bincounts ((viewportEvents r emin emax events).map Event.pixel) (unitEdges r.x₁ r.x₂)
      (unitEdges r.y₁ r.y₂) =
        pixelCounts ((viewportEvents r emin emax events).map Event.pixel) r := by
  apply hist.bincounts_eq
  intro p hp
  obtain ⟨e, he, rfl⟩ := List.mem_map.mp hp
  rw [viewportEvents, List.mem_filter, decide_eq_true_eq] at he
  exact he.2.1

theorem getViewport_counts {hist : Hist2D} {log : K → K} {events : List (Event K)}
    {r : Rectangle} {emin emax : K} {view : Viewport K}
    (h : getViewport hist log events r emin emax = some view) :
    view.counts = pixelCounts ((viewportEvents r emin emax events).map Event.pixel) r := by
  rw [getViewport, Option.bind_eq_bind, Option.bind_eq_some_iff] at h
  obtain ⟨maxCount, _, hview⟩ := h
  rw [← Option.some.inj hview]
  exact bincounts_viewportEvents hist r emin emax events

omit [Field K] in
theorem binnedEvents_eq_filter (r : Rectangle) (energyStart energyEnd : K)
    (events : List (Event K)) :
    binnedEvents r energyStart energyEnd events =
      (viewportEvents r energyStart energyEnd events).filter fun e => e.energy ≠ energyStart := by
  rw [binnedEvents, viewportEvents, List.filter_filter]
  apply List.filter_congr
  intro e _
  rw [Bool.eq_iff_iff]
  simp only [Bool.and_eq_true, decide_eq_true_eq]
  constructor
  · rintro ⟨hr, h₁, h₂⟩
    exact ⟨h₁.ne', hr, h₁.le, h₂⟩
  · rintro ⟨hne, hr, h₁, h₂⟩
    exact ⟨hr, lt_of_le_of_ne h₁ (Ne.symm hne), h₂⟩

/-- The viewport counts the events of the rectangle with `emin <= e <= emax`, the
spectrum bins those with `emin < e <= emax`: they are the same events exactly
when no event of the rectangle has the energy at the lower end. -/
theorem viewport_spectrum_events_iff (events : List (Event K)) (r : Rectangle)
    (energyStart energyEnd : K) (hle : energyStart ≤ energyEnd) :
    (∀ (hist : Hist2D) (log : K → K) (view : Viewport K),
        getViewport hist log events r energyStart energyEnd = some view →
          view.counts =
            pixelCounts ((viewportEvents r energyStart energyEnd events).map Event.pixel) r) ∧
      packEnergy energyStart energyEnd (squareEnergies r events) =
        (binnedEvents r energyStart energyEnd events).map Event.energy ∧
      ((viewportEvents r energyStart energyEnd events : Multiset (Event K)) =
          binnedEvents r energyStart energyEnd events ↔
        ∀ e ∈ events, r.Contains e.pixel → e.energy ≠ energyStart) := by
  refine ⟨fun hist log view h => getViewport_counts h,
    packEnergy_squareEnergies r energyStart energyEnd events, ?_⟩
  have hall : (viewportEvents r energyStart energyEnd events : Multiset (Event K)) =
      binnedEvents r energyStart energyEnd events ↔
        ∀ e ∈ viewportEvents r energyStart energyEnd events, e.energy ≠ energyStart := by
    rw [binnedEvents_eq_filter]
    constructor
    · intro heq
      have hlen := congrArg Multiset.card heq
      simp only [Multiset.coe_card] at hlen
      simpa using List.length_filter_eq_length_iff.mp hlen.symm
    · intro h
      rw [List.filter_eq_self.mpr (by simpa using h)]
  rw [hall]
  constructor
  · intro h e he hr heq
    refine h e ?_ heq
    rw [viewportEvents, List.mem_filter, decide_eq_true_eq]
    exact ⟨he, hr, heq.ge, heq ▸ hle⟩
  · intro h e he
    rw [viewportEvents, List.mem_filter, decide_eq_true_eq] at he
    exact h e he.1 he.2.1

theorem viewport_spectrum_events_inner :
    (viewportEvents (K := ℚ) ⟨1, 2, 1, 2⟩ 0 2 [⟨1, 2, 1⟩, ⟨2, 2, 2⟩] : Multiset (Event ℚ)) =
      binnedEvents (K := ℚ) ⟨1, 2, 1, 2⟩ 0 2 [⟨1, 2, 1⟩, ⟨2, 2, 2⟩] :=
  (viewport_spectrum_events_iff [⟨1, 2, 1⟩, ⟨2, 2, 2⟩] ⟨1, 2, 1, 2⟩ 0 2
    (by decide)).2.2.mpr (by decide)

/-- An event at the lower end is counted in the viewport only. -/
theorem viewport_spectrum_events_lower_end :
    (viewportEvents (K := ℚ) ⟨1, 1, 1, 1⟩ 0 1 [⟨1, 1, 0⟩] : Multiset (Event ℚ)) ≠
      binnedEvents (K := ℚ) ⟨1, 1, 1, 1⟩ 0 1 [⟨1, 1, 0⟩] := by
  decide

omit [Field K] [LinearOrder K] in
theorem imageBounds_spec {events : List (Event K)} (hne : events ≠ []) :
    ∃ r, imageBounds events = some r ∧ ∀ e ∈ events, r.Contains e.pixel := by
  have hx : events.map Event.x ≠ [] := by simpa using hne
  have hy : events.map Event.y ≠ [] := by simpa using hne
  obtain ⟨xmin, hxmin⟩ := Option.isSome_iff_exists.mp (List.isSome_min?_of_ne_nil hx)
  obtain ⟨xmax, hxmax⟩ := Option.isSome_iff_exists.mp (List.isSome_max?_of_ne_nil hx)
  obtain ⟨ymin, hymin⟩ := Option.isSome_iff_exists.mp (List.isSome_min?_of_ne_nil hy)
  obtain ⟨ymax, hymax⟩ := Option.isSome_iff_exists.mp (List.isSome_max?_of_ne_nil hy)
  refine ⟨⟨xmin, xmax, ymin, ymax⟩, ?_, fun e he => ?_⟩
  · simp only [imageBounds, hxmin, hxmax, hymin, hymax, Option.bind_eq_bind, Option.bind_some]
  · have hmx := List.mem_map_of_mem (f := Event.x) he
    have hmy := List.mem_map_of_mem (f := Event.y) he
    exact ⟨(List.min?_eq_some_iff.mp hxmin).2 _ hmx, (List.max?_eq_some_iff.mp hxmax).2 _ hmx,
      (List.min?_eq_some_iff.mp hymin).2 _ hmy, (List.max?_eq_some_iff.mp hymax).2 _ hmy⟩

def cappedEvents (log : K → K) (events : List (Event K)) : List (Event K) :=
  events.filter fun e => e.energy ≤ log MAXIMUM_ENERGY

theorem spectrumEnergies_eq (log : K → K) {events : List (Event K)} (hne : events ≠ []) :
    spectrumEnergies log events = some ((cappedEvents log events).map Event.energy) := by
  have henergy : events.map Event.energy ≠ [] := by simpa using hne
  obtain ⟨eMax, hmax⟩ := Option.isSome_iff_exists.mp (List.isSome_max?_of_ne_nil henergy)
  have hle := (List.max?_eq_some_iff.mp hmax).2
  simp only [spectrumEnergies, hmax, Option.bind_eq_bind, Option.bind_some, List.filter_map,
    cappedEvents, Option.some.injEq]
  congr 1
  apply List.filter_congr
  intro e he
  rw [Function.comp_apply, decide_eq_decide, le_min_iff]
  exact and_iff_right (hle _ (List.mem_map_of_mem he))

theorem getImage_eq (hist : Hist2D) {events : List (Event K)} (hne : events ≠ []) :
    ∃ image, getImage hist events = some image ∧ imageBounds events = some image.bounds ∧
      image.pixels = pixelCounts ((imageEvents events).map Event.pixel) image.bounds ∧
      total image.pixels = (imageEvents events).length := by
  obtain ⟨r, hr, hinside⟩ := imageBounds_spec hne
  have inside : ∀ p ∈ (imageEvents events).map Event.pixel, r.Contains p := by
    intro p hp
    obtain ⟨e, he, rfl⟩ := List.mem_map.mp hp
    exact hinside e (List.mem_of_mem_filter he)
  have hcounts := hist.bincounts_eq inside
  refine ⟨⟨pixelCounts ((imageEvents events).map Event.pixel) r,
    pixelMask (pixelCounts ((imageEvents events).map Event.pixel) r), r⟩, ?_, hr, rfl,
    (total_pixelCounts inside).trans (List.length_map _)⟩
  simp only [getImage, hr, Option.bind_eq_bind, Option.bind_some, hcounts]

/-- The image and the spectrum show the same events, those below the energy cap. -/
structure SameEvents (hist : Hist2D) (log : K → K) (events : List (Event K)) : Prop where
  total : (getImage hist events).map (fun image => total image.pixels) =
    (spectrumEnergies log events).map List.length
  pixels : ∀ image, getImage hist events = some image →
    image.pixels = pixelCounts ((cappedEvents log events).map Event.pixel) image.bounds
  energies : ∀ energies, spectrumEnergies log events = some energies →
    energies = (cappedEvents log events).map Event.energy

theorem log_MAXIMUM_ENERGY_le : Real.log MAXIMUM_ENERGY ≤ MAXIMUM_ENERGY :=
  Real.log_le_self (by norm_num [MAXIMUM_ENERGY])

theorem cappedEvents_eq_filter (events : List (Event ℝ)) :
    cappedEvents Real.log events =
      (imageEvents events).filter fun e => e.energy ≤ Real.log MAXIMUM_ENERGY := by
  rw [cappedEvents, imageEvents, List.filter_filter]
  apply List.filter_congr
  intro e _
  rw [Bool.eq_iff_iff, Bool.and_eq_true, decide_eq_true_eq, decide_eq_true_eq]
  exact (and_iff_left_of_imp fun h => h.trans log_MAXIMUM_ENERGY_le).symm

/-- An event with a log-energy above the logarithm of the cap, but below the cap
itself, is counted in the image only. -/
theorem SameEvents.not_above {hist : Hist2D} {events : List (Event ℝ)}
    (h : SameEvents hist Real.log events) :
    ∀ e ∈ events, ¬ (Real.log MAXIMUM_ENERGY < e.energy ∧ e.energy ≤ MAXIMUM_ENERGY) := by
  rintro e he ⟨habove, hcap⟩
  have hne := List.ne_nil_of_mem he
  obtain ⟨image, himage, _, _, htotal⟩ := getImage_eq hist hne
  have hlen := h.total
  rw [himage, spectrumEnergies_eq Real.log hne, Option.map_some, Option.map_some, htotal,
    Option.some.injEq, List.length_map, cappedEvents_eq_filter] at hlen
  have hmem : e ∈ imageEvents events := List.mem_filter.mpr ⟨he, decide_eq_true hcap⟩
  have hall := List.length_filter_eq_length_iff.mp hlen.symm e hmem
  exact absurd (of_decide_eq_true hall) (not_le.mpr habove)

/-- `getImage` compares log-energies with the cap in eV: image and spectrum show
the same events exactly when no log-energy lies between the two. -/
theorem getImage_sameEvents_iff (hist : Hist2D) (events : List (Event ℝ)) :
    SameEvents hist Real.log events ↔
      ∀ e ∈ events, ¬ (Real.log MAXIMUM_ENERGY < e.energy ∧ e.energy ≤ MAXIMUM_ENERGY) := by
  refine ⟨SameEvents.not_above, fun h => ?_⟩
  by_cases hne : events = []
  · subst hne
    exact ⟨rfl, by simp [getImage, imageBounds], by simp [spectrumEnergies]⟩
  · have heq : cappedEvents Real.log events = imageEvents events := by
      rw [cappedEvents_eq_filter, List.filter_eq_self]
      intro e he
      rw [imageEvents, List.mem_filter, decide_eq_true_eq] at he
      exact decide_eq_true (not_lt.mp fun hlt => h e he.1 ⟨hlt, he.2⟩)
    obtain ⟨image, himage, _, hpixels, htotal⟩ := getImage_eq hist hne
    have henergies := spectrumEnergies_eq Real.log hne
    refine ⟨?_, fun image' himage' => ?_, fun energies henergies' => ?_⟩
    · rw [himage, henergies, Option.map_some, Option.map_some, htotal, List.length_map, heq]
    · obtain rfl : image = image' := Option.some.inj (himage.symm.trans himage')
      rw [hpixels, heq]
    · exact Option.some.inj (henergies'.symm.trans henergies)

/-- An event of 40 keV is loaded with a log-energy below 11. -/
theorem getImage_forty_keV :
    ¬ SameEvents Hist2D.counting Real.log (loadEvents Real.log 1 [⟨1, 1, 1000⟩, ⟨1, 1, 40000⟩]) := by
  intro h
  refine h.not_above ⟨1, 1, Real.log 40000⟩ ?_ ⟨?_, ?_⟩
  · simp [loadEvents]
  · rw [MAXIMUM_ENERGY]
    exact Real.log_lt_log (by norm_num) (by norm_num)
  · have hpow : Real.log 40000 = 2 * Real.log 200 := by
      rw [show (40000 : ℝ) = 200 ^ 2 by norm_num, Real.log_pow]
      norm_num
    have hle : Real.log 200 ≤ 200 := Real.log_le_self (by norm_num)
    rw [MAXIMUM_ENERGY]
    show Real.log 40000 ≤ 20000
    linarith

end XWebQL.EventSelection
