import XWebQL.EventSelection

/-! The detector pixels behind the views of one dataset.
`getHeader` publishes the origin of the image minus one; the client sends it
back in `init_video`, where the server adds one again, and adds one to it for
every viewport request, whose corners are counted from zero in the image.
The views are taken at full resolution. -/

namespace XWebQL.Registration

open BayesianBinning UnitGrid EventSelection

structure FitsData where
  width : ℕ
  height : ℕ
  OFFSETX : ℤ
  OFFSETY : ℤ

/-- `width = size(pixels, 1)`, `OFFSETX = x1 - 1` and the same along the second axis. -/
def getHeader (pixels : List (List ℕ)) (bounds : Rectangle) : FitsData where
  width := pixels.length
  height := (pixels.head?.map List.length).getD 0
  OFFSETX := bounds.x₁ - 1
  OFFSETY := bounds.y₁ - 1

/-- The message `{ type: "init_video", ... }` of the client. -/
structure InitVideo where
  inner_width : ℤ
  inner_height : ℤ
  offsetx : ℤ
  offsety : ℤ

def initVideoRequest (fitsData : FitsData) : InitVideo where
  inner_width := fitsData.width
  inner_height := fitsData.height
  offsetx := fitsData.OFFSETX
  offsety := fitsData.OFFSETY

/-- The local variables of `ws_coroutine` that `init_video` sets. -/
structure VideoSession where
  inner_width : ℤ
  inner_height : ℤ
  offsetx : ℤ
  offsety : ℤ

/-- `offsetx = 1 + round(Integer, msg["offsetx"])` -/
def initVideo (msg : InitVideo) : VideoSession where
  inner_width := msg.inner_width
  inner_height := msg.inner_height
  offsetx := 1 + msg.offsetx
  offsety := 1 + msg.offsety

/-- `x1 = offsetx`, `x2 = offsetx + inner_width - 1`, as the handler of `"image"` and
`getVideoFrame` both set them. -/
def VideoSession.rectangle (s : VideoSession) : Rectangle where
  x₁ := s.offsetx
  x₂ := s.offsetx + s.inner_width - 1
  y₁ := s.offsety
  y₂ := s.offsety + s.inner_height - 1

variable {K : Type} [Field K] [LinearOrder K]

/-- `getVideoFrame` up to its tone mapping. -/
def getVideoFrame (hist : Hist2D) (log : K → K) (events : List (Event K)) (s : VideoSession)
    (energyStart energyEnd : K) : Option (Viewport K) :=
  getViewport hist log events s.rectangle energyStart energyEnd

/-- The handler of `"image"`: a viewport request for the whole image. -/
def imageRefresh (hist : Hist2D) (log : K → K) (schedule : Schedule) (events : List (Event K))
    (s : VideoSession) (frameStart frameEnd : K) (numChannels : ℤ) :
    Option (Option (Viewport K) × List (SpectrumBin K)) :=
  getViewportSpectrum hist log schedule events ⟨s.rectangle, true, frameStart, frameEnd⟩
    numChannels

/-- `x1: fitsData.OFFSETX + x1 + 1`, and the same for the other corners. -/
def viewportRectangle (fitsData : FitsData) (x₁ x₂ y₁ y₂ : ℤ) : Rectangle where
  x₁ := fitsData.OFFSETX + x₁ + 1
  x₂ := fitsData.OFFSETX + x₂ + 1
  y₁ := fitsData.OFFSETY + y₁ + 1
  y₂ := fitsData.OFFSETY + y₂ + 1

theorem getViewportSpectrum_eq {hist : Hist2D} {log : K → K} (schedule : Schedule)
    {events : List (Event K)} {r : Rectangle} {emin emax : K} {view : Viewport K}
    (h : getViewport hist log events r emin emax = some view) (numChannels : ℤ) :
    getViewportSpectrum hist log schedule events ⟨r, true, emin, emax⟩ numChannels =
      (getSquareSpectrum log schedule events emin emax r numChannels).map fun spectrum =>
        (some view, spectrum) := by
  rw [getViewportSpectrum, Option.map_eq_bind]
  simp only [if_true, h, Option.bind_eq_bind, Option.bind_some]
  rfl

section Sizes

variable (points : List (ℤ × ℤ)) {r : Rectangle}

theorem length_pixelCounts : (pixelCounts points r).length = r.width := by
  simp [pixelCounts, grid]

theorem height_pixelCounts (hwidth : 0 < r.width) :
    ((pixelCounts points r).head?.map List.length).getD 0 = r.height := by
  obtain ⟨n, hn⟩ := Nat.exists_eq_add_of_le' hwidth
  simp [pixelCounts, grid, hn, List.range_succ_eq_map]

theorem flatten_pixelCounts_ne_nil (hwidth : 0 < r.width) (hheight : 0 < r.height) :
    (pixelCounts points r).flatten ≠ [] := by
  obtain ⟨n, hn⟩ := Nat.exists_eq_add_of_le' hwidth
  obtain ⟨m, hm⟩ := Nat.exists_eq_add_of_le' hheight
  simp [pixelCounts, grid, hn, hm, List.range_succ_eq_map]

end Sizes

section Views

variable {events : List (Event K)} {emin emax : K} {r : Rectangle}

omit [Field K] in
theorem pixelCounts_viewportEvents (hrange : ∀ e ∈ events, emin ≤ e.energy ∧ e.energy ≤ emax) :
    pixelCounts ((viewportEvents r emin emax events).map Event.pixel) r =
      pixelCounts (events.map Event.pixel) r := by
  rw [← pixelCounts_filter (events.map Event.pixel), viewportEvents, List.filter_map]
  congr 2
  apply List.filter_congr
  intro e he
  rw [Function.comp_apply, decide_eq_decide]
  exact and_iff_left (hrange e he)

theorem getViewport_of_nonempty (hist : Hist2D) (log : K → K)
    (hrange : ∀ e ∈ events, emin ≤ e.energy ∧ e.energy ≤ emax)
    (hwidth : 0 < r.width) (hheight : 0 < r.height) :
    ∃ view, getViewport hist log events r emin emax = some view ∧
      view.counts = pixelCounts (events.map Event.pixel) r := by
  have hcounts := bincounts_viewportEvents hist r emin emax events
  obtain ⟨maxCount, hmax⟩ := Option.isSome_iff_exists.mp (List.isSome_max?_of_ne_nil
    (flatten_pixelCounts_ne_nil (events.map Event.pixel) hwidth hheight))
  rw [pixelCounts_viewportEvents hrange] at hcounts
  refine ⟨⟨pixelCounts (events.map Event.pixel) r,
    logPixels log (pixelCounts (events.map Event.pixel) r),
    pixelMask (pixelCounts (events.map Event.pixel) r), 1, maxCount⟩, ?_, rfl⟩
  simp only [getViewport, hcounts, hmax, Option.bind_eq_bind, Option.bind_some]

end Views

omit [Field K] [LinearOrder K] in
theorem imageBounds_pos {events : List (Event K)} (hne : events ≠ []) {r : Rectangle}
    (hr : imageBounds events = some r) : 0 < r.width ∧ 0 < r.height := by
  obtain ⟨r', hr', hinside⟩ := imageBounds_spec hne
  obtain rfl : r = r' := Option.some.inj (hr.symm.trans hr')
  obtain ⟨e, he⟩ := List.exists_mem_of_ne_nil events hne
  obtain ⟨h₁, h₂, h₃, h₄⟩ := hinside e he
  simp only [Rectangle.width, Rectangle.height]
  omega

/-- The round trip of the origin through the client gives the bounds back. -/
theorem rectangle_initVideo (points : List (ℤ × ℤ)) {r : Rectangle} (hwidth : 0 < r.width)
    (hheight : 0 < r.height) :
    (initVideo (initVideoRequest (getHeader (pixelCounts points r) r))).rectangle = r := by
  have hw : (r.width : ℤ) = r.x₂ + 1 - r.x₁ := by
    simp only [Rectangle.width] at hwidth ⊢
    omega
  have hh : (r.height : ℤ) = r.y₂ + 1 - r.y₁ := by
    simp only [Rectangle.height] at hheight ⊢
    omega
  simp only [VideoSession.rectangle, initVideo, initVideoRequest, getHeader, length_pixelCounts,
    height_pixelCounts points hwidth, hw, hh]
  cases r
  simp only [Rectangle.mk.injEq]
  omega

theorem viewportRectangle_getHeader (pixels : List (List ℕ)) (r : Rectangle) (x₁ x₂ y₁ y₂ : ℤ) :
    viewportRectangle (getHeader pixels r) x₁ x₂ y₁ y₂ =
      ⟨r.x₁ + x₁, r.x₁ + x₂, r.y₁ + y₁, r.y₁ + y₂⟩ := by
  simp only [viewportRectangle, getHeader, Rectangle.mk.injEq]
  omega

theorem imageEvents_of_capped {events : List (Event ℝ)}
    (hcap : ∀ e ∈ events, e.energy ≤ Real.log MAXIMUM_ENERGY) : imageEvents events = events := by
  rw [imageEvents, List.filter_eq_self]
  intro e he
  exact decide_eq_true ((hcap e he).trans log_MAXIMUM_ENERGY_le)

/-- The video frame and the image refresh count exactly what the image counts,
and a viewport request for some columns and rows of the image yields the part of
the image at these columns and rows. -/
theorem views_registered (hist : Hist2D) (events : List (Event ℝ)) (image : Image)
    (emin emax : ℝ) (himage : getImage hist events = some image)
    (hcap : ∀ e ∈ events, e.energy ≤ Real.log MAXIMUM_ENERGY)
    (hrange : ∀ e ∈ events, emin ≤ e.energy ∧ e.energy ≤ emax) :
    let fitsData := getHeader image.pixels image.bounds
    let session := initVideo (initVideoRequest fitsData)
    (∃ frame, frame.counts = image.pixels ∧
        getVideoFrame hist Real.log events session emin emax = some frame ∧
        ∀ schedule numChannels,
          imageRefresh hist Real.log schedule events session emin emax numChannels =
            (getSquareSpectrum Real.log schedule events emin emax session.rectangle
              numChannels).map fun spectrum => (some frame, spectrum)) ∧
      ∀ x₁ x₂ y₁ y₂ : ℕ, x₁ ≤ x₂ → x₂ < fitsData.width → y₁ ≤ y₂ → y₂ < fitsData.height →
        ∃ view, view.counts = window image.pixels x₁ x₂ y₁ y₂ ∧
          ∀ schedule numChannels,
            getViewportSpectrum hist Real.log schedule events
                ⟨viewportRectangle fitsData x₁ x₂ y₁ y₂, true, emin, emax⟩ numChannels =
              (getSquareSpectrum Real.log schedule events emin emax
                (viewportRectangle fitsData x₁ x₂ y₁ y₂) numChannels).map fun spectrum =>
                  (some view, spectrum) := by
  have hne : events ≠ [] := by
    rintro rfl
    simp [getImage, imageBounds] at himage
  obtain ⟨image', himage', hbounds, hpixels, _⟩ := getImage_eq hist hne
  obtain rfl : image = image' := Option.some.inj (himage.symm.trans himage')
  obtain ⟨hwidth, hheight⟩ := imageBounds_pos hne hbounds
  rw [imageEvents_of_capped hcap] at hpixels
  have hrectangle := rectangle_initVideo (events.map Event.pixel) hwidth hheight
  rw [← hpixels] at hrectangle
  intro fitsData session
  constructor
  · obtain ⟨frame, hframe, hcounts⟩ :=
      getViewport_of_nonempty hist Real.log hrange hwidth hheight
    rw [← hrectangle] at hframe
    exact ⟨frame, hcounts.trans hpixels.symm, hframe, fun schedule numChannels =>
      getViewportSpectrum_eq schedule hframe numChannels⟩
  · intro x₁ x₂ y₁ y₂ hx hx₂ hy hy₂
    simp only [fitsData, getHeader, hpixels, length_pixelCounts,
      height_pixelCounts _ hwidth] at hx₂ hy₂
    obtain ⟨view, hview, hcounts⟩ := getViewport_of_nonempty hist Real.log
      (r := viewportRectangle fitsData x₁ x₂ y₁ y₂) hrange
      (by simp only [viewportRectangle, Rectangle.width]; omega)
      (by simp only [viewportRectangle, Rectangle.height]; omega)
    refine ⟨view, ?_, fun schedule numChannels =>
      getViewportSpectrum_eq schedule hview numChannels⟩
    rw [hcounts, hpixels, window_pixelCounts _ _ hx₂ hy₂, viewportRectangle_getHeader]

theorem views_registered_two_events :
    ∃ image, getImage (K := ℝ) Hist2D.counting [⟨3, 5, 0⟩, ⟨4, 5, 0⟩] = some image ∧
      ∃ frame, frame.counts = image.pixels ∧
        getVideoFrame Hist2D.counting Real.log [⟨3, 5, 0⟩, ⟨4, 5, 0⟩]
          (initVideo (initVideoRequest (getHeader image.pixels image.bounds))) 0 0 =
            some frame := by
  obtain ⟨image, himage, _⟩ := getImage_eq Hist2D.counting
    (List.cons_ne_nil (⟨3, 5, 0⟩ : Event ℝ) [⟨4, 5, 0⟩])
  have hcap : (0 : ℝ) ≤ Real.log MAXIMUM_ENERGY :=
    Real.log_nonneg (by norm_num [MAXIMUM_ENERGY])
  obtain ⟨⟨frame, hcounts, hframe, _⟩, _⟩ := views_registered Hist2D.counting
    [⟨3, 5, 0⟩, ⟨4, 5, 0⟩] image 0 0 himage (by simpa using hcap) (by simp)
  exact ⟨image, himage, frame, hcounts, hframe⟩

end XWebQL.Registration
