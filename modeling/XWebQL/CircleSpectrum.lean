import XWebQL.EventSelection

/-! The circular spectrum of a viewport.
`getViewportSpectrum` takes the centre of the circle from the absolute values of
the sums of the corners, so a circle whose centre has a negative coordinate is
mirrored to the other side of zero. `circle_inside_iff` says for which corners
the events of the circle still lie in the viewport; for these the spectrum is
the one of the events that the viewport shows. The corners are 64-bit integers
and their sums and squares wrap, so it speaks about events whose squared
distance from the centre is below 2⁶³. -/

namespace XWebQL.CircleSpectrum

open BayesianBinning UnitGrid EventSelection

/-- The value a 64-bit integer keeps of a result. -/
def int64 (n : ℤ) : ℤ := Int.bmod n (2 ^ 64)

structure Circle where
  cx : ℤ
  cy : ℤ
  r2 : ℤ
deriving DecidableEq

def Circle.Contains (c : Circle) (p : ℤ × ℤ) : Prop :=
  int64 (int64 (int64 (p.1 - c.cx) ^ 2) + int64 (int64 (p.2 - c.cy) ^ 2)) ≤ c.r2

instance Circle.decidableContains (c : Circle) (p : ℤ × ℤ) : Decidable (c.Contains p) :=
  inferInstanceAs (Decidable (_ ≤ _))

/-- `calculate the centre and squared radius` -/
def viewportCircle (corners : Rectangle) : Circle :=
  let cx := int64 |int64 (corners.x₁ + corners.x₂)| >>> (1 : ℕ)
  let cy := int64 |int64 (corners.y₁ + corners.y₂)| >>> (1 : ℕ)
  let r := min (int64 |int64 (corners.x₂ - corners.x₁)| >>> (1 : ℕ))
    (int64 |int64 (corners.y₂ - corners.y₁)| >>> (1 : ℕ))
  let r2 := int64 (r * r)
  ⟨cx, cy, r2⟩

section Selection

variable {K : Type} [Field K] [LinearOrder K]

/-- `mask = [(x - cx)^2 + (y - cy)^2 <= r2 for (x, y) in zip(x, y)]` -/
def circleEvents (c : Circle) (events : List (Event K)) : List (Event K) :=
  events.filter fun e => c.Contains e.pixel

/-- `packed = energy[mask]` -/
def circleEnergies (c : Circle) (events : List (Event K)) : List K :=
  (circleEvents c events).map Event.energy

def getCircleSpectrum (log : K → K) (schedule : Schedule) (events : List (Event K))
    (eMin eMax : K) (c : Circle) (dx : ℤ) : Option (List (SpectrumBin K)) := do
  let hist ← fastBayesianBinningEnergyRange log schedule (circleEnergies c events) eMin eMax
    (some (5 * dx))
  if hist.n = 0 then none else some (spectrumBins hist)

/-- `getViewportSpectrum` for `beam = circle` and no downsizing. -/
def getViewportSpectrum (hist : Hist2D) (log : K → K) (schedule : Schedule)
    (events : List (Event K)) (req : ViewportRequest K) (numChannels : ℤ) :
    Option (Option (Viewport K) × List (SpectrumBin K)) := do
  let circle := viewportCircle req.rectangle
  let spectrum ← getCircleSpectrum log schedule events req.frameStart req.frameEnd circle
    numChannels
  if req.image then do
    let view ← getViewport hist log events req.rectangle req.frameStart req.frameEnd
    some (some view, spectrum)
  else some (none, spectrum)

def binnedCircleEvents (c : Circle) (emin emax : K) (events : List (Event K)) : List (Event K) :=
  (circleEvents c events).filter fun e => emin < e.energy ∧ e.energy ≤ emax

end Selection

/-! The integer points of a circle. -/

theorem int64_eq {n : ℤ} (h : |n| < 2 ^ 63) : int64 n = n := by
  obtain ⟨hlower, hupper⟩ := abs_lt.mp h
  rw [int64, Int.bmod_eq_of_le] <;> norm_num at hlower hupper ⊢ <;> omega

theorem int64_eq_of_nonneg {n : ℤ} (h₀ : 0 ≤ n) (h : n < 2 ^ 63) : int64 n = n :=
  int64_eq (by rwa [abs_of_nonneg h₀])

theorem abs_lt_of_sq_lt {d : ℤ} (h : d ^ 2 < 2 ^ 63) : |d| < 2 ^ 63 := by
  rw [← sq_abs] at h
  nlinarith [abs_nonneg d]

/-- Where the squared distance is a 64-bit integer no step of it wraps. -/
theorem Circle.contains_iff {c : Circle} {p : ℤ × ℤ}
    (h : (p.1 - c.cx) ^ 2 + (p.2 - c.cy) ^ 2 < 2 ^ 63) :
    c.Contains p ↔ (p.1 - c.cx) ^ 2 + (p.2 - c.cy) ^ 2 ≤ c.r2 := by
  have hx := sq_nonneg (p.1 - c.cx)
  have hy := sq_nonneg (p.2 - c.cy)
  have hdx : int64 (p.1 - c.cx) = p.1 - c.cx := int64_eq (abs_lt_of_sq_lt (by omega))
  have hdy : int64 (p.2 - c.cy) = p.2 - c.cy := int64_eq (abs_lt_of_sq_lt (by omega))
  rw [Circle.Contains, hdx, hdy, int64_eq_of_nonneg hx (by omega),
    int64_eq_of_nonneg hy (by omega), int64_eq_of_nonneg (by omega) h]

theorem abs_le_of_sum_sq_le {dx dy m : ℤ} (hm : 0 ≤ m) (h : dx ^ 2 + dy ^ 2 ≤ m * m) :
    |dx| ≤ m ∧ |dy| ≤ m := by
  rw [← sq m] at h
  constructor
  · exact abs_le_of_sq_le_sq (by nlinarith [sq_nonneg dy]) hm
  · exact abs_le_of_sq_le_sq (by nlinarith [sq_nonneg dx]) hm

def halfSide (corners : Rectangle) : ℤ :=
  min (corners.x₂ - corners.x₁) (corners.y₂ - corners.y₁) / 2

/-- The circle around the mirrored centre does not leave the rectangle: it may
only do so where the sum of two corners is negative. -/
def CircleInside (corners : Rectangle) : Prop :=
  (-1 ≤ corners.x₁ + corners.x₂ ∨
      -(corners.x₁ + corners.x₂) / 2 + halfSide corners ≤ corners.x₂) ∧
    (-1 ≤ corners.y₁ + corners.y₂ ∨
      -(corners.y₁ + corners.y₂) / 2 + halfSide corners ≤ corners.y₂)

instance CircleInside.decidable (corners : Rectangle) : Decidable (CircleInside corners) :=
  inferInstanceAs (Decidable (_ ∧ _))

/-- Sums, sides and squared radius are 64-bit integers. -/
def Narrow (corners : Rectangle) : Prop :=
  (|corners.x₁ + corners.x₂| < 2 ^ 63 ∧ corners.x₂ - corners.x₁ < 2 ^ 63) ∧
    (|corners.y₁ + corners.y₂| < 2 ^ 63 ∧ corners.y₂ - corners.y₁ < 2 ^ 63) ∧
      halfSide corners * halfSide corners < 2 ^ 63

instance Narrow.decidable (corners : Rectangle) : Decidable (Narrow corners) :=
  inferInstanceAs (Decidable (_ ∧ _))

/-- The squared distance of an event from the circle's centre is a 64-bit integer. -/
def Near (corners : Rectangle) (p : ℤ × ℤ) : Prop :=
  (p.1 - |corners.x₁ + corners.x₂| / 2) ^ 2 + (p.2 - |corners.y₁ + corners.y₂| / 2) ^ 2 < 2 ^ 63

instance Near.decidable (corners : Rectangle) (p : ℤ × ℤ) : Decidable (Near corners p) :=
  inferInstanceAs (Decidable (_ < _))

theorem shiftRight_one (n : ℤ) : n >>> (1 : ℕ) = n / 2 := by
  rw [Int.shiftRight_eq_div_pow]
  rfl

theorem min_half (a b : ℤ) : min (a / 2) (b / 2) = min a b / 2 := by
  omega

theorem halfSide_nonneg {corners : Rectangle} (hx : corners.x₁ ≤ corners.x₂)
    (hy : corners.y₁ ≤ corners.y₂) : 0 ≤ halfSide corners := by
  rw [halfSide]
  omega

theorem halfSide_le (corners : Rectangle) :
    halfSide corners ≤ (corners.x₂ - corners.x₁) / 2 ∧
      halfSide corners ≤ (corners.y₂ - corners.y₁) / 2 := by
  rw [halfSide]
  omega

theorem int64_abs_int64 {n : ℤ} (h : |n| < 2 ^ 63) : int64 |int64 n| = |n| := by
  rw [int64_eq h, int64_eq_of_nonneg (abs_nonneg n) h]

theorem viewportCircle_eq {corners : Rectangle} (hx : corners.x₁ ≤ corners.x₂)
    (hy : corners.y₁ ≤ corners.y₂) (hnarrow : Narrow corners) :
    viewportCircle corners = ⟨|corners.x₁ + corners.x₂| / 2, |corners.y₁ + corners.y₂| / 2,
      halfSide corners * halfSide corners⟩ := by
  obtain ⟨⟨hsumX, hsideX⟩, ⟨hsumY, hsideY⟩, hr2⟩ := hnarrow
  have hwidth : |corners.x₂ - corners.x₁| = corners.x₂ - corners.x₁ :=
    abs_of_nonneg (sub_nonneg.mpr hx)
  have hheight : |corners.y₂ - corners.y₁| = corners.y₂ - corners.y₁ :=
    abs_of_nonneg (sub_nonneg.mpr hy)
  have hradius : min ((corners.x₂ - corners.x₁) / 2) ((corners.y₂ - corners.y₁) / 2) =
      halfSide corners := min_half ..
  rw [← hwidth] at hsideX
  rw [← hheight] at hsideY
  simp only [viewportCircle, int64_abs_int64 hsumX, int64_abs_int64 hsumY, int64_abs_int64 hsideX,
    int64_abs_int64 hsideY, shiftRight_one, hwidth, hheight, hradius,
    int64_eq_of_nonneg (mul_self_nonneg _) hr2]

theorem viewportCircle_contains_iff {corners : Rectangle} (hx : corners.x₁ ≤ corners.x₂)
    (hy : corners.y₁ ≤ corners.y₂) (hnarrow : Narrow corners) {p : ℤ × ℤ}
    (hp : Near corners p) :
    (viewportCircle corners).Contains p ↔
      (p.1 - |corners.x₁ + corners.x₂| / 2) ^ 2 + (p.2 - |corners.y₁ + corners.y₂| / 2) ^ 2 ≤
        halfSide corners * halfSide corners := by
  rw [viewportCircle_eq hx hy hnarrow]
  exact Circle.contains_iff hp

/-- Along one axis the mirrored centre can only leave at the upper corner. -/
theorem axis_lower {a b m : ℤ} (hm : m ≤ (b - a) / 2) : a ≤ |a + b| / 2 - m := by
  rcases abs_cases (a + b) with ⟨habs, _⟩ | ⟨habs, _⟩ <;> omega

theorem axis_upper_iff {a b m : ℤ} (hm : m ≤ (b - a) / 2) :
    |a + b| / 2 + m ≤ b ↔ -1 ≤ a + b ∨ -(a + b) / 2 + m ≤ b := by
  rcases abs_cases (a + b) with ⟨habs, _⟩ | ⟨habs, _⟩ <;> omega

theorem circle_subset_iff {corners : Rectangle} (hx : corners.x₁ ≤ corners.x₂)
    (hy : corners.y₁ ≤ corners.y₂) (hnarrow : Narrow corners) :
    (∀ p, Near corners p → (viewportCircle corners).Contains p → corners.Contains p) ↔
      CircleInside corners := by
  have hm := halfSide_nonneg hx hy
  obtain ⟨hmx, hmy⟩ := halfSide_le corners
  rw [CircleInside, ← axis_upper_iff hmx, ← axis_upper_iff hmy]
  constructor
  · -- the circle reaches its radius along both axes
    intro h
    have hreached {p : ℤ × ℤ}
        (hp : (p.1 - |corners.x₁ + corners.x₂| / 2) ^ 2 +
          (p.2 - |corners.y₁ + corners.y₂| / 2) ^ 2 = halfSide corners * halfSide corners) :
        corners.Contains p := by
      have hnear : Near corners p := by
        rw [Near, hp]
        exact hnarrow.2.2
      exact h p hnear ((viewportCircle_contains_iff hx hy hnarrow hnear).mpr hp.le)
    have hright := hreached (p := (|corners.x₁ + corners.x₂| / 2 + halfSide corners,
      |corners.y₁ + corners.y₂| / 2)) (by ring)
    have htop := hreached (p := (|corners.x₁ + corners.x₂| / 2,
      |corners.y₁ + corners.y₂| / 2 + halfSide corners)) (by ring)
    exact ⟨hright.2.1, htop.2.2.2⟩
  · rintro ⟨hright, htop⟩ p hnear hp
    obtain ⟨hpx, hpy⟩ := abs_le_of_sum_sq_le hm
      ((viewportCircle_contains_iff hx hy hnarrow hnear).mp hp)
    obtain ⟨hpx₁, hpx₂⟩ := abs_le.mp hpx
    obtain ⟨hpy₁, hpy₂⟩ := abs_le.mp hpy
    have hleft := axis_lower hmx
    have hbottom := axis_lower hmy
    refine ⟨?_, ?_, ?_, ?_⟩ <;> omega

section Spectrum

variable {K : Type} [Field K] [LinearOrder K]

omit [Field K] [LinearOrder K] in
theorem mem_circleEvents {c : Circle} {events : List (Event K)} {e : Event K} :
    e ∈ circleEvents c events ↔ e ∈ events ∧ c.Contains e.pixel := by
  rw [circleEvents, List.mem_filter, decide_eq_true_eq]

omit [Field K] in
theorem binnedCircleEvents_viewportEvents {corners : Rectangle} {c : Circle}
    {events : List (Event K)}
    (h : ∀ e ∈ events, c.Contains e.pixel → corners.Contains e.pixel) (emin emax : K) :
    binnedCircleEvents c emin emax (viewportEvents corners emin emax events) =
      binnedCircleEvents c emin emax events := by
  rw [binnedCircleEvents, binnedCircleEvents, circleEvents, circleEvents, viewportEvents,
    List.filter_filter, List.filter_filter, List.filter_filter]
  apply List.filter_congr
  intro e he
  rw [Bool.eq_iff_iff]
  simp only [Bool.and_eq_true, decide_eq_true_eq]
  constructor
  · rintro ⟨hbinned, -⟩
    exact hbinned
  · rintro ⟨henergy, hcircle⟩
    exact ⟨⟨henergy, hcircle⟩, h e he hcircle, henergy.1.le, henergy.2⟩

omit [Field K] in
theorem binnedCircleEvents_sublist {corners : Rectangle} {c : Circle} {events : List (Event K)}
    (h : ∀ e ∈ events, c.Contains e.pixel → corners.Contains e.pixel) (emin emax : K) :
    (binnedCircleEvents c emin emax events).Sublist (viewportEvents corners emin emax events) := by
  rw [← binnedCircleEvents_viewportEvents h emin emax, binnedCircleEvents, circleEvents]
  exact List.filter_sublist.trans List.filter_sublist

omit [Field K] in
theorem packEnergy_circleEnergies (c : Circle) (emin emax : K) (events : List (Event K)) :
    packEnergy emin emax (circleEnergies c events) =
      (binnedCircleEvents c emin emax events).map Event.energy := by
  rw [packEnergy, circleEnergies, binnedCircleEvents, List.filter_map]
  rfl

/-- The circular spectrum selects events of the viewport only, whatever the
event list, exactly when the mirrored circle stays inside the rectangle. -/
theorem circle_inside_iff {corners : Rectangle} (hx : corners.x₁ ≤ corners.x₂)
    (hy : corners.y₁ ≤ corners.y₂) (hnarrow : Narrow corners) :
    (∀ (events : List (Event K)) (emin emax : K), (∀ e ∈ events, Near corners e.pixel) →
      (∀ e ∈ circleEvents (viewportCircle corners) events, corners.Contains e.pixel) ∧
        packEnergy emin emax (circleEnergies (viewportCircle corners) events) =
          (binnedCircleEvents (viewportCircle corners) emin emax events).map Event.energy ∧
        (binnedCircleEvents (viewportCircle corners) emin emax events).Sublist
          (viewportEvents corners emin emax events)) ↔ CircleInside corners := by
  rw [← circle_subset_iff hx hy hnarrow]
  constructor
  · intro h p hnear hp
    have hsingle : ∀ e ∈ [(⟨p.1, p.2, 0⟩ : Event K)], Near corners e.pixel := by
      intro e he
      rw [List.mem_singleton.mp he]
      exact hnear
    exact (h _ 0 0 hsingle).1 _ (mem_circleEvents.mpr ⟨List.mem_singleton_self _, hp⟩)
  · intro h events emin emax hnear
    have hinside : ∀ e ∈ events, (viewportCircle corners).Contains e.pixel →
        corners.Contains e.pixel := fun e he => h _ (hnear e he)
    refine ⟨fun e he => ?_, packEnergy_circleEnergies .., binnedCircleEvents_sublist hinside ..⟩
    exact hinside e (mem_circleEvents.mp he).1 (mem_circleEvents.mp he).2

theorem fastBayesianBinningEnergyRange_congr (log : K → K) (schedule : Schedule) {x y : List K}
    {emin emax : K} (h : packEnergy emin emax x = packEnergy emin emax y)
    (resolution : Option ℤ) :
    fastBayesianBinningEnergyRange log schedule x emin emax resolution =
      fastBayesianBinningEnergyRange log schedule y emin emax resolution := by
  have hpacked (z : List K) : fastBayesianBinningEnergyRange log schedule z emin emax resolution =
      if (packEnergy emin emax z).length = 0 then some .empty
      else (parallelBayesianBinning log schedule (packEnergy emin emax z) resolution).map
        Prod.snd := by
    rw [fastBayesianBinningEnergyRange]
    by_cases hz : z.length = 0
    · rw [if_pos hz, List.eq_nil_of_length_eq_zero hz]
      rfl
    · rw [if_neg hz]
  rw [hpacked, hpacked, h]

theorem getCircleSpectrum_viewportEvents {corners : Rectangle} (hx : corners.x₁ ≤ corners.x₂)
    (hy : corners.y₁ ≤ corners.y₂) (hnarrow : Narrow corners) (h : CircleInside corners)
    (log : K → K) (schedule : Schedule) {events : List (Event K)}
    (hnear : ∀ e ∈ events, Near corners e.pixel) (eMin eMax : K) (dx : ℤ) :
    getCircleSpectrum log schedule (viewportEvents corners eMin eMax events) eMin eMax
        (viewportCircle corners) dx =
      getCircleSpectrum log schedule events eMin eMax (viewportCircle corners) dx := by
  have hinside : ∀ e ∈ events, (viewportCircle corners).Contains e.pixel →
      corners.Contains e.pixel :=
    fun e he => (circle_subset_iff hx hy hnarrow).mpr h _ (hnear e he)
  have hpack : packEnergy eMin eMax (circleEnergies (viewportCircle corners)
      (viewportEvents corners eMin eMax events)) =
        packEnergy eMin eMax (circleEnergies (viewportCircle corners) events) := by
    rw [packEnergy_circleEnergies, packEnergy_circleEnergies,
      binnedCircleEvents_viewportEvents hinside]
  rw [getCircleSpectrum, getCircleSpectrum, fastBayesianBinningEnergyRange_congr log schedule hpack]

end Spectrum

/-- A viewport to the left of zero whose circle reaches across it and stays inside. -/
theorem circle_inside_iff_left :
    (binnedCircleEvents (K := ℚ) (viewportCircle ⟨-10, 8, -2, 2⟩) (-1) 1
      [⟨3, 0, 0⟩, ⟨-7, 0, 0⟩]).Sublist
        (viewportEvents (K := ℚ) ⟨-10, 8, -2, 2⟩ (-1) 1 [⟨3, 0, 0⟩, ⟨-7, 0, 0⟩]) := by
  have hx : (⟨-10, 8, -2, 2⟩ : Rectangle).x₁ ≤ (⟨-10, 8, -2, 2⟩ : Rectangle).x₂ := by decide
  have hy : (⟨-10, 8, -2, 2⟩ : Rectangle).y₁ ≤ (⟨-10, 8, -2, 2⟩ : Rectangle).y₂ := by decide
  exact ((circle_inside_iff (K := ℚ) hx hy (by decide)).mpr (by decide)
    [⟨3, 0, 0⟩, ⟨-7, 0, 0⟩] (-1) 1 (by decide)).2.2

/-- The circle of a viewport with negative corners is mirrored at zero. -/
theorem circle_outside :
    ¬∀ corners : Rectangle, corners.x₁ ≤ corners.x₂ → corners.y₁ ≤ corners.y₂ →
      ∀ events : List (Event ℚ), ∀ e ∈ circleEvents (viewportCircle corners) events,
        corners.Contains e.pixel := by
  intro h
  have hevent := h ⟨-10, -5, -10, -5⟩ (by decide) (by decide) [⟨7, 7, 0⟩] ⟨7, 7, 0⟩ (by decide)
  exact absurd hevent (by decide)

/-- Beyond 2³¹ the squares wrap: the event at the origin is as good as on the
centre of a circle of radius 0 around 2³². -/
example : (viewportCircle ⟨4294967296, 4294967296, 0, 0⟩).Contains (0, 0) := by decide

end XWebQL.CircleSpectrum
