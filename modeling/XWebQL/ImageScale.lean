import Mathlib.Algebra.Order.Field.Basic
import Mathlib.Data.Rat.Floor
import Mathlib.Tactic.Linarith

/-! The scale at which an image is shown in a view, in exact arithmetic.
`fitScale` is the largest scale at which an image fits into a box. Server and
client take it for a box inside the view, of whole pixels for a square image.
Nothing keeps the shorter side of a long image from being rounded down to no
pixel at all; `fitsView_iff` says for which sizes that does not happen. -/

namespace XWebQL.ImageScale

def fitScale (boxWidth boxHeight imgWidth imgHeight : ℚ) : ℚ :=
  min (boxWidth / imgWidth) (boxHeight / imgHeight)

section Fit

variable {boxWidth boxHeight imgWidth imgHeight : ℚ}

theorem fitScale_swap : fitScale boxWidth boxHeight imgWidth imgHeight =
    fitScale boxHeight boxWidth imgHeight imgWidth :=
  min_comm _ _

theorem le_fitScale_iff (hw : 0 < imgWidth) (hh : 0 < imgHeight) (scale : ℚ) :
    scale ≤ fitScale boxWidth boxHeight imgWidth imgHeight ↔
      scale * imgWidth ≤ boxWidth ∧ scale * imgHeight ≤ boxHeight := by
  rw [fitScale, le_min_iff, le_div_iff₀ hw, le_div_iff₀ hh]

theorem fitScale_mul_width_le (hw : 0 < imgWidth) (hh : 0 < imgHeight) :
    fitScale boxWidth boxHeight imgWidth imgHeight * imgWidth ≤ boxWidth :=
  ((le_fitScale_iff hw hh _).mp le_rfl).1

theorem fitScale_mul_height_le (hw : 0 < imgWidth) (hh : 0 < imgHeight) :
    fitScale boxWidth boxHeight imgWidth imgHeight * imgHeight ≤ boxHeight :=
  ((le_fitScale_iff hw hh _).mp le_rfl).2

theorem one_le_fitScale_mul_height_iff (hw : 0 < imgWidth) (hh : 0 < imgHeight) :
    1 ≤ fitScale boxWidth boxHeight imgWidth imgHeight * imgHeight ↔
      imgWidth ≤ boxWidth * imgHeight ∧ 1 ≤ boxHeight := by
  rw [← div_le_iff₀ hh, le_fitScale_iff hw hh, div_mul_cancel₀ _ hh.ne', one_div_mul_eq_div,
    div_le_iff₀ hh]

theorem limit_eq_fitScale (hw : 0 < imgWidth) :
    (if boxHeight / imgHeight * imgWidth > boxWidth then boxWidth / imgWidth
      else boxHeight / imgHeight) = fitScale boxWidth boxHeight imgWidth imgHeight := by
  rw [fitScale]
  split_ifs with h
  · exact (min_eq_left ((div_lt_iff₀ hw).mpr h).le).symm
  · exact (min_eq_right ((le_div_iff₀ hw).mpr (not_lt.mp h))).symm

end Fit

/-! `xevent.jl` -/

def getScreenScale (x : ℤ) : ℚ :=
  (⌊9 / 10 * (x : ℚ)⌋ : ℤ)

def getImageScaleSquare (width height imgWidth imgHeight : ℤ) : ℚ :=
  let screenDimension := getScreenScale (min width height)
  let imageDimension : ℚ := (max imgWidth imgHeight : ℤ)
  screenDimension / imageDimension

def getImageScale (width height imgWidth imgHeight : ℤ) : ℚ :=
  if imgWidth = imgHeight then
    getImageScaleSquare width height imgWidth imgHeight
  else if imgHeight < imgWidth then
    let screenDimension := 9 / 10 * (height : ℚ)
    let imageDimension := (imgHeight : ℚ)
    let scale := screenDimension / imageDimension
    let newImageWidth := scale * imgWidth
    if newImageWidth > 8 / 10 * (width : ℚ) then
      let screenDimension := 8 / 10 * (width : ℚ)
      let imageDimension := (imgWidth : ℚ)
      screenDimension / imageDimension
    else
      scale
  else if imgWidth < imgHeight then
    let screenDimension := 8 / 10 * (width : ℚ)
    let imageDimension := (imgWidth : ℚ)
    let scale := screenDimension / imageDimension
    let newImageHeight := scale * imgHeight
    if newImageHeight > 9 / 10 * (height : ℚ) then
      let screenDimension := 9 / 10 * (height : ℚ)
      let imageDimension := (imgHeight : ℚ)
      screenDimension / imageDimension
    else
      scale
  else
    1

/-- The size to which the callers scale an image of `innerWidth` by `innerHeight`. -/
def imageSize (width height innerWidth innerHeight : ℤ) : ℤ × ℤ :=
  let scale := getImageScale width height innerWidth innerHeight
  if scale < 1 then
    (⌊scale * innerWidth⌋, ⌊scale * innerHeight⌋)
  else
    (innerWidth, innerHeight)

theorem imageSize_of_lt {width height innerWidth innerHeight : ℤ}
    (h : getImageScale width height innerWidth innerHeight < 1) :
    imageSize width height innerWidth innerHeight =
      (⌊getImageScale width height innerWidth innerHeight * innerWidth⌋,
        ⌊getImageScale width height innerWidth innerHeight * innerHeight⌋) :=
  if_pos h

/-! `xwebql.js` -/

namespace Client

def getScreenScale (x : ℚ) : ℚ :=
  (⌊9 / 10 * x⌋ : ℤ)

def getImageScaleSquare (width height imgWidth imgHeight : ℚ) : ℚ :=
  let screenDimension := getScreenScale (min width height)
  let imageDimension := max imgWidth imgHeight
  screenDimension / imageDimension

/-- `none` is the `undefined` of a call that falls through. -/
def getImageScale (width height imgWidth imgHeight : ℚ) : Option ℚ :=
  if imgWidth = imgHeight then
    some (getImageScaleSquare width height imgWidth imgHeight)
  else if imgHeight < imgWidth then
    let screenDimension := 9 / 10 * height
    let imageDimension := imgHeight
    let scale := screenDimension / imageDimension
    let newImageWidth := scale * imgWidth
    if newImageWidth > 8 / 10 * width then
      let screenDimension := 8 / 10 * width
      let imageDimension := imgWidth
      some (screenDimension / imageDimension)
    else
      some scale
  else if imgWidth < imgHeight then
    let screenDimension := 8 / 10 * width
    let imageDimension := imgWidth
    let scale := screenDimension / imageDimension
    let newImageHeight := scale * imgHeight
    if newImageHeight > 9 / 10 * height then
      let screenDimension := 9 / 10 * height
      let imageDimension := imgHeight
      some (screenDimension / imageDimension)
    else
      some scale
  else
    none

end Client

theorem client_getImageScale (width height imgWidth imgHeight : ℤ) :
    Client.getImageScale width height imgWidth imgHeight =
      some (getImageScale width height imgWidth imgHeight) := by
  unfold Client.getImageScale getImageScale
  simp only [Int.cast_inj, Int.cast_lt]
  split_ifs with hsquare hwide hlimit htall hlimit
  · simp only [Client.getImageScaleSquare, getImageScaleSquare, Client.getScreenScale,
      getScreenScale, Int.cast_min, Int.cast_max]
  · rfl
  · rfl
  · rfl
  · rfl
  · omega

/-! The scale as the largest one for a box inside the view. -/

def screenBox (width height imgWidth imgHeight : ℤ) : ℚ × ℚ :=
  if imgWidth = imgHeight then
    (getScreenScale (min width height), getScreenScale (min width height))
  else
    (8 / 10 * width, 9 / 10 * height)

section Sides

variable {width height imgWidth imgHeight : ℤ}

theorem getImageScale_eq_fitScale (hiw : 0 < imgWidth) (hih : 0 < imgHeight) :
    getImageScale width height imgWidth imgHeight =
      fitScale (screenBox width height imgWidth imgHeight).1
        (screenBox width height imgWidth imgHeight).2 imgWidth imgHeight := by
  rcases eq_or_ne imgWidth imgHeight with rfl | h
  · rw [getImageScale, screenBox, if_pos rfl, if_pos rfl, getImageScaleSquare, max_self, fitScale,
      min_self]
  · rw [getImageScale, screenBox, if_neg h, if_neg h]
    split_ifs with hwide htall
    · exact limit_eq_fitScale (Int.cast_pos.mpr hiw)
    · rw [fitScale_swap]
      exact limit_eq_fitScale (Int.cast_pos.mpr hih)
    · omega

theorem getScreenScale_le {x y : ℤ} (hx : 0 < x) (hxy : x ≤ y) : getScreenScale x ≤ y := by
  have hfloor : getScreenScale x ≤ 9 / 10 * (x : ℚ) := Int.floor_le _
  have hpos : (0 : ℚ) < x := Int.cast_pos.mpr hx
  have hle : (x : ℚ) ≤ y := Int.cast_le.mpr hxy
  linarith

theorem screenBox_le (hw : 0 < width) (hh : 0 < height) (imgWidth imgHeight : ℤ) :
    (screenBox width height imgWidth imgHeight).1 ≤ width ∧
      (screenBox width height imgWidth imgHeight).2 ≤ height := by
  have hmin : 0 < min width height := lt_min hw hh
  have hwpos : (0 : ℚ) < width := Int.cast_pos.mpr hw
  have hhpos : (0 : ℚ) < height := Int.cast_pos.mpr hh
  rw [screenBox]
  split_ifs
  · exact ⟨getScreenScale_le hmin (min_le_left _ _), getScreenScale_le hmin (min_le_right _ _)⟩
  · constructor <;> linarith

theorem scaled_le (hw : 0 < width) (hh : 0 < height) (hiw : 0 < imgWidth) (hih : 0 < imgHeight) :
    getImageScale width height imgWidth imgHeight * imgWidth ≤ width ∧
      getImageScale width height imgWidth imgHeight * imgHeight ≤ height := by
  have hbox := screenBox_le hw hh imgWidth imgHeight
  rw [getImageScale_eq_fitScale hiw hih]
  have hiw' : (0 : ℚ) < imgWidth := Int.cast_pos.mpr hiw
  have hih' : (0 : ℚ) < imgHeight := Int.cast_pos.mpr hih
  exact ⟨(fitScale_mul_width_le hiw' hih').trans hbox.1,
    (fitScale_mul_height_le hiw' hih').trans hbox.2⟩

/-- The sides of a view and an image for which no side is rounded down to zero:
the shorter side of an oblong image is the one at risk. -/
def Visible (width height imgWidth imgHeight : ℤ) : Prop :=
  (imgWidth = imgHeight → 2 ≤ width ∧ 2 ≤ height) ∧
    (imgHeight < imgWidth → 2 ≤ height ∧ 5 * imgWidth ≤ 4 * width * imgHeight) ∧
    (imgWidth < imgHeight → 2 ≤ width ∧ 10 * imgHeight ≤ 9 * height * imgWidth)

instance Visible.decidable : Decidable (Visible width height imgWidth imgHeight) :=
  inferInstanceAs (Decidable (_ ∧ _ ∧ _))

theorem one_le_fitScale_iff (hiw : 0 < imgWidth) (hih : 0 < imgHeight) (boxWidth boxHeight : ℚ) :
    (1 ≤ fitScale boxWidth boxHeight imgWidth imgHeight * imgWidth ∧
        1 ≤ fitScale boxWidth boxHeight imgWidth imgHeight * imgHeight) ↔
      (imgHeight ≤ boxHeight * imgWidth ∧ 1 ≤ boxWidth) ∧
        (imgWidth ≤ boxWidth * imgHeight ∧ 1 ≤ boxHeight) := by
  have hiw' : (0 : ℚ) < imgWidth := Int.cast_pos.mpr hiw
  have hih' : (0 : ℚ) < imgHeight := Int.cast_pos.mpr hih
  rw [one_le_fitScale_mul_height_iff hiw' hih', fitScale_swap,
    one_le_fitScale_mul_height_iff hih' hiw']

theorem oblong_iff {long short boxLong boxShort : ℚ} (hshort : 0 < short) (h : short < long) :
    ((short ≤ boxShort * long ∧ 1 ≤ boxLong) ∧ (long ≤ boxLong * short ∧ 1 ≤ boxShort)) ↔
      1 ≤ boxShort ∧ long ≤ boxLong * short := by
  constructor
  · rintro ⟨-, hlong, hbox⟩
    exact ⟨hbox, hlong⟩
  · rintro ⟨hbox, hlong⟩
    have hfirst : long ≤ boxShort * long := le_mul_of_one_le_left (hshort.trans h).le hbox
    have hsecond : 1 * short < boxLong * short := by linarith
    exact ⟨⟨h.le.trans hfirst, (lt_of_mul_lt_mul_right hsecond hshort.le).le⟩, hlong, hbox⟩

theorem le_tenths_iff (k a b : ℤ) : (a : ℚ) ≤ k / 10 * b ↔ 10 * a ≤ k * b := by
  rw [div_mul_eq_mul_div, le_div_iff₀ (by norm_num), mul_comm (a : ℚ)]
  norm_cast

theorem one_le_nineTenths_iff (x : ℤ) : (1 : ℚ) ≤ 9 / 10 * x ↔ 2 ≤ x := by
  have htenths := le_tenths_iff 9 1 x
  push_cast at htenths
  rw [htenths]
  omega

theorem one_le_eightTenths_iff (x : ℤ) : (1 : ℚ) ≤ 8 / 10 * x ↔ 2 ≤ x := by
  have htenths := le_tenths_iff 8 1 x
  push_cast at htenths
  rw [htenths]
  omega

theorem le_nineTenths_iff (a b x : ℤ) : (a : ℚ) ≤ 9 / 10 * x * b ↔ 10 * a ≤ 9 * x * b := by
  have htenths := le_tenths_iff 9 a (x * b)
  push_cast at htenths
  rw [mul_assoc, htenths, mul_assoc]

theorem le_eightTenths_iff (a b x : ℤ) : (a : ℚ) ≤ 8 / 10 * x * b ↔ 5 * a ≤ 4 * x * b := by
  have htenths := le_tenths_iff 8 a (x * b)
  push_cast at htenths
  rw [mul_assoc, htenths, mul_assoc]
  omega

theorem one_le_getScreenScale_iff (x : ℤ) : 1 ≤ getScreenScale x ↔ 2 ≤ x := by
  rw [getScreenScale, ← Int.cast_one, Int.cast_le, Int.le_floor, Int.cast_one,
    one_le_nineTenths_iff]

theorem one_le_scaled_iff (hiw : 0 < imgWidth) (hih : 0 < imgHeight) :
    (1 ≤ getImageScale width height imgWidth imgHeight * imgWidth ∧
        1 ≤ getImageScale width height imgWidth imgHeight * imgHeight) ↔
      Visible width height imgWidth imgHeight := by
  rw [getImageScale_eq_fitScale hiw hih, one_le_fitScale_iff hiw hih, screenBox, Visible]
  have hiw' : (0 : ℚ) < imgWidth := Int.cast_pos.mpr hiw
  have hih' : (0 : ℚ) < imgHeight := Int.cast_pos.mpr hih
  rcases lt_trichotomy imgWidth imgHeight with h | rfl | h
  · rw [if_neg h.ne, and_comm, oblong_iff hiw' (Int.cast_lt.mpr h), one_le_eightTenths_iff,
      le_nineTenths_iff]
    simp only [h, h.ne, h.not_gt, false_imp_iff, true_imp_iff, true_and]
  · rw [if_pos rfl, le_mul_iff_one_le_left hiw', one_le_getScreenScale_iff, le_min_iff]
    simp only [lt_irrefl, false_imp_iff, true_imp_iff, and_true, and_self]
  · rw [if_neg h.ne', oblong_iff hih' (Int.cast_lt.mpr h), one_le_nineTenths_iff,
      le_eightTenths_iff]
    simp only [h, h.ne', h.not_gt, false_imp_iff, true_imp_iff, true_and, and_true]

end Sides

/-- What a client relies on: the scaled image has pixels and lies within the
view, and the client computes the same scale. -/
def FitsView (width height imgWidth imgHeight : ℤ) : Prop :=
  let scale := getImageScale width height imgWidth imgHeight
  let size := imageSize width height imgWidth imgHeight
  (scale < 1 → size = (⌊scale * imgWidth⌋, ⌊scale * imgHeight⌋) ∧
    1 ≤ size.1 ∧ 1 ≤ size.2 ∧ size.1 ≤ width ∧ size.2 ≤ height) ∧
  (1 ≤ scale → scale * imgWidth ≤ width ∧ scale * imgHeight ≤ height) ∧
  Client.getImageScale width height imgWidth imgHeight = some scale

theorem fitsView_iff {width height imgWidth imgHeight : ℤ} (hw : 0 < width) (hh : 0 < height)
    (hiw : 0 < imgWidth) (hih : 0 < imgHeight) :
    FitsView width height imgWidth imgHeight ↔ Visible width height imgWidth imgHeight := by
  have hle := scaled_le hw hh hiw hih
  rw [← one_le_scaled_iff hiw hih]
  constructor
  · rintro ⟨hdown, -, -⟩
    rcases lt_or_ge (getImageScale width height imgWidth imgHeight) 1 with hs | hs
    · obtain ⟨hsize, hpx, hpy, -, -⟩ := hdown hs
      rw [hsize] at hpx hpy
      exact ⟨by exact_mod_cast Int.le_floor.mp hpx, by exact_mod_cast Int.le_floor.mp hpy⟩
    · have hiw' : (1 : ℚ) ≤ imgWidth := by exact_mod_cast hiw
      have hih' : (1 : ℚ) ≤ imgHeight := by exact_mod_cast hih
      exact ⟨one_le_mul_of_one_le_of_one_le hs hiw', one_le_mul_of_one_le_of_one_le hs hih'⟩
  · rintro ⟨hpx, hpy⟩
    refine ⟨fun hs => ?_, fun _ => hle, client_getImageScale ..⟩
    have hsize := imageSize_of_lt hs
    rw [hsize]
    refine ⟨rfl, Int.le_floor.mpr ?_, Int.le_floor.mpr ?_, ?_, ?_⟩
    · exact_mod_cast hpx
    · exact_mod_cast hpy
    · exact Int.floor_le_iff.mpr (hle.1.trans_lt (lt_add_one _))
    · exact Int.floor_le_iff.mpr (hle.2.trans_lt (lt_add_one _))

theorem fitsView_iff_square : FitsView 500 400 1000 1000 ↔ Visible 500 400 1000 1000 :=
  fitsView_iff (by decide) (by decide) (by decide) (by decide)

/-- A strip of one line is scaled to no line at all. -/
theorem not_fitsView :
    ¬∀ width height imgWidth imgHeight : ℤ, 0 < width → 0 < height → 0 < imgWidth →
      0 < imgHeight → FitsView width height imgWidth imgHeight := by
  intro h
  have hstrip := (h 100 100 1000 1 (by decide) (by decide) (by decide) (by decide)).1
    (by decide +kernel)
  revert hstrip
  decide +kernel

end XWebQL.ImageScale
