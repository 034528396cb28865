import XWebQL.UnitGrid
import Mathlib.Algebra.Field.Basic
import Mathlib.Tactic.FieldSimp
import Mathlib.Tactic.Ring

/-! World coordinates of image columns and rows.
`getHeader` moves the reference pixel of both axes to the middle of the image,
through the coordinate of its first pixel. The new header counts image pixels
from one, as FITS does; the client evaluates it at pixels counted from zero. -/

namespace XWebQL.WorldCoordinates

open UnitGrid

variable {K : Type} [Field K]

structure Axis (K : Type) where
  CRPIX : K
  CRVAL : K
  CDELT : K

structure WcsHeader (K : Type) where
  axis₁ : Axis K
  axis₂ : Axis K

def Axis.coordinate (a : Axis K) (x : K) : K := a.CRVAL + (x - a.CRPIX) * a.CDELT

/-- `ra = CRVAL1 + (x1 - CRPIX1) * CDELT1`, `CRPIX1 = (x2 - x1 + 1) / 2` and
`CRVAL1 = ra - (1 - CRPIX1) * CDELT1` -/
def Axis.rebase (a : Axis K) (x₁ x₂ : ℤ) : Axis K :=
  let ra := a.CRVAL + (x₁ - a.CRPIX) * a.CDELT
  let CRPIX : K := ((x₂ - x₁ + 1) / 2 : ℚ)
  { CRPIX := CRPIX, CRVAL := ra - (1 - CRPIX) * a.CDELT, CDELT := a.CDELT }

/-- The re-based axes that `getHeader` writes for an image with these bounds. -/
def getHeader (header : WcsHeader K) (bounds : Rectangle) : WcsHeader K where
  axis₁ := header.axis₁.rebase bounds.x₁ bounds.x₂
  axis₂ := header.axis₂.rebase bounds.y₁ bounds.y₂

/-- The angle, in degrees, that `x2hms` prints. -/
def x2hms (fitsData : WcsHeader K) (x : K) : K :=
  fitsData.axis₁.CRVAL + (x - fitsData.axis₁.CRPIX) * fitsData.axis₁.CDELT

/-- The angle that `x2dms` prints. -/
def x2dms (fitsData : WcsHeader K) (x : K) : K :=
  fitsData.axis₁.CRVAL + (x - fitsData.axis₁.CRPIX) * fitsData.axis₁.CDELT

/-- The angle that `y2dms` prints. -/
def y2dms (fitsData : WcsHeader K) (y : K) : K :=
  fitsData.axis₂.CRVAL + (y - fitsData.axis₂.CRPIX) * fitsData.axis₂.CDELT

theorem rebase_coordinate (a : Axis K) (x₁ x₂ : ℤ) (k : K) :
    (a.rebase x₁ x₂).coordinate k = a.coordinate (x₁ + k - 1) := by
  simp only [Axis.coordinate, Axis.rebase]
  ring

/-- At a pixel counted from zero it is one step behind. -/
theorem rebase_coordinate_zero_based (a : Axis K) (x₁ x₂ p : ℤ) :
    (a.rebase x₁ x₂).coordinate ((p - x₁ : ℤ) : K) = a.coordinate p - a.CDELT := by
  rw [rebase_coordinate]
  simp only [Axis.coordinate]
  push_cast
  ring

theorem rebase_coordinate_eq_iff (a : Axis K) (x₁ x₂ p : ℤ) :
    (a.rebase x₁ x₂).coordinate ((p - x₁ : ℤ) : K) = a.coordinate p ↔ a.CDELT = 0 := by
  rw [rebase_coordinate_zero_based, sub_eq_self]

/-- The client shows the coordinates of the previous detector pixel: they are the
file's own only where a pixel has no extent. -/
theorem shown_coordinates_iff (header : WcsHeader K) (bounds : Rectangle) (p q : ℤ) :
    (x2hms (getHeader header bounds) ((p - bounds.x₁ : ℤ) : K) = header.axis₁.coordinate p ↔
        header.axis₁.CDELT = 0) ∧
      (x2dms (getHeader header bounds) ((p - bounds.x₁ : ℤ) : K) = header.axis₁.coordinate p ↔
        header.axis₁.CDELT = 0) ∧
      (y2dms (getHeader header bounds) ((q - bounds.y₁ : ℤ) : K) = header.axis₂.coordinate q ↔
        header.axis₂.CDELT = 0) :=
  ⟨rebase_coordinate_eq_iff header.axis₁ bounds.x₁ bounds.x₂ p,
    rebase_coordinate_eq_iff header.axis₁ bounds.x₁ bounds.x₂ p,
    rebase_coordinate_eq_iff header.axis₂ bounds.y₁ bounds.y₂ q⟩

/-- Ten columns from detector pixel 5 on, one degree each: the client shows 94
degrees for the first, the file says 95. -/
theorem shown_first_column :
    x2hms (getHeader ⟨⟨10, 100, 1⟩, ⟨10, 0, 1⟩⟩ ⟨5, 14, 5, 14⟩) ((5 - 5 : ℤ) : ℚ) ≠
      (⟨10, 100, 1⟩ : Axis ℚ).coordinate 5 := by
  simp only [x2hms, getHeader, Axis.rebase, Axis.coordinate]
  norm_num

end XWebQL.WorldCoordinates
