import XWebQL.Colourmap
import XWebQL.FloatArithmetic
import XWebQL.LinearTriangle
import XWebQL.LineDrawing

/-! The contour lines of data on a rectangular grid.
Each box of the grid is cut into four triangles that meet in its centre, and each triangle
gives at most one line for a level. `none` is undefined behaviour: an index outside an array,
a quotient with the divisor zero, an `int` out of range. The arithmetic is a parameter. -/

namespace XWebQL.Conrec

open Colourmap (roundf)
open FloatArithmetic LineDrawing
open SxsReader (int)

structure Vertex where
  h : ℚ
  x : ℚ
  y : ℚ
deriving DecidableEq, Repr

structure Segment where
  x1 : ℚ
  y1 : ℚ
  x2 : ℚ
  y2 : ℚ
deriving DecidableEq, Repr

structure Plot where
  screen : Screen
  line_count : ℤ
deriving DecidableEq, Repr

def get {α : Type} (l : List α) (i : ℤ) : Option α := if i < 0 then none else l[i.toNat]?

/-- `d[i][j]` -/
def entry (d : List (List ℚ)) (i j : ℤ) : Option ℚ := (get d i).bind (get · j)

def im : List ℤ := [0, 1, 1, 0]

def jm : List ℤ := [0, 0, 1, 1]

def castab : List (List (List ℕ)) :=
  [[[0, 0, 8], [0, 2, 5], [7, 6, 9]],
   [[0, 3, 4], [1, 3, 1], [4, 3, 0]],
   [[9, 6, 7], [5, 2, 0], [8, 0, 0]]]

def sh (h : ℚ) : ℤ := if 0 < h then 1 else if h < 0 then -1 else 0

def caseValue (v1 v2 v3 : Vertex) : Option ℕ := do
  let plane ← get castab (sh v1.h + 1)
  let row ← get plane (sh v2.h + 1)
  get row (sh v3.h + 1)

/-- `xsect` and `ysect`, where `f` is the coordinate. -/
def sect (A : Arithmetic) (f : Vertex → ℚ) (p1 p2 : Vertex) : Option ℚ :=
  if A.rnd (p2.h - p1.h) = 0 then none
  else some (A.rnd (A.rnd (A.rnd (p2.h * f p1) - A.rnd (p1.h * f p2)) / A.rnd (p2.h - p1.h)))

def vertexSide (A : Arithmetic) (v p q : Vertex) : Option Segment := do
  let x2 ← sect A Vertex.x p q
  let y2 ← sect A Vertex.y p q
  some ⟨v.x, v.y, x2, y2⟩

def sideSide (A : Arithmetic) (p q p' q' : Vertex) : Option Segment := do
  let x1 ← sect A Vertex.x p q
  let y1 ← sect A Vertex.y p q
  let x2 ← sect A Vertex.x p' q'
  let y2 ← sect A Vertex.y p' q'
  some ⟨x1, y1, x2, y2⟩

/-- The cases of the `switch`. Its default leaves the line of the time before. -/
def caseLine (A : Arithmetic) (case_value : ℕ) (v1 v2 v3 : Vertex) : Option Segment :=
  match case_value with
  | 1 => some ⟨v1.x, v1.y, v2.x, v2.y⟩
  | 2 => some ⟨v2.x, v2.y, v3.x, v3.y⟩
  | 3 => some ⟨v3.x, v3.y, v1.x, v1.y⟩
  | 4 => vertexSide A v1 v2 v3
  | 5 => vertexSide A v2 v3 v1
  | 6 => vertexSide A v3 v1 v2
  | 7 => sideSide A v1 v2 v2 v3
  | 8 => sideSide A v2 v3 v3 v1
  | 9 => sideSide A v3 v1 v1 v2
  | _ => none

def drawSegment (width height : ℤ) (plot : Plot) (s : Segment) : Option Plot := do
  let line_count ← int (plot.line_count + 1)
  let x1 ← int ⌊roundf s.x1⌋
  let y1 ← int ⌊roundf s.y1⌋
  let x2 ← int ⌊roundf s.x2⌋
  let y2 ← int ⌊roundf s.y2⌋
  let screen ← line plot.screen width height x1 y1 x2 y2 ⟨0, 0, 0, 255⟩
  some ⟨screen, line_count⟩

def scanTriangle (A : Arithmetic) (width height : ℤ) (v1 v2 v3 : Vertex) (plot : Plot) :
    Option Plot := do
  let case_value ← caseValue v1 v2 v3
  if case_value ≠ 0 then do
    let s ← caseLine A case_value v1 v2 v3
    drawSegment width height plot s
  else some plot

structure Data where
  d : List (List ℚ)
  x : List ℚ
  y : List ℚ
  z : List ℚ

def corner (A : Arithmetic) (data : Data) (z : ℚ) (i j : ℤ) (m : ℕ) : Option Vertex := do
  let di ← get im (m - 1)
  let dj ← get jm (m - 1)
  let height ← entry data.d (i + di) (j + dj)
  let xh ← get data.x (i + di)
  let yh ← get data.y (j + dj)
  some ⟨A.rnd (height - z), xh, yh⟩

/-- The vertex 0. The products with a half and a quarter are exact before they are stored. -/
def centre (A : Arithmetic) (data : Data) (i j : ℤ) (h1 h2 h3 h4 : ℚ) : Option Vertex := do
  let x ← get data.x i
  let x' ← get data.x (i + 1)
  let y ← get data.y j
  let y' ← get data.y (j + 1)
  some ⟨A.rnd (1 / 4 * A.rnd (A.rnd (A.rnd (h1 + h2) + h3) + h4)),
    A.rnd (1 / 2 * A.rnd (x + x')), A.rnd (1 / 2 * A.rnd (y + y'))⟩

def scanLevel (A : Arithmetic) (width height : ℤ) (data : Data) (i j : ℤ) (z : ℚ) (plot : Plot) :
    Option Plot := do
  let v4 ← corner A data z i j 4
  let v3 ← corner A data z i j 3
  let v2 ← corner A data z i j 2
  let v1 ← corner A data z i j 1
  let v0 ← centre A data i j v1.h v2.h v3.h v4.h
  let plot ← scanTriangle A width height v1 v0 v2 plot
  let plot ← scanTriangle A width height v2 v0 v3 plot
  let plot ← scanTriangle A width height v3 v0 v4 plot
  scanTriangle A width height v4 v0 v1 plot

def levelStep (A : Arithmetic) (width height : ℤ) (data : Data) (i j : ℤ) (dmin dmax : ℚ)
    (plot : Plot) (k : ℕ) : Option Plot := do
  let z ← get data.z k
  if dmin ≤ z ∧ z ≤ dmax then scanLevel A width height data i j z plot else some plot

def scanBox (A : Arithmetic) (width height : ℤ) (data : Data) (nc : ℤ) (j : ℤ) (plot : Plot)
    (i : ℤ) : Option Plot := do
  let a ← entry data.d i j
  let b ← entry data.d i (j + 1)
  let c ← entry data.d (i + 1) j
  let e ← entry data.d (i + 1) (j + 1)
  let dmin := min (min a b) (min c e)
  let dmax := max (max a b) (max c e)
  let first ← get data.z 0
  if first ≤ dmax then do
    let last ← get data.z (nc - 1)
    if dmin ≤ last then
      (List.range nc.toNat).foldlM (levelStep A width height data i j dmin dmax) plot
    else some plot
  else some plot

/-- The values of a variable that counts up from `first` to `last - 1`. -/
def upwards (first last : ℤ) : List ℤ :=
  (List.range (last - first).toNat).map fun n : ℕ => first + n

/-- The values of a variable that counts down from `last - 1` to `first`. -/
def downwards (first last : ℤ) : List ℤ :=
  (List.range (last - first).toNat).map fun n : ℕ => last - 1 - n

def conrec (A : Arithmetic) (data : Data) (ilb iub jlb jub nc : ℤ) (canvas : Screen)
    (img_width img_height : ℤ) : Option Plot :=
  (downwards jlb jub).foldlM (fun plot j =>
    (upwards ilb iub).foldlM (scanBox A img_width img_height data nc j) plot) ⟨canvas, 0⟩

end XWebQL.Conrec
