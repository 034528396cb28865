import XWebQL.SxsReader

/-! Where a reader looks for the events.
Both readers take from the header where the three columns begin in a row and how
wide `PI` is, and differ in what they take. What stands at a place in the file is
told here without them. -/

namespace XWebQL.EventPlaces

open FitsTable
open SingleFloat (toSingle)
open SxsReader (Event)

/-- The bytes before each of the three columns in a row, and the width of `PI`. -/
structure Place where
  x : ℕ
  y : ℕ
  pi : ℕ
  width : ℕ
deriving DecidableEq, Repr

/-- `count` bytes from the address `first` on. -/
def bytesAt (file : List UInt8) (first count : ℕ) : List UInt8 := (file.drop first).take count

namespace Place

@[mk_iff] structure Within (p : Place) (file : List UInt8) (row : ℕ) : Prop where
  x : row + p.x + 2 ≤ file.length
  y : row + p.y + 2 ≤ file.length
  pi : ∀ width ∈ [2, 4], p.width = width → row + p.pi + width ≤ file.length

/-- The event at an address. `number` is what becomes of the bytes of `PI`. -/
def event (p : Place) (number : List UInt8 → ℤ) (file : List UInt8) (row : ℕ) : Event where
  x := twosComplement (bytesAt file (row + p.x) 2)
  y := twosComplement (bytesAt file (row + p.y) 2)
  energy := if p.width = 2 ∨ p.width = 4 then
    toSingle (number (bytesAt file (row + p.pi) p.width)) else 0

end Place

end XWebQL.EventPlaces
