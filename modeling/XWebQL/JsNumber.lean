import XWebQL.JsString
import XWebQL.FloatFormat

/-! Strings that a loose comparison with the number -1 takes for it.
The comparison converts the string: blanks around it are dropped, and the decimal
value is rounded to a double. -/

namespace XWebQL.JsNumber

open JsString

def digit (c : Char) : Bool := '0' ≤ c ∧ c ≤ '9'

def digitsValue (s : List Char) : ℕ := s.foldl (fun n c => 10 * n + (c.toNat - 48)) 0

def exponentPart (s : List Char) : Option ℤ :=
  match s with
  | [] => some 0
  | e :: s =>
    if e = 'e' ∨ e = 'E' then
      let (negative, s) := match s with
        | '-' :: s => (true, s)
        | '+' :: s => (false, s)
        | s => (false, s)
      if s ≠ [] ∧ s.all digit then
        some (if negative then -(digitsValue s : ℤ) else digitsValue s)
      else none
    else none

/-- The value of a decimal literal without a sign; `Infinity` has none. -/
def decimalValue (s : List Char) : Option ℚ :=
  let whole := s.takeWhile digit
  let s := s.dropWhile digit
  let (fraction, s) := match s with
    | '.' :: s => (s.takeWhile digit, s.dropWhile digit)
    | s => ([], s)
  if whole = [] ∧ fraction = [] then none
  else (exponentPart s).map fun exponent =>
    (digitsValue (whole ++ fraction) : ℚ) * 10 ^ (exponent - (fraction.length : ℤ))

/-- `s == -1` for a string `s`. -/
def minusOne (s : List Char) : Bool :=
  match trim s with
  | '-' :: s => (decimalValue s).any fun v => FloatFormat.double.round v = 1
  | _ => false

end XWebQL.JsNumber
