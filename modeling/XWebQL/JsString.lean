import Mathlib.Data.List.Basic
import Mathlib.Order.Nat

/-! Strings of the browser: `encodeURI`, `split` with a regular expression,
`parseInt`, `charCodeAt` and `trim`.
A string is a list of characters. A regular expression is given by its sticky
matches: `matchLen s q` is the length of the match of `s` that starts at `q`. -/

namespace XWebQL.JsString

/-- The characters that `encodeURI` keeps. -/
def uriUnescaped (c : Char) : Bool :=
  c.isAlphanum || c ∈ [';', '/', '?', ':', '@', '&', '=', '+', '$', ',', '#', '-', '_', '.', '!',
    '~', '*', '(', ')', Char.ofNat 39]

def hexDigit (n : ℕ) : Char := Char.ofNat (if n < 10 then 48 + n else 55 + n)

/-- `%` and two hexadecimal digits in upper case. -/
def percentEncode (b : UInt8) : List Char :=
  ['%', hexDigit (b.toNat / 16), hexDigit (b.toNat % 16)]

def encodeURI (s : List Char) : List Char :=
  s.flatMap fun c =>
    if uriUnescaped c then [c] else (String.utf8EncodeChar c).flatMap percentEncode

/-- The loop of `split`: `p` is the end of the last separator, `q` the position
where the next match is tried. -/
def splitLoop (matchLen : List Char → ℕ → Option ℕ) (s : List Char) (p q : ℕ) (hpq : p ≤ q) :
    List (List Char) :=
  if hq : q < s.length then
    match matchLen s q with
    | none => splitLoop matchLen s p (q + 1) (by omega)
    | some len =>
      if he : min (q + len) s.length = p then splitLoop matchLen s p (q + 1) (by omega)
      else (s.drop p).take (q - p) ::
        splitLoop matchLen s (min (q + len) s.length) (min (q + len) s.length) le_rfl
  else [s.drop p]
termination_by (s.length - p) + (s.length - q)

def split (matchLen : List Char → ℕ → Option ℕ) (s : List Char) : List (List Char) :=
  if s.length = 0 then (if (matchLen s 0).isSome then [] else [s])
  else splitLoop matchLen s 0 0 le_rfl

def hexValue (c : Char) : Option ℕ :=
  if '0' ≤ c ∧ c ≤ '9' then some (c.toNat - 48)
  else if 'a' ≤ c ∧ c ≤ 'f' then some (c.toNat - 87)
  else if 'A' ≤ c ∧ c ≤ 'F' then some (c.toNat - 55)
  else none

/-- `parseInt(x, 16)` of a string without blanks, sign or prefix: the value of
its leading digits, and `NaN` (here `none`) without any. -/
def parseInt16 (x : List Char) : Option ℕ :=
  match x.map hexValue with
  | some d :: rest =>
    some ((rest.takeWhile Option.isSome).foldl (fun n e => 16 * n + e.getD 0) d)
  | _ => none

/-- `s.charCodeAt(x)` where the index is a string of at most one character: a
digit stands for itself, anything else for zero. -/
def charCodeAt (s x : List Char) : Option ℕ :=
  let index := match x with
    | [c] => if '0' ≤ c ∧ c ≤ '9' then c.toNat - 48 else 0
    | _ => 0
  s[index]?.map Char.toNat

/-- The blanks and line terminators that `trim` removes. -/
def whitespace (c : Char) : Bool :=
  c.toNat ∈ [0x09, 0x0A, 0x0B, 0x0C, 0x0D, 0x20, 0xA0, 0x1680, 0x2028, 0x2029, 0x202F, 0x205F,
    0x3000, 0xFEFF] || (0x2000 ≤ c.toNat && c.toNat ≤ 0x200A)

def trim (s : List Char) : List Char :=
  ((s.dropWhile whitespace).reverse.dropWhile whitespace).reverse

/-- The conversion of a number to an element of a `Uint8Array`. -/
def toUint8 : Option ℕ → UInt8
  | none => 0
  | some n => UInt8.ofNat n

theorem trim_replicate_append {c : Char} (hc : whitespace c = true) (n : ℕ) (s : List Char) :
    trim (List.replicate n c ++ s) = trim s := by
  induction n with
  | zero => rfl
  | succ n ih =>
    rw [trim] at ih ⊢
    rw [List.replicate_succ, List.cons_append, List.dropWhile_cons_of_pos hc, ih]

section Split

variable {matchLen : List Char → ℕ → Option ℕ} {s : List Char} {p q : ℕ} (hpq : p ≤ q)

theorem splitLoop_end (h : s.length ≤ q) : splitLoop matchLen s p q hpq = [s.drop p] := by
  rw [splitLoop, dif_neg (by omega)]

theorem splitLoop_none (hq : q < s.length) (hm : matchLen s q = none) :
    splitLoop matchLen s p q hpq = splitLoop matchLen s p (q + 1) (by omega) := by
  rw [splitLoop, dif_pos hq]
  simp only [hm]

theorem splitLoop_some {len : ℕ} (hq : q + len ≤ s.length) (hlen : 0 < len)
    (hm : matchLen s q = some len) :
    splitLoop matchLen s p q hpq =
      (s.drop p).take (q - p) :: splitLoop matchLen s (q + len) (q + len) le_rfl := by
  rw [splitLoop, dif_pos (by omega)]
  simp only [hm, min_eq_left hq]
  rw [dif_neg (by omega)]

end Split

end XWebQL.JsString
