import XWebQL.Bzip2Reader

/-! `bzip2.decompress`, which decodes one block of a compressed text on the client.
The tables of a block come first: the bytes in use, the selectors and the code
lengths. The symbols behind them give the last column of the sorted rotations,
from which the rotations are linked up again. -/

namespace XWebQL.Bzip2Decoder

open Bzip2Reader

/-- What keeps a block from being decoded: an exception of the decoder, a loop
without end or a value from outside an array that JavaScript would go on with as
`NaN`. Where `undefined` has a meaning to the source, this has it too. -/
inductive Failure where
  | thrown (message : String)
  | hang
  | undefined
  deriving DecidableEq

abbrev Bits (α : Type) := StateT Reader (Except Failure) α

def bits (n : ℕ) : Bits ℕ := fun r => .ok (r.read n)

/-- `l[i]` -/
def fetch {α : Type} (l : List α) (i : ℕ) : Except Failure α :=
  l[i]?.elim (.error .undefined) .ok

def throwing {α : Type} (message : String) : Except Failure α := .error (.thrown message)

def MAX_HUFCODE_BITS : ℕ := 20

def MAX_SYMBOLS : ℕ := 258

def SYMBOL_RUNA : ℕ := 0

def SYMBOL_RUNB : ℕ := 1

def GROUP_SIZE : ℕ := 50

def header : Bits ℕ := do
  if (← bits (8 * 3)) ≠ 4348520 then throwing "No magic number found"
  let i : ℤ := (← bits 8) - 48
  if i < 1 ∨ 9 < i then throwing "Not a BZIP archive"
  return i.toNat

/-- `bits(8).toString(16)`, `n` times. -/
def hexDigits : ℕ → Bits (List Char)
  | 0 => pure []
  | n + 1 => do
    let h := Nat.toDigits 16 (← bits 8)
    return h ++ (← hexDigits n)

/-- The bytes in use among the sixteen from `16 * i` on. -/
def symbolRange (t : ℕ) (symToByte : List ℕ) (i : ℕ) : Bits (List ℕ) := do
  if t &&& 1 <<< (15 - i) ≠ 0 then
    let k ← bits 16
    return symToByte ++ (List.range 16).filterMap fun j =>
      if k &&& 1 <<< (15 - j) ≠ 0 then some (16 * i + j) else none
  else return symToByte

def symbolMap : Bits (List ℕ) := do
  let t ← bits 16
  (List.range 16).foldlM (symbolRange t) []

/-- `for (var j = 0; bits(1); j++)`, from `j` on. -/
def selectorIndex (groupCount j : ℕ) : Bits ℕ := do
  if (← bits 1) = 0 then return j
  else if h : groupCount ≤ j then throwing "whoops another error"
  else selectorIndex groupCount (j + 1)
termination_by groupCount - j

/-- `n` selectors. The check lets an index of `groupCount` through: it reads
`undefined` from outside `mtfSymbol`, puts it in front of the symbols, and the byte
array of selectors keeps it as zero. -/
def readSelectors (groupCount : ℕ) : ℕ → List (Option ℕ) → Bits (List ℕ)
  | 0, _ => pure []
  | n + 1, mtfSymbol => do
    let j ← selectorIndex groupCount 0
    let uc := mtfSymbol[j]?.join
    let selectors ← readSelectors groupCount n (uc :: mtfSymbol.eraseIdx j)
    return uc.getD 0 :: selectors

/-- The steps from the length `t` to the next one. -/
def lengthLoop (t : ℕ) (r : Reader) : Except Failure (ℕ × Reader) :=
  if t < 1 ∨ MAX_HUFCODE_BITS < t then
    throwing "I gave up a while ago on writing error messages"
  else
    if h : (r.read 1).1 = 0 then .ok (t, (r.read 1).2)
    else
      let down := (r.read 1).2.read 1
      lengthLoop (if down.1 = 0 then t + 1 else t - 1) down.2
termination_by r.left
decreasing_by
  have hleft : r.left ≠ 0 := fun hzero => h (read_eq_zero hzero 1)
  rw [left_read, left_read]
  omega

def codeLengths : ℕ → ℕ → Bits (List ℕ)
  | 0, _ => pure []
  | n + 1, t => do
    let t ← lengthLoop t
    return t :: (← codeLengths n t)

/-- A code table; `limit` and `base` begin with their second elements. -/
structure HufGroup where
  permute : List ℕ
  limit : List ℕ
  base : List ℕ
  minLen : ℕ
  maxLen : ℕ

/-- `minLen` and `maxLen` with one more length. -/
def widen (b : ℕ × ℕ) (l : ℕ) : ℕ × ℕ :=
  if b.2 < l then (b.1, l) else if l < b.1 then (l, b.2) else b

def lengthBounds (length : List ℕ) : ℕ × ℕ :=
  (length.drop 1).foldl widen (length.headD 0, length.headD 0)

def sortedSymbols (length : List ℕ) (minLen maxLen : ℕ) : List ℕ :=
  (List.range' minLen (maxLen + 1 - minLen)).flatMap fun i =>
    (List.range length.length).filter fun t => length.getD t 0 = i

def uint32 (x : ℤ) : ℕ := (x % 2 ^ 32).toNat

/-- The loop that fills `limit` and `base`. -/
structure Limits where
  pp : ℕ
  t : ℕ
  limit : List ℕ
  base : List ℕ

def Limits.next (temp : ℕ → ℕ) (s : Limits) (i : ℕ) : Limits where
  pp := 2 * (s.pp + temp i)
  t := s.t + temp i
  limit := s.limit.set i (uint32 ((s.pp + temp i : ℕ) - 1))
  base := s.base.set (i + 1) (uint32 ((2 * (s.pp + temp i) : ℕ) - (s.t + temp i : ℕ)))

/-- The elements of `temp` are bytes. -/
def temp (length : List ℕ) (i : ℕ) : ℕ := length.count i % 256

def hufGroup (length : List ℕ) : HufGroup :=
  let (minLen, maxLen) := lengthBounds length
  let symbols := sortedSymbols length minLen maxLen
  let zeros := List.replicate MAX_HUFCODE_BITS 0
  let s := (List.range' minLen (maxLen - minLen)).foldl (Limits.next (temp length))
    ⟨0, 0, zeros, zeros⟩
  { permute := symbols ++ List.replicate (MAX_SYMBOLS - symbols.length) 0
    limit := s.limit.set maxLen (uint32 ((s.pp + temp length maxLen : ℕ) - 1))
    base := s.base.set minLen 0
    minLen, maxLen }

def readGroups (symCount : ℕ) : ℕ → Bits (List HufGroup)
  | 0 => pure []
  | n + 1 => do
    let t ← bits 5
    let length ← codeLengths symCount t
    return hufGroup length :: (← readGroups symCount n)

/-- The code `j` of `i` bits grows until a limit holds it. There are 20 limits, so
`limit[20]` is `undefined`, and no code is at most `undefined`. -/
def symbolLoop (g : HufGroup) (i j : ℕ) : Bits (ℕ × ℕ) := do
  if _h : g.maxLen < i then throwing "rawr i'm a dinosaur"
  else if g.limit[i]?.any (j ≤ ·) then return (i, j)
  else symbolLoop g (i + 1) (j <<< 1 ||| (← bits 1))
termination_by g.maxLen + 1 - i

def nextSymbol (g : HufGroup) : Bits ℕ := do
  let (i, j) ← symbolLoop g g.minLen (← bits g.minLen)
  let j : ℤ := j - (← fetch g.base i : ℕ)
  if j < 0 ∨ MAX_SYMBOLS ≤ j then throwing "moo i'm a cow"
  fetch g.permute j.toNat

structure Symbols where
  runPos : ℤ
  t : ℤ
  mtfSymbol : List ℕ
  byteCount : List ℕ
  buf : List ℕ
  count : ℕ

/-- Broken selectors leave `mtfSymbol` with more than 256 elements, of which only
these are ever moved. -/
def Symbols.start (bufsize : ℕ) : Symbols where
  runPos := 0
  t := 0
  mtfSymbol := List.range 256
  byteCount := List.replicate 256 0
  buf := List.replicate bufsize 0
  count := 0

/-- `x << 1` -/
def double (x : ℤ) : ℤ := Int.bmod (2 * x) (2 ^ 32)

/-- `buf[count++] = uc` -/
def Symbols.store (uc : ℕ) (s : Symbols) : Symbols :=
  { s with buf := s.buf.set s.count uc, count := s.count + 1 }

def byteOf (symToByte : List ℕ) (i : ℕ) : Except Failure ℕ :=
  fetch (symToByte ++ List.replicate (256 - symToByte.length) 0) i

/-- `RUNA` or `RUNB` -/
def Symbols.extendRun (nextSym : ℕ) (s : Symbols) : Symbols :=
  let s := if s.runPos = 0 then { s with runPos := 1, t := 0 } else s
  { s with
    t := s.t + (if nextSym = SYMBOL_RUNA then s.runPos else 2 * s.runPos)
    runPos := double s.runPos }

/-- A loop `while (t--)` from a negative number never ends. -/
def Symbols.endRun (bufsize : ℕ) (symToByte : List ℕ) (s : Symbols) : Except Failure Symbols :=
  if s.runPos = 0 then .ok s
  else if bufsize ≤ s.count + s.t then throwing "Boom."
  else do
    let uc ← byteOf symToByte (← fetch s.mtfSymbol 0)
    if s.t < 0 then .error .hang
    else
      let s := { s with
        runPos := 0
        byteCount := s.byteCount.modify uc (· + s.t.toNat) }
      .ok ((Symbols.store uc)^[s.t.toNat] s)

def Symbols.byte (bufsize : ℕ) (symToByte : List ℕ) (nextSym : ℕ) (s : Symbols) :
    Except Failure Symbols :=
  if bufsize ≤ s.count then throwing "I can't think of anything. Error"
  else do
    let i := nextSym - 1
    let uc ← fetch s.mtfSymbol i
    let mtfSymbol := uc :: s.mtfSymbol.eraseIdx i
    let uc ← byteOf symToByte uc
    .ok (Symbols.store uc { s with mtfSymbol, byteCount := s.byteCount.modify uc (· + 1) })

def Symbols.next (bufsize : ℕ) (symToByte : List ℕ) (nextSym : ℕ) (s : Symbols) :
    Except Failure (Symbols × Bool) :=
  if nextSym = SYMBOL_RUNA ∨ nextSym = SYMBOL_RUNB then .ok (s.extendRun nextSym, false)
  else do
    let s ← s.endRun bufsize symToByte
    if symToByte.length < nextSym then .ok (s, true)
    else
      let s ← s.byte bufsize symToByte nextSym
      .ok (s, false)

/-- The turns until `symCount` is zero again. -/
def groupLoop (bufsize : ℕ) (symToByte : List ℕ) (g : HufGroup) :
    ℕ → Symbols → Bits (Symbols × Bool)
  | 0, s => pure (s, false)
  | symCount + 1, s => do
    let nextSym ← nextSymbol g
    let (s, last) ← s.next bufsize symToByte nextSym
    if last then return (s, true) else groupLoop bufsize symToByte g symCount s

def selectorLoop (bufsize : ℕ) (symToByte : List ℕ) (groups : List HufGroup) :
    List ℕ → Symbols → Bits Symbols
  | [], _ => throwing "meow i'm a kitty, that's an error"
  | selector :: selectors, s => do
    let g ← fetch groups selector
    let (s, last) ← groupLoop bufsize symToByte g GROUP_SIZE s
    if last then return s else selectorLoop bufsize symToByte groups selectors s

/-- `byteCount` becomes the number of smaller bytes. -/
def startPositions : List ℕ → ℕ → List ℕ
  | [], _ => []
  | n :: byteCount, j => j :: startPositions byteCount (j + n)

/-- `buf[byteCount[uc]] |= (i << 8)` -/
def link (s : List ℕ × List ℕ) (i : ℕ) : Except Failure (List ℕ × List ℕ) := do
  let (buf, byteCount) := s
  let uc := (← fetch buf i) &&& 0xff
  let p ← fetch byteCount uc
  let entry ← fetch buf p
  .ok (buf.set p (entry ||| i <<< 8), byteCount.set uc (p + 1))

/-- The loop over the bytes of the block: after four equal bytes comes their
number of further copies. -/
def outputLoop (buf : List ℕ) : ℕ → ℕ → ℤ → ℤ → Except Failure (List Char)
  | 0, _, _, _ => .ok []
  | count + 1, pos, previous, run => do
    let entry ← fetch buf pos
    let byte : ℤ := (entry &&& 0xff : ℕ)
    let (copies, outbyte, current) :=
      if run = 3 then (byte, previous, -1) else (1, byte, byte)
    let output ← outputLoop buf count (entry >>> 8) current
      (if current ≠ previous then 0 else run + 1)
    .ok (List.replicate copies.toNat (Char.ofNat outbyte.toNat) ++ output)

def output (origPtr : ℕ) (s : Symbols) : Except Failure (List Char) := do
  let (buf, _) ← (List.range s.count).foldlM link (s.buf, startPositions s.byteCount 0)
  let entry ← fetch buf origPtr
  outputLoop buf s.count (entry >>> 8) (entry &&& 0xff : ℕ) (-1)

def block (bufsize : ℕ) : Bits (List Char) := do
  let _ ← bits 32
  if (← bits 1) ≠ 0 then throwing "unsupported obsolete version"
  let origPtr ← bits 24
  if bufsize < origPtr then throwing "Initial position larger than buffer size"
  let symToByte ← symbolMap
  let groupCount ← bits 3
  if groupCount < 2 ∨ 6 < groupCount then throwing "another error"
  let nSelectors ← bits 15
  if nSelectors = 0 then throwing "meh"
  let selectors ← readSelectors groupCount nSelectors ((List.range groupCount).map some)
  let groups ← readGroups (symToByte.length + 2) groupCount
  let s ← selectorLoop bufsize symToByte groups selectors (Symbols.start bufsize)
  if s.count ≤ origPtr then
    throwing "I'm a monkey and I'm throwing something at someone, namely you"
  output origPtr s

def blockMagic : List Char := "314159265359".toList

def endMagic : List Char := "177245385090".toList

/-- `none` stands for the -1 behind the last block. -/
def decompress (size : ℕ) : Bits (Option (List Char)) := do
  let h ← hexDigits 6
  if h = endMagic then return none
  if h ≠ blockMagic then throwing "eek not valid bzip data"
  return some (← block (100000 * size))

end XWebQL.Bzip2Decoder
