import Mathlib.Data.List.DropRight
import XWebQL.SxsReader

/-! `read_events`, the reader of event files in Zig.
Every function works on a slice, mostly one card. `none` is what ends in no
events: an error that is returned, a failed safety check, the use of a value
that is undefined. The threads of the last step write into the same arrays; the
order of their rounds is a parameter. -/

namespace XWebQL.ZigReader

open AsciiText
open FitsTable (twosComplement)
open SingleFloat (toSingle)
open SxsReader (Event startsWith int getColumnOffset)

def FITS_CHUNK_LENGTH : ℕ := 2880

def FITS_LINE_LENGTH : ℕ := 80

/-- `s[first..last]` -/
def slice (s : List UInt8) (first last : ℕ) : Option (List UInt8) :=
  if first ≤ last ∧ last ≤ s.length then some ((s.take last).drop first) else none

/-- `std.mem.indexOf` of one character -/
def indexOf (s : List UInt8) (c : UInt8) : Option ℕ :=
  if c ∈ s then some (s.takeWhile (· != c)).length else none

/-- The characters that `" \r\n\t"` lists. -/
def isTrimmed (c : UInt8) : Bool := c == blank || c == 13 || c == 10 || c == 9

/-- `std.mem.trim(u8, s, " \r\n\t")` -/
def trim (s : List UInt8) : List UInt8 := (s.dropWhile isTrimmed).rdropWhile isTrimmed

/-- `parseIntWithSign` in base 10, where `_` may stand between digits. -/
def parseDigits (buf : List UInt8) : Option ℤ :=
  if buf = [] ∨ buf.head? = some (code '_') ∨ buf.getLast? = some (code '_') then none
  else if (buf.filter (· != code '_')).all isDigit then
    some (decimal (buf.filter (· != code '_')))
  else none

/-- `std.fmt.parseInt` to a type with the values from `low` to `high` -/
def parseInt (low high : ℤ) (buf : List UInt8) : Option ℤ := do
  let v ← match buf with
    | [] => none
    | c :: rest =>
      if c = code '+' then parseDigits rest
      else if c = code '-' then (parseDigits rest).map fun v => -v
      else parseDigits (c :: rest)
  if low ≤ v ∧ v ≤ high then some v else none

/-- `hdr_get_int_value` at the type `usize` -/
def hdrGetIntValue (line : List UInt8) : Option ℕ := do
  let str ← match indexOf line (code '/') with
    | some p => slice line 10 p
    | none => slice line 10 FITS_LINE_LENGTH
  let v ← parseInt 0 18446744073709551615 (trim str)
  some v.toNat

/-- The inner `none` is `null`. The slice ends one character before the closing quote. -/
def hdrGetStringValue (line : List UInt8) : Option (Option (List UInt8)) := do
  let str ← slice line 10 FITS_LINE_LENGTH
  match indexOf str quote with
  | none => some none
  | some p1 => do
    let rest ← slice str (p1 + 1) str.length
    match indexOf rest quote with
    | none => some none
    | some p2 => do
      let value ← slice str (p1 + 1) (p1 + p2)
      some (some (trim value))

/-- `std.fmt.parseInt(i32, buf, 10)` -/
def parseInt32 (buf : List UInt8) : Option ℤ := parseInt (-2147483648) 2147483647 buf

def getColumnSize (columnType : List UInt8) : Option ℤ :=
  match columnType.getLast? with
  | none => none
  | some last =>
    let num := (parseInt32 columnType.dropLast).getD 0
    if last = code 'L' then some (max 1 num)
    else if last = code 'X' then do
      let bits ← int (num + 7)
      some (max 1 (bits / 8))
    else if last = code 'B' then some (max 1 num)
    else if last = code 'I' then int (2 * max 1 num)
    else if last = code 'J' then int (4 * max 1 num)
    else if last = code 'K' then int (8 * max 1 num)
    else if last = code 'A' then some (max 1 num)
    else if last = code 'E' then int (4 * max 1 num)
    else if last = code 'D' then int (8 * max 1 num)
    else if last = code 'C' then int (8 * max 1 num)
    else if last = code 'M' then int (16 * max 1 num)
    else some 0

def hasTableExtension (header : List UInt8) : Bool := startsWith header "XTENSION= 'BINTABLE'"

/-- `none` in a field is `undefined`. -/
structure XMeta where
  naxis1 : Option ℕ
  naxis2 : Option ℕ
  tfields : Option ℕ
  ix : Option ℤ
  iy : Option ℤ
  ipi : Option ℤ
  columns : Option (List (Option ℤ))

namespace XMeta

def undefined : XMeta := ⟨none, none, none, none, none, none, none⟩

def setTfields (m : XMeta) (v : ℕ) : XMeta :=
  { m with
    tfields := some v
    columns := if 0 < v then some (List.replicate v none) else m.columns }

def setName (m : XMeta) (index : ℤ) (column : List UInt8) : XMeta :=
  if column = ascii "X" then { m with ix := some index }
  else if column = ascii "Y" then { m with iy := some index }
  else if column = ascii "PI" then { m with ipi := some index }
  else m

/-- `events.columns[index - 1] = size` -/
def setSize (m : XMeta) (index size : ℤ) : Option XMeta := do
  let columns ← m.columns
  if 0 < index ∧ index ≤ columns.length then
    some { m with columns := some (columns.set (index.toNat - 1) (some size)) }
  else none

end XMeta

/-- What one round of the loop of `scan_table_header` does unless it returns. -/
def scanLine (line : List UInt8) (m : XMeta) : Option XMeta := do
  let m ← if startsWith line "NAXIS1  = " then do
      let v ← hdrGetIntValue line
      some { m with naxis1 := some v }
    else some m
  let m ← if startsWith line "NAXIS2  = " then do
      let v ← hdrGetIntValue line
      some { m with naxis2 := some v }
    else some m
  let m ← if startsWith line "TFIELDS = " then do
      let v ← hdrGetIntValue line
      some (m.setTfields v)
    else some m
  let m ← if startsWith line "TTYPE" then
      match indexOf line blank with
      | none => some m
      | some j => do
        let str ← slice line 5 j
        let index ← parseInt32 str
        let value ← hdrGetStringValue line
        match value with
        | none => some m
        | some column => some (m.setName index column)
    else some m
  if startsWith line "TFORM" then
    match indexOf line blank with
    | none => some m
    | some j => do
      let str ← slice line 5 j
      let index ← parseInt32 str
      let value ← hdrGetStringValue line
      match value with
      | none => some m
      | some columnType => do
        let size ← getColumnSize columnType
        m.setSize index size
  else some m

def scanLines : ℕ → List UInt8 → XMeta → Option (Bool × XMeta)
  | 0, _, m => some (false, m)
  | rounds + 1, header, m =>
    let line := header.take FITS_LINE_LENGTH
    if startsWith line "END       " then some (true, m)
    else do
      let m ← scanLine line m
      scanLines rounds (header.drop FITS_LINE_LENGTH) m

def scanTableHeader (header : List UInt8) (m : XMeta) : Option (Bool × XMeta) :=
  scanLines (header.length / FITS_LINE_LENGTH) header m

/-- The block of the first table extension; `none` is also the error that there is none. -/
def findTable (sxs : List UInt8) (offset : ℕ) : Option ℕ :=
  if offset < sxs.length then do
    let header ← slice sxs offset (offset + FITS_CHUNK_LENGTH)
    if hasTableExtension header then some offset
    else findTable sxs (offset + FITS_CHUNK_LENGTH)
  else none
termination_by sxs.length - offset
decreasing_by
  unfold FITS_CHUNK_LENGTH at *
  omega

def readHeader (sxs : List UInt8) (offset : ℕ) (m : XMeta) : Option (ℕ × XMeta) :=
  if offset < sxs.length then do
    let header ← slice sxs offset (offset + FITS_CHUNK_LENGTH)
    let (ended, m) ← scanTableHeader header m
    if ended then some (offset + FITS_CHUNK_LENGTH, m)
    else readHeader sxs (offset + FITS_CHUNK_LENGTH) m
  else some (offset, m)
termination_by sxs.length - offset
decreasing_by
  unfold FITS_CHUNK_LENGTH at *
  omega

/-- `get_column_offset(meta.columns, position - 1)` -/
def positionOffset (columns : List (Option ℤ)) (position : ℤ) : Option ℕ := do
  let index ← int (position - 1)
  let offset ← getColumnOffset columns index.toNat
  if offset < 0 then none else some offset.toNat

/-- `std.mem.readInt(T, data[offset..][0..width], .big)` -/
def readInt (data : List UInt8) (offset width : ℕ) : Option ℤ := do
  let bytes ← slice data offset (offset + width)
  some (twosComplement bytes)

/-- What `read_events_threaded` reads in one round. -/
def readRow (data : List UInt8) (offset x_offset y_offset pi_offset : ℕ) (pi_size : ℤ) :
    Option Event := do
  let x ← readInt data (offset + x_offset) 2
  let y ← readInt data (offset + y_offset) 2
  let pi ←
    if pi_size = 2 then (readInt data (offset + pi_offset) 2).map toSingle
    else if pi_size = 4 then (readInt data (offset + pi_offset) 4).map toSingle
    else some 0
  some ⟨x, y, pi⟩

def threadRows (num_threads naxis2 i : ℕ) : ℕ × ℕ :=
  let work_size := naxis2 / num_threads
  let offset := i * work_size
  (offset, if i = num_threads - 1 then naxis2 - offset else work_size)

def rounds (num_threads naxis2 : ℕ) : List (ℕ × ℕ) :=
  (List.range num_threads).flatMap fun i =>
    (List.range (threadRows num_threads naxis2 i).2).map fun j => (i, j)

/-- One round of a thread. The arrays are undefined where nothing was written. -/
def runRound (num_threads naxis2 naxis1 : ℕ) (read : ℕ → Option Event)
    (arrays : List (Option Event)) (round : ℕ × ℕ) : Option (List (Option Event)) := do
  let offset := (threadRows num_threads naxis2 round.1).1
  let event ← read (offset * naxis1 + round.2 * naxis1)
  if offset + round.2 < arrays.length then some (arrays.set (offset + round.2) (some event))
  else none

structure XEvents where
  num_events : ℕ
  events : List Event
deriving DecidableEq, Repr

/-- `read_events` from the sum of the column sizes on. `schedule` is the order in which the
threads come to run their rounds. -/
def readRows (num_cores : ℕ) (schedule : List (ℕ × ℕ) → List (ℕ × ℕ)) (sxs : List UInt8)
    (sxs_offset : ℕ) (m : XMeta) : Option XEvents := do
  let columns ← m.columns
  let naxis1 ← m.naxis1
  let naxis2 ← m.naxis2
  let bytes_per_row ← getColumnOffset columns columns.length
  if bytes_per_row ≠ naxis1 then none
  else do
    let ix ← m.ix
    let iy ← m.iy
    let ipi ← m.ipi
    let x_offset ← positionOffset columns ix
    let y_offset ← positionOffset columns iy
    let pi_offset ← positionOffset columns ipi
    let pi_size ← if ipi < 1 then none else columns[(ipi - 1).toNat]?.join
    let data ← slice sxs sxs_offset (sxs_offset + naxis2 * naxis1)
    let num_threads := min 16 num_cores
    let arrays ← (schedule (rounds num_threads naxis2)).foldlM
      (runRound num_threads naxis2 naxis1
        fun offset => readRow data offset x_offset y_offset pi_offset pi_size)
      (List.replicate naxis2 none)
    let events ← arrays.mapM id
    some ⟨naxis2, events⟩

/-- The count is 0 where `getCpuCount` fails. -/
def getNumCores (cpu_count : ℕ) : ℕ := max 1 cpu_count

def readEvents (cpu_count : ℕ) (schedule : List (ℕ × ℕ) → List (ℕ × ℕ)) (sxs : List UInt8) :
    Option XEvents := do
  let offset ← findTable sxs 0
  let (offset, m) ← readHeader sxs offset .undefined
  readRows (getNumCores cpu_count) schedule sxs offset m

end XWebQL.ZigReader
