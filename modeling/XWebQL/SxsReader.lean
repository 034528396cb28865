import XWebQL.DataView
import XWebQL.FitsTable
import XWebQL.SingleFloat

/-! `read_sxs_events`, the reader of event files in C.
The file is mapped, and every function works on what is left of it from some
address on. Nothing stops `atoi` and `sscanf` at the end of a card, or of the
file: `atoi` goes on to the character that ends the number, `sscanf` looks for
the zero byte that ends its string before it reads anything. `none` is undefined
behaviour: an overflow of `int`, an access outside of the file or of an array,
the use of a value that was never set. An allocation fails only for a negative
size; a floating-point number is the whole number that it is. -/

namespace XWebQL.SxsReader

open AsciiText
open DataView (subarray fromLittleEndian)
open SingleFloat (toSingle)

def FITS_CHUNK_LENGTH : ℕ := 2880

def FITS_LINE_LENGTH : ℕ := 80

/-- The result of an operation on `int`. -/
def int (v : ℤ) : Option ℤ :=
  if -2147483648 ≤ v ∧ v ≤ 2147483647 then some v else none

theorem int_eq_some {v : ℤ} (hnonneg : 0 ≤ v) (h : v < 2147483648) : int v = some v := by
  rw [int, if_pos (by omega)]

theorem le_of_int {v w : ℤ} (h : int v = some w) : w = v ∧ w ≤ 2147483647 := by
  rw [int] at h
  split at h
  · rename_i hv
    cases h
    exact ⟨rfl, hv.2⟩
  · cases h

/-- The conversion of an `int` to `size_t`. -/
def size (v : ℤ) : ℕ := (v % 18446744073709551616).toNat

/-- `strncmp(line, keyword, strlen(keyword)) == 0` -/
def startsWith (line : List UInt8) (keyword : String) : Bool := (ascii keyword).isPrefixOf line

/-- The bytes up to the first one of another kind, at which a scan stops. A scan that meets none
goes on after the end of the file. -/
def scan (p : UInt8 → Bool) (s : List UInt8) : Option (List UInt8) :=
  if s.dropWhile p = [] then none else some (s.takeWhile p)

theorem scan_eq_some_iff {p : UInt8 → Bool} {s run : List UInt8} :
    scan p s = some run ↔ (∃ c ∈ s, p c = false) ∧ s.takeWhile p = run := by
  have hends : s.dropWhile p = [] ↔ ¬ ∃ c ∈ s, p c = false := by
    rw [List.dropWhile_eq_nil_iff]
    simp
  rw [scan]
  split
  · rename_i h
    simp only [reduceCtorEq, hends.mp h, false_and]
  · rename_i h
    rw [hends, not_not] at h
    simp only [Option.some.injEq, h, true_and]

theorem scan_run {p : UInt8 → Bool} {run rest : List UInt8} {c : UInt8}
    (hrun : ∀ d ∈ run, p d = true) (hc : p c = false) : scan p (run ++ c :: rest) = some run :=
  scan_eq_some_iff.mpr ⟨⟨c, List.mem_append_right _ List.mem_cons_self, hc⟩,
    takeWhile_run hrun fun _ hd => Option.some.inj hd ▸ hc⟩

/-- The digits of a number; the inner `none` is that there are none. -/
def digits (s : List UInt8) : Option (Option ℤ) :=
  (scan isDigit s).map fun
    | [] => none
    | ds => some (decimal ds)

/-- The number that the C library reads: white space, a sign, digits. -/
def number (s : List UInt8) : Option (Option ℤ) :=
  match s.dropWhile isSpace with
  | [] => none
  | c :: rest =>
    if c = code '-' then (digits rest).map fun v => v.map fun v => -v
    else if c = code '+' then digits rest
    else digits (c :: rest)

def atoi (s : List UInt8) : Option ℤ := do
  let v ← number s
  int (v.getD 0)

/-- `sscanf(line, "TTYPE%d", &index)` after the five letters; the inner `none` is a status other
than 1. -/
def sscanfIndex (s : List UInt8) : Option (Option ℤ) :=
  if 0 ∈ s then do
    let v ← number s
    match v with
    | none => some none
    | some v => (int v).map some
  else none

def hdrGetIntValue (hdr : List UInt8) : Option ℤ := atoi hdr

/-- What `%s` goes on with. -/
def inWord (c : UInt8) : Bool := !isSpace c && c != 0

/-- `sscanf(hdr, "'%s'", string)`, into 80 bytes; then a quote at the end is removed, where the
empty string has no last byte. -/
def hdrGetStringValue (hdr : List UInt8) : Option (List UInt8) :=
  match hdr with
  | [] => none
  | c :: rest =>
    if 0 ∉ hdr ∨ c ≠ quote then none
    else
      let string := (rest.dropWhile isSpace).takeWhile inWord
      if string = [] ∨ FITS_LINE_LENGTH ≤ string.length then none
      else if string.getLast? = some quote then some string.dropLast
      else some string

/-- The last character is replaced by the zero that ends a string. -/
def getTypeSize (type : List UInt8) : Option ℤ :=
  match type.getLast? with
  | none => some 0
  | some last => do
    let num ← atoi (type.dropLast ++ [0])
    if last = code 'L' then some (max 1 num)
    else if last = code 'X' then do
      let bits ← int (num + 7)
      some (max 1 (bits.tdiv 8))
    else if last = code 'B' then some (max 1 num)
    else if last = code 'I' then int (2 * max 1 num)
    else if last = code 'J' then int (4 * max 1 num)
    else if last = code 'K' then int (8 * max 1 num)
    else if last = code 'A' then some (max 1 num)
    else if last = code 'E' then int (4 * max 1 num)
    else if last = code 'D' then int (8 * max 1 num)
    else if last = code 'C' then int (8 * max 1 num)
    else if last = code 'M' then int (16 * max 1 num)
    else some 0

def hasTableExtension (sxs : List UInt8) : Bool := startsWith sxs "XTENSION= 'BINTABLE'"

/-- The variables of `read_sxs_events` that `scan_table_header` gets the addresses of.
`columns` is `none` for the null pointer, an entry is `none` until it is set. -/
structure Meta where
  naxis1 : ℤ
  naxis2 : ℤ
  tfields : ℤ
  posx : ℤ
  posy : ℤ
  pospi : ℤ
  columns : Option (List (Option ℤ))

namespace Meta

def start : Meta := ⟨0, 0, 0, 0, 0, 0, none⟩

/-- `*tfields = ...` and the allocation after it. -/
def setTfields (m : Meta) (v : ℤ) : Meta :=
  { m with
    tfields := v
    columns := if v < 0 then none else some (List.replicate v.toNat none) }

def setName (m : Meta) (index : ℤ) (name : List UInt8) : Meta :=
  if name = ascii "X" then { m with posx := index }
  else if name = ascii "Y" then { m with posy := index }
  else if name = ascii "PI" then { m with pospi := index }
  else m

def setSize (m : Meta) (index size : ℤ) : Meta :=
  if 0 < index ∧ index ≤ m.tfields then
    { m with columns := m.columns.map fun l => l.set (index.toNat - 1) (some size) }
  else m

end Meta

theorem setName_posx (m : Meta) (i : ℤ) (name : List UInt8) :
    (m.setName i name).posx = if name = ascii "X" then i else m.posx := by
  unfold Meta.setName
  split_ifs <;> rfl

theorem setName_posy (m : Meta) (i : ℤ) (name : List UInt8) :
    (m.setName i name).posy = if name = ascii "Y" then i else m.posy := by
  have hxy : ascii "X" ≠ ascii "Y" := by decide
  grind [Meta.setName]

theorem setName_pospi (m : Meta) (i : ℤ) (name : List UInt8) :
    (m.setName i name).pospi = if name = ascii "PI" then i else m.pospi := by
  have hx : ascii "X" ≠ ascii "PI" := by decide
  have hy : ascii "Y" ≠ ascii "PI" := by decide
  grind [Meta.setName]

theorem setName_others (m : Meta) (i : ℤ) (name : List UInt8) :
    m.setName i name =
      { m with
        posx := (m.setName i name).posx
        posy := (m.setName i name).posy
        pospi := (m.setName i name).pospi } := by
  unfold Meta.setName
  split_ifs <;> rfl

theorem setName_columns (m : Meta) (i : ℤ) (name : List UInt8) :
    (m.setName i name).columns = m.columns ∧ (m.setName i name).tfields = m.tfields := by
  unfold Meta.setName
  split_ifs <;> exact ⟨rfl, rfl⟩

theorem setSize_columns {m : Meta} {l : List (Option ℤ)} (hl : m.columns = some l) (i size : ℤ) :
    (m.setSize i size).columns =
        some (if 0 < i ∧ i ≤ m.tfields then l.set (i.toNat - 1) (some size) else l) ∧
      (m.setSize i size).tfields = m.tfields := by
  unfold Meta.setSize
  split_ifs
  · exact ⟨by rw [hl]; rfl, rfl⟩
  · exact ⟨hl, rfl⟩

theorem setSize_others (m : Meta) (i size : ℤ) :
    m.setSize i size = { m with columns := (m.setSize i size).columns } := by
  unfold Meta.setSize
  split_ifs <;> rfl

/-- What one round of the loop of `scan_table_header` does unless it returns. -/
def scanLine (line : List UInt8) (m : Meta) : Option Meta := do
  let m ← if startsWith line "NAXIS1  = " then do
      let v ← hdrGetIntValue (line.drop 10)
      some { m with naxis1 := v }
    else some m
  let m ← if startsWith line "NAXIS2  = " then do
      let v ← hdrGetIntValue (line.drop 10)
      some { m with naxis2 := v }
    else some m
  let m ← if startsWith line "TFIELDS = " then do
      let v ← hdrGetIntValue (line.drop 10)
      some (m.setTfields v)
    else some m
  let m ← if startsWith line "TTYPE" then do
      let status ← sscanfIndex (line.drop 5)
      match status with
      | none => some m
      | some index => do
        let name ← hdrGetStringValue (line.drop 10)
        some (m.setName index name)
    else some m
  if startsWith line "TFORM" then do
    let status ← sscanfIndex (line.drop 5)
    match status with
    | none => some m
    | some index => do
      let type ← hdrGetStringValue (line.drop 10)
      let size ← getTypeSize type
      some (m.setSize index size)
  else some m

def scanLines : ℕ → List UInt8 → Meta → Option (Bool × Meta)
  | 0, _, m => some (false, m)
  | rounds + 1, line, m =>
    if startsWith line "END       " then some (true, m)
    else do
      let m ← scanLine line m
      scanLines rounds (line.drop FITS_LINE_LENGTH) m

def scanTableHeader (sxs : List UInt8) (m : Meta) : Option (Bool × Meta) :=
  scanLines (FITS_CHUNK_LENGTH / FITS_LINE_LENGTH) sxs m

/-- The loop over the first `index` columns. -/
def getColumnOffset (columns : List (Option ℤ)) : ℕ → Option ℤ
  | 0 => some 0
  | index + 1 => do
    let offset ← getColumnOffset columns index
    let size ← columns[index]?.join
    int (offset + size)

/-- The sum of the sizes before column `k`. -/
def sumBefore (size : ℕ → Option ℤ) (k : ℕ) : ℤ :=
  ((List.range k).map fun c => (size c).getD 0).sum

section Offsets

variable {size : ℕ → Option ℤ} {n : ℕ}

theorem sumBefore_succ (k : ℕ) : sumBefore size (k + 1) = sumBefore size k + (size k).getD 0 := by
  rw [sumBefore, List.range_succ, List.map_append, List.sum_append, sumBefore]
  simp

theorem sumBefore_mono (hsize : ∀ c, 0 ≤ (size c).getD 0) {j k : ℕ} (h : j ≤ k) :
    sumBefore size j ≤ sumBefore size k := by
  induction h with
  | refl => exact le_rfl
  | @step k _ ih =>
    have hlast := hsize k
    rw [sumBefore_succ]
    omega

theorem sumBefore_nonneg (hsize : ∀ c, 0 ≤ (size c).getD 0) (k : ℕ) : 0 ≤ sumBefore size k :=
  sumBefore_mono hsize (Nat.zero_le k)

theorem sizes_getElem (k : ℕ) :
    ((List.range n).map size)[k]?.join = if k < n then size k else none := by
  split
  · rename_i hk
    rw [List.getElem?_map, List.getElem?_range hk]
    rfl
  · rename_i hk
    rw [List.getElem?_eq_none (by simpa using hk)]
    rfl

theorem getColumnOffset_eq_some_iff (hsize : ∀ c, 0 ≤ (size c).getD 0) {k : ℕ} {v : ℤ} :
    getColumnOffset ((List.range n).map size) k = some v ↔
      k ≤ n ∧ (∀ c < k, (size c).isSome) ∧ sumBefore size k < 2147483648 ∧
        v = sumBefore size k := by
  induction k generalizing v with
  | zero =>
    constructor
    · intro h
      exact ⟨Nat.zero_le _, nofun, by norm_num [sumBefore], (Option.some.inj h).symm⟩
    · rintro ⟨-, -, -, rfl⟩
      rfl
  | succ k ih =>
    have hnonneg := sumBefore_nonneg hsize k
    rw [getColumnOffset, sizes_getElem]
    constructor
    · intro h
      obtain ⟨offset, hoffset, h⟩ := Option.bind_eq_some_iff.mp h
      obtain ⟨last, hlast, h⟩ := Option.bind_eq_some_iff.mp h
      obtain ⟨hk, hsized, hlt, rfl⟩ := ih.mp hoffset
      obtain ⟨rfl, hle⟩ := le_of_int h
      rw [Option.ite_none_right_eq_some] at hlast
      obtain ⟨hk, hlast⟩ := hlast
      rw [sumBefore_succ, hlast, Option.getD_some]
      refine ⟨hk, fun c hc => ?_, by omega, rfl⟩
      cases Nat.lt_succ_iff_lt_or_eq.mp hc with
      | inl hc => exact hsized c hc
      | inr hc => rw [hc, hlast]; rfl
    · rintro ⟨hk, hsized, hlt, rfl⟩
      obtain ⟨last, hlast⟩ := Option.isSome_iff_exists.mp (hsized k (Nat.lt_succ_self k))
      have hlast_nonneg := hsize k
      rw [sumBefore_succ] at hlt ⊢
      rw [hlast, Option.getD_some] at hlast_nonneg hlt ⊢
      rw [ih.mpr ⟨by omega, fun c hc => hsized c (by omega), by omega, rfl⟩,
        if_pos (Nat.lt_of_succ_le hk)]
      exact int_eq_some (by omega) hlt

end Offsets

/-- `get_column_offset(column_sizes, position - 1)` -/
def positionOffset (columns : List (Option ℤ)) (position : ℤ) : Option ℤ := do
  let index ← int (position - 1)
  getColumnOffset columns index.toNat

def findTable (sxs : List UInt8) (offset : ℕ) : Option ℕ :=
  if offset + FITS_CHUNK_LENGTH ≤ sxs.length then
    if hasTableExtension (sxs.drop offset) then some offset
    else findTable sxs (offset + FITS_CHUNK_LENGTH)
  else none
termination_by sxs.length - offset
decreasing_by
  unfold FITS_CHUNK_LENGTH at *
  omega

def readHeader (sxs : List UInt8) (offset : ℕ) (m : Meta) : Option (ℕ × Meta) :=
  if offset + FITS_CHUNK_LENGTH ≤ sxs.length then do
    let (ended, m) ← scanTableHeader (sxs.drop offset) m
    if ended then some (offset, m) else readHeader sxs (offset + FITS_CHUNK_LENGTH) m
  else some (offset, m)
termination_by sxs.length - offset
decreasing_by
  unfold FITS_CHUNK_LENGTH at *
  omega

def bswap16 (n : ℕ) : ℕ := n % 256 * 256 + n / 256

def bswap32 (n : ℕ) : ℕ := bswap16 (n % 65536) * 65536 + bswap16 (n / 65536)

/-- The unsigned number in the bytes from an address on, on a machine that stores the lowest byte
first. -/
def load (sxs : List UInt8) (width : ℕ) (address : ℤ) : Option ℕ :=
  if address < 0 then none else (subarray sxs address.toNat width).map fromLittleEndian

structure Event where
  x : ℤ
  y : ℤ
  energy : ℤ
deriving DecidableEq, Repr

/-- Round `i` of the loop over the rows. `data` is `sxs_offset`. -/
def readRow (sxs : List UInt8) (data : ℕ) (naxis1 x_offset y_offset pi_offset pi_size : ℤ)
    (i : ℕ) : Option Event := do
  let step ← int (i * naxis1)
  let row := data + step
  let x ← load sxs 2 (row + x_offset)
  let y ← load sxs 2 (row + y_offset)
  let energy ←
    if pi_size = 2 then (load sxs 2 (row + pi_offset)).map fun n => toSingle (bswap16 n)
    else if pi_size = 4 then (load sxs 4 (row + pi_offset)).map fun n => toSingle (bswap32 n)
    else some 0
  some ⟨Int.bmod (bswap16 x) 65536, Int.bmod (bswap16 y) 65536, energy⟩

structure Result where
  num_events : ℤ
  events : Option (List Event)
deriving DecidableEq, Repr

/-- `read_sxs_events` from the sum of the column sizes on. -/
def readRows (sxs : List UInt8) (data : ℕ) (m : Meta) : Option Result := do
  let columns := m.columns.getD []
  let sum ← getColumnOffset columns m.tfields.toNat
  if sum ≠ m.naxis1 then some ⟨0, none⟩
  else if sxs.length < (data + size m.naxis2 * size m.naxis1) % 18446744073709551616 then
    some ⟨0, none⟩
  else if m.naxis2 < 0 then some ⟨0, none⟩
  else do
    let x_offset ← positionOffset columns m.posx
    let y_offset ← positionOffset columns m.posy
    let pi_offset ← positionOffset columns m.pospi
    let pi_size ← if m.pospi < 1 then none else columns[(m.pospi - 1).toNat]?.join
    let events ← (List.range m.naxis2.toNat).mapM
      (readRow sxs data m.naxis1 x_offset y_offset pi_offset pi_size)
    some ⟨m.naxis2, some events⟩

theorem mapM_isSome_iff {α β : Type} {l : List α} {g : α → Option β} :
    (l.mapM g).isSome ↔ ∀ a ∈ l, (g a).isSome := by
  induction l with
  | nil => exact iff_of_true rfl (List.forall_mem_nil _)
  | cons a l ih =>
    rw [List.mapM_cons, List.forall_mem_cons, ← ih]
    cases g a <;> cases l.mapM g <;> simp

def readSxsEvents (sxs : List UInt8) : Option Result :=
  if sxs.length < FITS_CHUNK_LENGTH then some ⟨-1, none⟩
  else match findTable sxs 0 with
    | none => some ⟨0, none⟩
    | some offset => do
      let (offset, m) ← readHeader sxs offset .start
      readRows sxs (offset + FITS_CHUNK_LENGTH) m

end XWebQL.SxsReader
