import XWebQL.SxsReader
import Mathlib.Data.List.DropRight

/-! What `scan_table_header` makes of any lines at all: which of them it can
read, and what the last line of a kind leaves behind. -/

namespace XWebQL.SxsLines

open AsciiText SxsReader

section Strings

def word (hdr : List UInt8) : List UInt8 := (hdr.tail.dropWhile isSpace).takeWhile inWord

/-- The value begins with a quote, its first word is not empty and goes into 80 bytes together with
the zero after it, and somewhere in the file a zero byte ends the string. -/
structure Quoted (hdr : List UInt8) : Prop where
  quoted : hdr.head? = some quote
  written : word hdr ≠ []
  ends : 0 ∈ hdr
  fits : (word hdr).length < FITS_LINE_LENGTH

def stringValue (hdr : List UInt8) : List UInt8 :=
  if (word hdr).getLast? = some quote then (word hdr).dropLast else word hdr

variable {hdr : List UInt8}

theorem hdrGetStringValue_eq_some_iff {string : List UInt8} :
    hdrGetStringValue hdr = some string ↔ Quoted hdr ∧ stringValue hdr = string := by
  cases hdr with
  | nil => exact ⟨nofun, fun h => absurd h.1.quoted nofun⟩
  | cons c rest =>
    have hvalue : stringValue (c :: rest) = string ↔
        (if (word (c :: rest)).getLast? = some quote then some (word (c :: rest)).dropLast
          else some (word (c :: rest))) = some string := by
      rw [← apply_ite some, Option.some.injEq, stringValue]
    rw [hvalue]
    by_cases hopen : 0 ∉ c :: rest ∨ c ≠ quote
    · rw [hdrGetStringValue, if_pos hopen]
      refine ⟨nofun, fun h => absurd hopen (not_or.mpr ?_)⟩
      exact ⟨not_not.mpr h.1.ends, not_not.mpr (Option.some.inj h.1.quoted)⟩
    · rw [hdrGetStringValue, if_neg hopen]
      rw [not_or, not_not, not_not] at hopen
      change (if word (c :: rest) = [] ∨ FITS_LINE_LENGTH ≤ (word (c :: rest)).length then none
        else _) = some string ↔ _
      by_cases hword : word (c :: rest) = [] ∨ FITS_LINE_LENGTH ≤ (word (c :: rest)).length
      · rw [if_pos hword]
        exact ⟨nofun, fun h => absurd hword (not_or.mpr ⟨h.1.written, not_le.mpr h.1.fits⟩)⟩
      · rw [if_neg hword]
        rw [not_or, not_le] at hword
        exact (and_iff_right ⟨congrArg some hopen.2, hword.1, hopen.1, hword.2⟩).symm

theorem hdrGetStringValue_isSome_iff : (hdrGetStringValue hdr).isSome ↔ Quoted hdr := by
  rw [Option.isSome_iff_exists]
  simp [hdrGetStringValue_eq_some_iff]

theorem Quoted.hdrGetStringValue_eq (h : Quoted hdr) :
    hdrGetStringValue hdr = some (stringValue hdr) :=
  hdrGetStringValue_eq_some_iff.mpr ⟨h, rfl⟩

end Strings

def keywords : List String := ["NAXIS1  = ", "NAXIS2  = ", "TFIELDS = ", "TTYPE", "TFORM"]

def columnOf (line : List UInt8) : Option ℤ := (sscanfIndex (line.drop 5)).join

/-- Nothing outside of the file and of the string is used to read the line, and its numbers are of
type `int`. -/
@[mk_iff] structure Readable (line : List UInt8) : Prop where
  axes : ∀ keyword ∈ ["NAXIS1  = ", "NAXIS2  = ", "TFIELDS = "], startsWith line keyword = true →
    (hdrGetIntValue (line.drop 10)).isSome
  columns : ∀ keyword ∈ ["TTYPE", "TFORM"], startsWith line keyword = true →
    (sscanfIndex (line.drop 5)).isSome
  strings : ∀ keyword ∈ ["TTYPE", "TFORM"], startsWith line keyword = true →
    (columnOf line).isSome → Quoted (line.drop 10)
  sizes : startsWith line "TFORM" = true → (columnOf line).isSome →
    (getTypeSize (stringValue (line.drop 10))).isSome

def numberOf (keyword : String) (line : List UInt8) : Option ℤ :=
  if startsWith line keyword then hdrGetIntValue (line.drop 10) else none

def namedColumn (name : String) (line : List UInt8) : Option ℤ :=
  if startsWith line "TTYPE" ∧ stringValue (line.drop 10) = ascii name then columnOf line else none

def givenSize (c : ℕ) (line : List UInt8) : Option ℤ :=
  if startsWith line "TFORM" ∧ columnOf line = some (c + 1 : ℤ) then
    getTypeSize (stringValue (line.drop 10))
  else none

def last (f : List UInt8 → Option ℤ) (lines : List (List UInt8)) : Option ℤ :=
  (lines.filterMap f).getLast?

def axis (keyword : String) (lines : List (List UInt8)) : ℤ :=
  (last (numberOf keyword) lines).getD 0

def position (name : String) (lines : List (List UInt8)) : ℤ :=
  (last (namedColumn name) lines).getD 0

/-- The sizes before the last `TFIELDS` are forgotten with the array that held them. -/
def columnSize (lines : List (List UInt8)) (c : ℕ) : Option ℤ :=
  last (givenSize c) (lines.rtakeWhile fun line => !startsWith line "TFIELDS = ")

section Last

variable {lines : List (List UInt8)} {line : List UInt8}

theorem last_concat (f : List UInt8 → Option ℤ) :
    last f (lines ++ [line]) = (f line).or (last f lines) := by
  rw [last, List.filterMap_append, List.filterMap_cons, List.filterMap_nil]
  cases f line with
  | none => simp [last]
  | some v => simp

theorem axis_concat (keyword : String) :
    axis keyword (lines ++ [line]) = (numberOf keyword line).getD (axis keyword lines) := by
  rw [axis, last_concat, axis]
  cases numberOf keyword line <;> rfl

theorem position_concat (name : String) :
    position name (lines ++ [line]) = (namedColumn name line).getD (position name lines) := by
  rw [position, last_concat, position]
  cases namedColumn name line <;> rfl

theorem columnSize_concat_tfields (h : startsWith line "TFIELDS = " = true) (c : ℕ) :
    columnSize (lines ++ [line]) c = none := by
  rw [columnSize, List.rtakeWhile_concat, h]
  rfl

theorem columnSize_concat (h : startsWith line "TFIELDS = " = false) (c : ℕ) :
    columnSize (lines ++ [line]) c = (givenSize c line).or (columnSize lines c) := by
  rw [columnSize, List.rtakeWhile_concat, h, columnSize]
  exact last_concat _

theorem exists_of_last {f : List UInt8 → Option ℤ} {v : ℤ} (h : last f lines = some v) :
    ∃ line, f line = some v := by
  obtain ⟨line, -, hline⟩ := List.mem_filterMap.mp (List.mem_of_getLast? h)
  exact ⟨line, hline⟩

theorem axis_le (keyword : String) (lines : List (List UInt8)) :
    axis keyword lines ≤ 2147483647 := by
  rw [axis]
  cases hlast : last (numberOf keyword) lines with
  | none => exact Int.le_of_lt_add_one (by norm_num)
  | some v =>
    obtain ⟨line, hline⟩ := exists_of_last hlast
    rw [numberOf] at hline
    split at hline
    · obtain ⟨w, -, hw⟩ := Option.bind_eq_some_iff.mp hline
      exact (le_of_int hw).2
    · cases hline

def Nonneg (size : Option ℤ) : Prop := ∀ v ∈ size, 0 ≤ v

theorem nonneg_some {v : ℤ} (h : 0 ≤ v) : Nonneg (some v) := fun _ hv => Option.some.inj hv ▸ h

theorem nonneg_int {v : ℤ} (h : 0 ≤ v) : Nonneg (int v) := fun _ hv => (le_of_int hv).1 ▸ h

theorem nonneg_bind {α : Type} (a : Option α) {g : α → Option ℤ} (h : ∀ b, Nonneg (g b)) :
    Nonneg (a.bind g) := fun v hv =>
  let ⟨b, _, hb⟩ := Option.bind_eq_some_iff.mp hv
  h b v hb

theorem nonneg_ite (p : Prop) [Decidable p] {a b : Option ℤ} (ha : Nonneg a) (hb : Nonneg b) :
    Nonneg (if p then a else b) := by
  split
  · exact ha
  · exact hb

theorem getTypeSize_nonneg (type : List UInt8) : Nonneg (getTypeSize type) := by
  rw [getTypeSize]
  split
  · exact nonneg_some le_rfl
  · refine nonneg_bind _ fun num => ?_
    have hone := le_max_left 1 num
    have hbits : Nonneg ((int (num + 7)).bind fun bits => some (max 1 (bits.tdiv 8))) :=
      nonneg_bind _ fun bits => nonneg_some (by omega)
    refine nonneg_ite _ (nonneg_some (by omega)) (nonneg_ite _ hbits ?_)
    refine nonneg_ite _ (nonneg_some (by omega)) ?_
    refine nonneg_ite _ (nonneg_int (by omega)) (nonneg_ite _ (nonneg_int (by omega)) ?_)
    refine nonneg_ite _ (nonneg_int (by omega)) (nonneg_ite _ (nonneg_some (by omega)) ?_)
    refine nonneg_ite _ (nonneg_int (by omega)) (nonneg_ite _ (nonneg_int (by omega)) ?_)
    refine nonneg_ite _ (nonneg_int (by omega)) (nonneg_ite _ (nonneg_int (by omega)) ?_)
    exact nonneg_some le_rfl

theorem columnSize_nonneg {c : ℕ} {size : ℤ} (h : columnSize lines c = some size) : 0 ≤ size := by
  obtain ⟨line, hline⟩ := exists_of_last h
  rw [givenSize] at hline
  split at hline
  · exact getTypeSize_nonneg _ size hline
  · cases hline

end Last

structure Scanned (lines : List (List UInt8)) (m : Meta) : Prop where
  naxis1 : m.naxis1 = axis "NAXIS1  = " lines
  naxis2 : m.naxis2 = axis "NAXIS2  = " lines
  tfields : m.tfields = axis "TFIELDS = " lines
  posx : m.posx = position "X" lines
  posy : m.posy = position "Y" lines
  pospi : m.pospi = position "PI" lines
  columns : m.columns.getD [] = (List.range m.tfields.toNat).map (columnSize lines)

theorem scanned_start : Scanned [] .start := ⟨rfl, rfl, rfl, rfl, rfl, rfl, rfl⟩

section Line

variable {lines : List (List UInt8)} {line : List UInt8} {m m' : Meta}

theorem startsWith_other {keyword other : String} (hkeyword : keyword ∈ keywords)
    (hother : other ∈ keywords) (hne : other ≠ keyword) (h : startsWith line keyword = true) :
    startsWith line other = false := by
  have hapart : ∀ k ∈ keywords, ∀ k' ∈ keywords, k' ≠ k →
      ¬ ascii k <+: ascii k' ∧ ¬ ascii k' <+: ascii k := by decide
  obtain ⟨h₁, h₂⟩ := hapart keyword hkeyword other hother hne
  rw [Bool.eq_false_iff]
  intro h'
  exact (List.prefix_or_prefix_of_prefix (List.isPrefixOf_iff_prefix.mp h)
    (List.isPrefixOf_iff_prefix.mp h')).elim h₁ h₂

theorem kind_of_startsWith {keyword : String} (hkeyword : keyword ∈ keywords)
    (h : startsWith line keyword = true) :
    keywords.map (startsWith line) = keywords.map (· == keyword) := by
  refine List.map_congr_left fun other hother => ?_
  by_cases hne : other = keyword
  · rw [hne, h, beq_self_eq_true]
  · rw [startsWith_other hkeyword hother hne h, beq_eq_false_iff_ne.mpr hne]

theorem scanLine_none (h : ∀ keyword ∈ keywords, startsWith line keyword = false) :
    scanLine line m = some m := by
  simp only [keywords, List.forall_mem_cons] at h
  simp [scanLine, h]

theorem scanLine_naxis1 (h : startsWith line "NAXIS1  = " = true) :
    scanLine line m = (hdrGetIntValue (line.drop 10)).map fun v => { m with naxis1 := v } := by
  have hkind := kind_of_startsWith (by decide) h
  simp only [keywords, List.map, List.cons.injEq, String.reduceBEq] at hkind
  simp [scanLine, hkind, Option.map_eq_bind]

theorem scanLine_naxis2 (h : startsWith line "NAXIS2  = " = true) :
    scanLine line m = (hdrGetIntValue (line.drop 10)).map fun v => { m with naxis2 := v } := by
  have hkind := kind_of_startsWith (by decide) h
  simp only [keywords, List.map, List.cons.injEq, String.reduceBEq] at hkind
  simp [scanLine, hkind, Option.map_eq_bind]

theorem scanLine_tfields (h : startsWith line "TFIELDS = " = true) :
    scanLine line m = (hdrGetIntValue (line.drop 10)).map fun v => m.setTfields v := by
  have hkind := kind_of_startsWith (by decide) h
  simp only [keywords, List.map, List.cons.injEq, String.reduceBEq] at hkind
  simp [scanLine, hkind, Option.map_eq_bind]

theorem scanLine_ttype (h : startsWith line "TTYPE" = true) :
    scanLine line m = (sscanfIndex (line.drop 5)).bind fun status =>
      match status with
      | none => some m
      | some index => (hdrGetStringValue (line.drop 10)).map fun name => m.setName index name := by
  have hkind := kind_of_startsWith (by decide) h
  simp only [keywords, List.map, List.cons.injEq, String.reduceBEq] at hkind
  rcases hstatus : sscanfIndex (line.drop 5) with - | - | index
  · simp [scanLine, hkind, hstatus]
  · simp [scanLine, hkind, hstatus]
  · simp [scanLine, hkind, hstatus, Option.map_eq_bind]

theorem scanLine_tform (h : startsWith line "TFORM" = true) :
    scanLine line m = (sscanfIndex (line.drop 5)).bind fun status =>
      match status with
      | none => some m
      | some index => (hdrGetStringValue (line.drop 10)).bind fun type =>
        (getTypeSize type).map fun size => m.setSize index size := by
  have hkind := kind_of_startsWith (by decide) h
  simp only [keywords, List.map, List.cons.injEq, String.reduceBEq] at hkind
  rcases hstatus : sscanfIndex (line.drop 5) with - | - | index
  · simp [scanLine, hkind, hstatus]
  · simp [scanLine, hkind, hstatus]
  · simp [scanLine, hkind, hstatus, Option.map_eq_bind]

theorem scanLine_isSome_iff : (scanLine line m).isSome ↔ Readable line := by
  by_cases hnone : ∀ keyword ∈ keywords, startsWith line keyword = false
  · rw [scanLine_none hnone]
    simp only [keywords, List.forall_mem_cons] at hnone
    simp [readable_iff, hnone]
  · simp only [not_forall, Bool.not_eq_false] at hnone
    obtain ⟨keyword, hmem, h⟩ := hnone
    have hkind := kind_of_startsWith hmem h
    simp only [keywords, List.mem_cons, List.not_mem_nil, or_false] at hmem
    simp only [keywords, List.map, List.cons.injEq] at hkind
    rcases hmem with rfl | rfl | rfl | rfl | rfl
    · rw [scanLine_naxis1 h]
      simp [readable_iff, hkind]
    · rw [scanLine_naxis2 h]
      simp [readable_iff, hkind]
    · rw [scanLine_tfields h]
      simp [readable_iff, hkind]
    · rw [scanLine_ttype h]
      rcases hstatus : sscanfIndex (line.drop 5) with - | - | index
      · simp [readable_iff, hkind, hstatus, columnOf]
      · simp [readable_iff, hkind, hstatus, columnOf]
      · simp [readable_iff, hkind, hstatus, columnOf, hdrGetStringValue_isSome_iff]
    · rw [scanLine_tform h]
      rcases hstatus : sscanfIndex (line.drop 5) with - | - | index
      · simp [readable_iff, hkind, hstatus, columnOf]
      · simp [readable_iff, hkind, hstatus, columnOf]
      · by_cases hquoted : Quoted (line.drop 10)
        · simp [readable_iff, hkind, hstatus, columnOf, hquoted, hquoted.hdrGetStringValue_eq]
        · have hstring : hdrGetStringValue (line.drop 10) = none := by
            rw [← Option.not_isSome_iff_eq_none, hdrGetStringValue_isSome_iff]
            exact hquoted
          simp [readable_iff, hkind, hstatus, columnOf, hquoted, hstring]

variable (lines) in
theorem columnSize_frame (htfields : startsWith line "TFIELDS = " = false)
    (htform : startsWith line "TFORM" = false) :
    columnSize (lines ++ [line]) = columnSize lines := by
  funext c
  rw [columnSize_concat htfields, givenSize, htform]
  simp

theorem columns_setSize {index size : ℤ} (h : Scanned lines m)
    (htfields : startsWith line "TFIELDS = " = false)
    (hgiven : ∀ c : ℕ, givenSize c line = if index = c + 1 then some size else none) :
    (m.setSize index size).columns.getD [] =
      (List.range m.tfields.toNat).map (columnSize (lines ++ [line])) := by
  have hsize : ∀ c, columnSize (lines ++ [line]) c =
      if index = c + 1 then some size else columnSize lines c := by
    intro c
    rw [columnSize_concat htfields, hgiven]
    split <;> rfl
  unfold Meta.setSize
  split
  · rename_i hin
    have hset : (m.columns.map fun l => l.set (index.toNat - 1) (some size)).getD [] =
        (m.columns.getD []).set (index.toNat - 1) (some size) := by
      cases m.columns <;> rfl
    refine hset.trans (List.ext_getElem? fun c => ?_)
    rw [h.columns, List.getElem?_set, List.getElem?_map, List.getElem?_map, List.length_map,
      List.length_range]
    by_cases hc : c < m.tfields.toNat
    · rw [List.getElem?_range hc, Option.map_some, Option.map_some, hsize]
      split_ifs <;> first | rfl | omega
    · rw [List.getElem?_eq_none (by rw [List.length_range]; omega), if_neg (by omega)]
      rfl
  · rename_i hout
    rw [h.columns]
    refine List.map_congr_left fun c hc => ?_
    have hc := List.mem_range.mp hc
    rw [hsize, if_neg (by omega)]

theorem Scanned.of_axes (h : Scanned lines m) (htfields : startsWith line "TFIELDS = " = false)
    (httype : startsWith line "TTYPE" = false) (htform : startsWith line "TFORM" = false)
    {v w : ℤ} (hv : (numberOf "NAXIS1  = " line).getD m.naxis1 = v)
    (hw : (numberOf "NAXIS2  = " line).getD m.naxis2 = w) :
    Scanned (lines ++ [line]) { m with naxis1 := v, naxis2 := w } where
  naxis1 := by rw [axis_concat, ← h.naxis1, hv]
  naxis2 := by rw [axis_concat, ← h.naxis2, hw]
  tfields := by simp [axis_concat, numberOf, htfields, h.tfields]
  posx := by simp [position_concat, namedColumn, httype, h.posx]
  posy := by simp [position_concat, namedColumn, httype, h.posy]
  pospi := by simp [position_concat, namedColumn, httype, h.pospi]
  columns := by rw [columnSize_frame lines htfields htform, h.columns]

theorem Scanned.of_none (h : Scanned lines m)
    (hnone : ∀ keyword ∈ keywords, startsWith line keyword = false) :
    Scanned (lines ++ [line]) m := by
  simp only [keywords, List.forall_mem_cons] at hnone
  obtain ⟨hnaxis1, hnaxis2, htfields, httype, htform, -⟩ := hnone
  exact h.of_axes htfields httype htform (by simp [numberOf, hnaxis1]) (by simp [numberOf, hnaxis2])

theorem Scanned.of_naxis1 (h : Scanned lines m) (hstarts : startsWith line "NAXIS1  = " = true)
    (hline : scanLine line m = some m') : Scanned (lines ++ [line]) m' := by
  have hkind := kind_of_startsWith (by decide) hstarts
  simp only [keywords, List.map, List.cons.injEq, String.reduceBEq, and_true] at hkind
  obtain ⟨hnaxis1, hnaxis2, htfields, httype, htform⟩ := hkind
  rw [scanLine_naxis1 hstarts] at hline
  obtain ⟨v, hv, rfl⟩ := Option.map_eq_some_iff.mp hline
  exact h.of_axes htfields httype htform (by simp [numberOf, hnaxis1, hv])
    (by simp [numberOf, hnaxis2])

theorem Scanned.of_naxis2 (h : Scanned lines m) (hstarts : startsWith line "NAXIS2  = " = true)
    (hline : scanLine line m = some m') : Scanned (lines ++ [line]) m' := by
  have hkind := kind_of_startsWith (by decide) hstarts
  simp only [keywords, List.map, List.cons.injEq, String.reduceBEq, and_true] at hkind
  obtain ⟨hnaxis1, hnaxis2, htfields, httype, htform⟩ := hkind
  rw [scanLine_naxis2 hstarts] at hline
  obtain ⟨v, hv, rfl⟩ := Option.map_eq_some_iff.mp hline
  exact h.of_axes htfields httype htform (by simp [numberOf, hnaxis1])
    (by simp [numberOf, hnaxis2, hv])

theorem Scanned.of_tfields (h : Scanned lines m) (hstarts : startsWith line "TFIELDS = " = true)
    (hline : scanLine line m = some m') : Scanned (lines ++ [line]) m' := by
  have hkind := kind_of_startsWith (by decide) hstarts
  simp only [keywords, List.map, List.cons.injEq, String.reduceBEq, and_true] at hkind
  obtain ⟨hnaxis1, hnaxis2, htfields, httype, htform⟩ := hkind
  rw [scanLine_tfields hstarts] at hline
  obtain ⟨v, hv, rfl⟩ := Option.map_eq_some_iff.mp hline
  have hcolumns : columnSize (lines ++ [line]) = fun _ => none :=
    funext (columnSize_concat_tfields htfields)
  have hnew : (m.setTfields v).columns.getD [] = List.replicate v.toNat none := by
    unfold Meta.setTfields
    split
    · rename_i hneg
      rw [Int.toNat_of_nonpos hneg.le]
      rfl
    · rfl
  constructor
  case columns =>
    rw [hnew, hcolumns, List.map_const', List.length_range]
    rfl
  all_goals simp [Meta.setTfields, axis_concat, position_concat, numberOf, namedColumn, hnaxis1,
    hnaxis2, htfields, httype, hv, h.naxis1, h.naxis2, h.posx, h.posy, h.pospi]

theorem Scanned.of_ttype (h : Scanned lines m) (hstarts : startsWith line "TTYPE" = true)
    (hline : scanLine line m = some m') : Scanned (lines ++ [line]) m' := by
  have hkind := kind_of_startsWith (by decide) hstarts
  simp only [keywords, List.map, List.cons.injEq, String.reduceBEq, and_true] at hkind
  obtain ⟨hnaxis1, hnaxis2, htfields, httype, htform⟩ := hkind
  have hcolumns := columnSize_frame lines htfields htform
  rw [scanLine_ttype hstarts] at hline
  obtain ⟨status, hstatus, hline⟩ := Option.bind_eq_some_iff.mp hline
  have hcolumn : columnOf line = status := by rw [columnOf, hstatus]; rfl
  cases status with
  | none =>
    cases hline
    constructor <;> simp [axis_concat, position_concat, numberOf, namedColumn, hnaxis1, hnaxis2,
      htfields, hcolumn, hcolumns, h.naxis1, h.naxis2, h.tfields, h.posx, h.posy, h.pospi,
      h.columns]
  | some index =>
    obtain ⟨name, hname, rfl⟩ := Option.map_eq_some_iff.mp hline
    have hstring := (hdrGetStringValue_eq_some_iff.mp hname).2
    have hnamed : ∀ n : String,
        namedColumn n line = if name = ascii n then some index else none := by
      intro n
      rw [namedColumn, hstring, hcolumn]
      simp only [httype, true_and]
    have hposition : ∀ n : String, position n (lines ++ [line]) =
        if name = ascii n then index else position n lines := by
      intro n
      rw [position_concat, hnamed]
      split <;> rfl
    have hsame := setName_others m index name
    constructor
    case columns =>
      rw [hsame, hcolumns]
      exact h.columns
    case posx => rw [setName_posx, hposition, h.posx]
    case posy => rw [setName_posy, hposition, h.posy]
    case pospi => rw [setName_pospi, hposition, h.pospi]
    all_goals
      rw [hsame]
      simp [axis_concat, numberOf, hnaxis1, hnaxis2, htfields, h.naxis1, h.naxis2, h.tfields]

theorem Scanned.of_tform (h : Scanned lines m) (hstarts : startsWith line "TFORM" = true)
    (hline : scanLine line m = some m') : Scanned (lines ++ [line]) m' := by
  have hkind := kind_of_startsWith (by decide) hstarts
  simp only [keywords, List.map, List.cons.injEq, String.reduceBEq, and_true] at hkind
  obtain ⟨hnaxis1, hnaxis2, htfields, httype, htform⟩ := hkind
  rw [scanLine_tform hstarts] at hline
  obtain ⟨status, hstatus, hline⟩ := Option.bind_eq_some_iff.mp hline
  have hcolumn : columnOf line = status := by rw [columnOf, hstatus]; rfl
  cases status with
  | none =>
    cases hline
    have hcolumns : columnSize (lines ++ [line]) = columnSize lines := by
      funext c
      simp [columnSize_concat htfields, givenSize, hcolumn]
    constructor <;> simp [axis_concat, position_concat, numberOf, namedColumn, hnaxis1, hnaxis2,
      htfields, httype, hcolumns, h.naxis1, h.naxis2, h.tfields, h.posx, h.posy, h.pospi,
      h.columns]
  | some index =>
    obtain ⟨type, htype, hline⟩ := Option.bind_eq_some_iff.mp hline
    obtain ⟨size, hsize, rfl⟩ := Option.map_eq_some_iff.mp hline
    have hstring := (hdrGetStringValue_eq_some_iff.mp htype).2
    have hgiven : ∀ c : ℕ, givenSize c line = if index = c + 1 then some size else none := by
      intro c
      rw [givenSize, hcolumn, hstring, hsize]
      simp [htform]
    have hcolumns := columns_setSize h htfields hgiven
    rw [setSize_others]
    constructor
    case columns => exact hcolumns
    all_goals simp [axis_concat, position_concat, numberOf, namedColumn, hnaxis1, hnaxis2,
      htfields, httype, h.naxis1, h.naxis2, h.tfields, h.posx, h.posy, h.pospi]

theorem Scanned.scanLine (h : Scanned lines m) (hline : scanLine line m = some m') :
    Scanned (lines ++ [line]) m' := by
  by_cases hnone : ∀ keyword ∈ keywords, startsWith line keyword = false
  · rw [scanLine_none hnone] at hline
    exact Option.some.inj hline ▸ h.of_none hnone
  · simp only [not_forall, Bool.not_eq_false] at hnone
    obtain ⟨keyword, hmem, hstarts⟩ := hnone
    simp only [keywords, List.mem_cons, List.not_mem_nil, or_false] at hmem
    rcases hmem with rfl | rfl | rfl | rfl | rfl
    · exact h.of_naxis1 hstarts hline
    · exact h.of_naxis2 hstarts hline
    · exact h.of_tfields hstarts hline
    · exact h.of_ttype hstarts hline
    · exact h.of_tform hstarts hline

end Line

section Header

def scanAll (lines : List (List UInt8)) (m : Meta) : Option Meta :=
  lines.foldlM (fun m line => scanLine line m) m

theorem scanAll_append (lines others : List (List UInt8)) (m : Meta) :
    scanAll (lines ++ others) m = (scanAll lines m).bind (scanAll others) :=
  List.foldlM_append

theorem scanAll_concat (lines : List (List UInt8)) (line : List UInt8) (m : Meta) :
    scanAll (lines ++ [line]) m = (scanAll lines m).bind (scanLine line) := by
  rw [scanAll_append]
  exact congrArg _ (funext fun m => bind_pure (scanLine line m))

theorem scanAll_isSome_iff (lines : List (List UInt8)) (m : Meta) :
    (scanAll lines m).isSome ↔ ∀ line ∈ lines, Readable line := by
  induction lines generalizing m with
  | nil => exact ⟨nofun, fun _ => rfl⟩
  | cons line lines ih =>
    rw [List.forall_mem_cons, ← scanLine_isSome_iff (m := m), scanAll, List.foldlM_cons]
    cases scanLine line m with
    | none => exact ⟨nofun, fun h => absurd h.1 nofun⟩
    | some m' => exact (ih m').trans ⟨fun h => ⟨rfl, h⟩, And.right⟩

theorem scanned_scanAll {lines : List (List UInt8)} {m : Meta}
    (h : scanAll lines .start = some m) : Scanned lines m := by
  induction lines using List.reverseRecOn generalizing m with
  | nil =>
    cases h
    exact scanned_start
  | append_singleton lines line ih =>
    rw [scanAll_concat] at h
    obtain ⟨m', hm', hline⟩ := Option.bind_eq_some_iff.mp h
    exact (ih hm').scanLine hline

/-- The first `n` lines from an address on, each with all that follows it. -/
def linesOf (n : ℕ) (s : List UInt8) : List (List UInt8) :=
  (List.range n).map fun k => s.drop (FITS_LINE_LENGTH * k)

def isEnd (line : List UInt8) : Bool := startsWith line "END       "

/-- The lines of the header whose first block is at `offset`. They are those of whole blocks. -/
def headerLines (sxs : List UInt8) (offset : ℕ) : List (List UInt8) :=
  (linesOf (36 * ((sxs.length - offset) / FITS_CHUNK_LENGTH)) (sxs.drop offset)).takeWhile
    fun line => !isEnd line

/-- The data begin behind the block with the `END` line, or a block behind the last one. -/
def dataStart (sxs : List UInt8) (offset : ℕ) : ℕ :=
  offset + FITS_CHUNK_LENGTH * ((headerLines sxs offset).length / 36 + 1)

@[simp] theorem length_linesOf (n : ℕ) (s : List UInt8) : (linesOf n s).length = n := by
  rw [linesOf, List.length_map, List.length_range]

theorem linesOf_add (n k : ℕ) (s : List UInt8) :
    linesOf (n + k) s = linesOf n s ++ linesOf k (s.drop (FITS_LINE_LENGTH * n)) := by
  rw [linesOf, List.range_add, List.map_append, List.map_map, linesOf, linesOf]
  congr 1
  refine List.map_congr_left fun i _ => ?_
  rw [Function.comp_apply, List.drop_drop, mul_add]

theorem linesOf_succ (n : ℕ) (s : List UInt8) :
    linesOf (n + 1) s = s :: linesOf n (s.drop FITS_LINE_LENGTH) := by
  rw [Nat.add_comm, linesOf_add, Nat.mul_one]
  rfl

theorem scanLines_eq (n : ℕ) (s : List UInt8) (m : Meta) :
    scanLines n s m =
      (scanAll ((linesOf n s).takeWhile fun line => !isEnd line) m).map fun m' =>
        (decide (((linesOf n s).takeWhile fun line => !isEnd line).length < n), m') := by
  induction n generalizing s m with
  | zero => rfl
  | succ n ih =>
    rw [linesOf_succ, scanLines, List.takeWhile_cons]
    cases hend : isEnd s with
    | true =>
      rw [isEnd] at hend
      rw [if_pos hend]
      rfl
    | false =>
      rw [isEnd] at hend
      rw [if_neg (by rw [hend]; nofun)]
      simp only [Bool.not_false, if_true, scanAll, List.foldlM_cons, List.length_cons,
        Nat.add_lt_add_iff_right]
      cases scanLine s m with
      | none => rfl
      | some m' => exact ih _ m'

theorem headerLines_block {sxs : List UInt8} {offset : ℕ}
    (hblock : offset + FITS_CHUNK_LENGTH ≤ sxs.length) :
    headerLines sxs offset =
      if ((linesOf 36 (sxs.drop offset)).takeWhile fun line => !isEnd line).length < 36 then
        (linesOf 36 (sxs.drop offset)).takeWhile fun line => !isEnd line
      else linesOf 36 (sxs.drop offset) ++ headerLines sxs (offset + FITS_CHUNK_LENGTH) := by
  have hcount : 36 * ((sxs.length - offset) / FITS_CHUNK_LENGTH) =
      36 + 36 * ((sxs.length - (offset + FITS_CHUNK_LENGTH)) / FITS_CHUNK_LENGTH) := by
    unfold FITS_CHUNK_LENGTH at *
    omega
  rw [headerLines, hcount, linesOf_add, List.takeWhile_append, List.drop_drop, length_linesOf]
  have hle := (List.takeWhile_sublist (l := linesOf 36 (sxs.drop offset))
    fun line => !isEnd line).length_le
  rw [length_linesOf] at hle
  split_ifs with hall hshort hshort
  · omega
  · rfl
  · rfl
  · omega

theorem headerLines_nil {sxs : List UInt8} {offset : ℕ}
    (hblock : ¬ offset + FITS_CHUNK_LENGTH ≤ sxs.length) : headerLines sxs offset = [] := by
  have hcount : (sxs.length - offset) / FITS_CHUNK_LENGTH = 0 :=
    Nat.div_eq_of_lt (by unfold FITS_CHUNK_LENGTH at *; omega)
  rw [headerLines, hcount]
  rfl

theorem readHeader_eq (sxs : List UInt8) (offset : ℕ) (m : Meta) :
    readHeader sxs offset m =
      (scanAll (headerLines sxs offset) m).map fun m' =>
        (offset + FITS_CHUNK_LENGTH * ((headerLines sxs offset).length / 36), m') := by
  fun_induction readHeader sxs offset m with
  | case1 offset m hblock ih =>
    have hrounds : FITS_CHUNK_LENGTH / FITS_LINE_LENGTH = 36 := rfl
    rw [headerLines_block hblock, scanTableHeader, scanLines_eq, hrounds]
    split_ifs with hend
    · rw [decide_eq_true hend, Nat.div_eq_of_lt hend]
      cases scanAll ((linesOf 36 (sxs.drop offset)).takeWhile fun line => !isEnd line) m <;> rfl
    · have hall : (linesOf 36 (sxs.drop offset)).takeWhile (fun line => !isEnd line) =
          linesOf 36 (sxs.drop offset) := by
        refine (List.takeWhile_sublist _).eq_of_length ?_
        have hle := (List.takeWhile_sublist (l := linesOf 36 (sxs.drop offset))
          fun line => !isEnd line).length_le
        rw [length_linesOf] at hle ⊢
        omega
      rw [decide_eq_false hend, hall, scanAll_append]
      cases scanAll (linesOf 36 (sxs.drop offset)) m with
      | none => rfl
      | some m' =>
        have hnext : 36 + (headerLines sxs (offset + FITS_CHUNK_LENGTH)).length =
            (headerLines sxs (offset + FITS_CHUNK_LENGTH)).length + 36 * 1 := by omega
        rw [List.length_append, length_linesOf, hnext, Nat.add_mul_div_left _ _ (by norm_num),
          mul_add, mul_one, ← add_assoc]
        refine (ih m').trans ?_
        rw [add_right_comm]
        rfl
  | case2 offset m hblock =>
    rw [headerLines_nil hblock]
    rfl

end Header

end XWebQL.SxsLines
