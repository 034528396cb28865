import XWebQL.SxsLines
import XWebQL.ZigTableHeader

/-! What `scan_table_header` of the Zig reader makes of any line at all: which of
them it can read, and what a line does to the variables. -/

namespace XWebQL.ZigLines

open AsciiText ZigReader
open SxsReader (startsWith)
open SxsLines (keywords kind_of_startsWith Nonneg nonneg_some nonneg_int nonneg_bind nonneg_ite)
open ZigTableHeader (EventColumn)

/-- The number and the text of a line about a column; the inner `none` is that the line does
nothing. -/
def columnText (line : List UInt8) : Option (Option (ℤ × List UInt8)) :=
  match indexOf line blank with
  | none => some none
  | some j => do
    let str ← slice line 5 j
    let index ← parseInt32 str
    let value ← hdrGetStringValue line
    some (value.map fun text => (index, text))

@[mk_iff] structure Readable (line : List UInt8) : Prop where
  axes : ∀ keyword ∈ ["NAXIS1  = ", "NAXIS2  = ", "TFIELDS = "], startsWith line keyword = true →
    (hdrGetIntValue line).isSome
  columns : ∀ keyword ∈ ["TTYPE", "TFORM"], startsWith line keyword = true →
    (columnText line).isSome
  sizes : startsWith line "TFORM" = true → ∀ p ∈ (columnText line).join, (getColumnSize p.2).isSome

def numberOf (keyword : String) (line : List UInt8) : Option ℕ :=
  if startsWith line keyword then hdrGetIntValue line else none

def namedColumn (name : String) (line : List UInt8) : Option ℤ :=
  if startsWith line "TTYPE" then
    (columnText line).join.bind fun p => if p.2 = ascii name then some p.1 else none
  else none

def lineSize (line : List UInt8) : Option (ℤ × ℤ) :=
  if startsWith line "TFORM" then
    (columnText line).join.bind fun p => (getColumnSize p.2).map fun size => (p.1, size)
  else none

def givenSize (c : ℕ) (line : List UInt8) : Option ℤ :=
  (lineSize line).bind fun p => if p.1 = c + 1 then some p.2 else none

def Allocated (n : ℕ) (m : XMeta) : Prop := ∃ l, m.columns = some l ∧ l.length = n

def Placed (n : ℕ) (line : List UInt8) : Prop := ∀ p ∈ lineSize line, 0 < p.1 ∧ p.1 ≤ n

section Kinds

variable {line : List UInt8} {m : XMeta}

theorem scanLine_none (h : ∀ keyword ∈ keywords, startsWith line keyword = false) :
    scanLine line m = some m := by
  simp only [keywords, List.forall_mem_cons] at h
  simp [scanLine, h]

theorem scanLine_naxis1 (h : startsWith line "NAXIS1  = " = true) :
    scanLine line m = (hdrGetIntValue line).map fun v => { m with naxis1 := some v } := by
  have hkind := kind_of_startsWith (by decide) h
  simp only [keywords, List.map, List.cons.injEq, String.reduceBEq] at hkind
  simp [scanLine, hkind, Option.map_eq_bind]

theorem scanLine_naxis2 (h : startsWith line "NAXIS2  = " = true) :
    scanLine line m = (hdrGetIntValue line).map fun v => { m with naxis2 := some v } := by
  have hkind := kind_of_startsWith (by decide) h
  simp only [keywords, List.map, List.cons.injEq, String.reduceBEq] at hkind
  simp [scanLine, hkind, Option.map_eq_bind]

theorem scanLine_tfields (h : startsWith line "TFIELDS = " = true) :
    scanLine line m = (hdrGetIntValue line).map m.setTfields := by
  have hkind := kind_of_startsWith (by decide) h
  simp only [keywords, List.map, List.cons.injEq, String.reduceBEq] at hkind
  simp [scanLine, hkind, Option.map_eq_bind]

theorem scanLine_ttype (h : startsWith line "TTYPE" = true) :
    scanLine line m =
      (columnText line).map fun v => v.elim m fun p => m.setName p.1 p.2 := by
  have hkind := kind_of_startsWith (by decide) h
  simp only [keywords, List.map, List.cons.injEq, String.reduceBEq] at hkind
  simp only [scanLine, hkind, Bool.false_eq_true, if_false, if_true, columnText]
  cases indexOf line blank with
  | none => rfl
  | some j =>
    simp only [Option.bind_eq_bind, Option.bind_some]
    cases slice line 5 j with
    | none => rfl
    | some str =>
      simp only [Option.bind_some]
      cases parseInt32 str with
      | none => rfl
      | some index => rcases hdrGetStringValue line with - | - | text <;> rfl

theorem scanLine_tform (h : startsWith line "TFORM" = true) :
    scanLine line m =
      (columnText line).bind fun v => v.elim (some m) fun p =>
        (getColumnSize p.2).bind (m.setSize p.1) := by
  have hkind := kind_of_startsWith (by decide) h
  simp only [keywords, List.map, List.cons.injEq, String.reduceBEq] at hkind
  simp only [scanLine, hkind, Bool.false_eq_true, if_false, if_true, columnText]
  cases indexOf line blank with
  | none => rfl
  | some j =>
    simp only [Option.bind_eq_bind, Option.bind_some]
    cases slice line 5 j with
    | none => rfl
    | some str =>
      simp only [Option.bind_some]
      cases parseInt32 str with
      | none => rfl
      | some index => rcases hdrGetStringValue line with - | - | text <;> rfl

end Kinds

theorem getColumnSize_nonneg (columnType : List UInt8) : Nonneg (getColumnSize columnType) := by
  rw [getColumnSize]
  split
  · intro v h
    cases h
  · rename_i last _
    generalize (parseInt32 columnType.dropLast).getD 0 = num
    have hone := le_max_left 1 num
    have hbits : Nonneg ((SxsReader.int (num + 7)).bind fun bits => some (max 1 (bits / 8))) :=
      nonneg_bind _ fun bits => nonneg_some (by omega)
    refine nonneg_ite _ (nonneg_some (by omega)) (nonneg_ite _ hbits ?_)
    refine nonneg_ite _ (nonneg_some (by omega)) ?_
    refine nonneg_ite _ (nonneg_int (by omega)) (nonneg_ite _ (nonneg_int (by omega)) ?_)
    refine nonneg_ite _ (nonneg_int (by omega)) (nonneg_ite _ (nonneg_some (by omega)) ?_)
    refine nonneg_ite _ (nonneg_int (by omega)) (nonneg_ite _ (nonneg_int (by omega)) ?_)
    refine nonneg_ite _ (nonneg_int (by omega)) (nonneg_ite _ (nonneg_int (by omega)) ?_)
    exact nonneg_some le_rfl

inductive Effect (line : List UInt8) (m : XMeta) : XMeta → Prop
  | other (hnone : ∀ keyword ∈ keywords, startsWith line keyword = false) : Effect line m m
  | naxis1 {v : ℕ} (h : startsWith line "NAXIS1  = " = true) (hv : hdrGetIntValue line = some v) :
    Effect line m { m with naxis1 := some v }
  | naxis2 {v : ℕ} (h : startsWith line "NAXIS2  = " = true) (hv : hdrGetIntValue line = some v) :
    Effect line m { m with naxis2 := some v }
  | tfields {v : ℕ} (h : startsWith line "TFIELDS = " = true) (hv : hdrGetIntValue line = some v) :
    Effect line m (m.setTfields v)
  | skipped {keyword : String} (hkeyword : keyword ∈ ["TTYPE", "TFORM"])
    (h : startsWith line keyword = true) (htext : columnText line = some none) : Effect line m m
  | ttype {p : ℤ × List UInt8} (h : startsWith line "TTYPE" = true)
    (htext : columnText line = some (some p)) : Effect line m (m.setName p.1 p.2)
  | tform {p : ℤ × List UInt8} {size : ℤ} {l : List (Option ℤ)} (h : startsWith line "TFORM" = true)
    (htext : columnText line = some (some p)) (hsize : getColumnSize p.2 = some size)
    (hl : m.columns = some l) (hpos : 0 < p.1) (hle : p.1 ≤ l.length) :
    Effect line m { m with columns := some (l.set (p.1.toNat - 1) (some size)) }

section Effects

variable {line : List UInt8} {m m' : XMeta}

theorem setSize_eq_some_iff {i size : ℤ} :
    m.setSize i size = some m' ↔ ∃ l, m.columns = some l ∧ (0 < i ∧ i ≤ l.length) ∧
      m' = { m with columns := some (l.set (i.toNat - 1) (some size)) } := by
  rw [XMeta.setSize, Option.bind_eq_bind, Option.bind_eq_some_iff]
  refine exists_congr fun l => and_congr_right fun _ => ?_
  rw [Option.ite_none_right_eq_some, Option.some_inj, eq_comm (b := m')]

theorem Effect.of_scanLine (h : scanLine line m = some m') : Effect line m m' := by
  by_cases hnone : ∀ keyword ∈ keywords, startsWith line keyword = false
  · rw [scanLine_none hnone] at h
    exact Option.some.inj h ▸ .other hnone
  · simp only [not_forall, Bool.not_eq_false] at hnone
    obtain ⟨keyword, hmem, hstarts⟩ := hnone
    simp only [keywords, List.mem_cons, List.not_mem_nil, or_false] at hmem
    rcases hmem with rfl | rfl | rfl | rfl | rfl
    · rw [scanLine_naxis1 hstarts] at h
      obtain ⟨v, hv, rfl⟩ := Option.map_eq_some_iff.mp h
      exact .naxis1 hstarts hv
    · rw [scanLine_naxis2 hstarts] at h
      obtain ⟨v, hv, rfl⟩ := Option.map_eq_some_iff.mp h
      exact .naxis2 hstarts hv
    · rw [scanLine_tfields hstarts] at h
      obtain ⟨v, hv, rfl⟩ := Option.map_eq_some_iff.mp h
      exact .tfields hstarts hv
    · rw [scanLine_ttype hstarts] at h
      obtain ⟨v, hv, rfl⟩ := Option.map_eq_some_iff.mp h
      cases v with
      | none => exact .skipped (by simp) hstarts hv
      | some p => exact .ttype hstarts hv
    · rw [scanLine_tform hstarts] at h
      obtain ⟨v, hv, h⟩ := Option.bind_eq_some_iff.mp h
      cases v with
      | none => exact Option.some.inj h ▸ .skipped (by simp) hstarts hv
      | some p =>
        obtain ⟨size, hsize, h⟩ := Option.bind_eq_some_iff.mp h
        obtain ⟨l, hl, ⟨hpos, hle⟩, rfl⟩ := setSize_eq_some_iff.mp h
        exact .tform hstarts hv hsize hl hpos hle

theorem scanLine_isSome_iff : (scanLine line m).isSome ↔
    Readable line ∧ ∀ p ∈ lineSize line, ∃ l, m.columns = some l ∧ 0 < p.1 ∧ p.1 ≤ l.length := by
  by_cases hnone : ∀ keyword ∈ keywords, startsWith line keyword = false
  · rw [scanLine_none hnone]
    simp only [keywords, List.forall_mem_cons] at hnone
    simp [readable_iff, lineSize, hnone]
  · simp only [not_forall, Bool.not_eq_false] at hnone
    obtain ⟨keyword, hmem, h⟩ := hnone
    have hkind := kind_of_startsWith hmem h
    simp only [keywords, List.mem_cons, List.not_mem_nil, or_false] at hmem
    simp only [keywords, List.map, List.cons.injEq] at hkind
    rcases hmem with rfl | rfl | rfl | rfl | rfl
    · rw [scanLine_naxis1 h]
      simp [readable_iff, lineSize, hkind]
    · rw [scanLine_naxis2 h]
      simp [readable_iff, lineSize, hkind]
    · rw [scanLine_tfields h]
      simp [readable_iff, lineSize, hkind]
    · rw [scanLine_ttype h]
      simp [readable_iff, lineSize, hkind]
    · rw [scanLine_tform h]
      rcases htext : columnText line with - | - | p
      · simp [readable_iff, hkind, htext]
      · simp [readable_iff, lineSize, hkind, htext]
      · cases hsize : getColumnSize p.2 with
        | none => simp [readable_iff, hkind, htext, hsize]
        | some size =>
          have hset : (m.setSize p.1 size).isSome ↔
              ∃ l, m.columns = some l ∧ 0 < p.1 ∧ p.1 ≤ l.length := by
            simp [Option.isSome_iff_exists, setSize_eq_some_iff]
          simp [readable_iff, lineSize, hkind, htext, hsize, hset]

structure Kept (line : List UInt8) (m m' : XMeta) : Prop where
  naxis1 : m'.naxis1 = ((numberOf "NAXIS1  = " line).map some).getD m.naxis1
  naxis2 : m'.naxis2 = ((numberOf "NAXIS2  = " line).map some).getD m.naxis2
  index : ∀ column : EventColumn, column.index m' =
    ((namedColumn column.name line).map some).getD (column.index m)

theorem Effect.kept (he : Effect line m m') : Kept line m m' := by
  have hkinds := fun keyword => @kind_of_startsWith line keyword
  simp only [keywords, List.map, List.cons.injEq, and_true] at hkinds
  cases he with
  | other hnone =>
    simp only [keywords, List.forall_mem_cons] at hnone
    constructor <;> simp [numberOf, namedColumn, hnone]
  | naxis1 h hv =>
    have hkind := hkinds _ (by decide) h
    constructor <;> simp [numberOf, namedColumn, hkind, hv]
    rintro ⟨⟩ <;> rfl
  | naxis2 h hv =>
    have hkind := hkinds _ (by decide) h
    constructor <;> simp [numberOf, namedColumn, hkind, hv]
    rintro ⟨⟩ <;> rfl
  | tfields h hv =>
    have hkind := hkinds _ (by decide) h
    constructor <;> simp [numberOf, namedColumn, hkind, XMeta.setTfields]
    rintro ⟨⟩ <;> rfl
  | skipped hkeyword h htext =>
    rcases List.mem_pair.mp hkeyword with rfl | rfl
    · have hkind := hkinds _ (by decide) h
      constructor <;> simp [numberOf, namedColumn, hkind, htext]
    · have hkind := hkinds _ (by decide) h
      constructor <;> simp [numberOf, namedColumn, hkind]
  | @ttype p h htext =>
    have hkind := hkinds _ (by decide) h
    obtain ⟨hnaxis1, hnaxis2, -⟩ := ZigTableHeader.setName_axes m p.1 p.2
    constructor
    · simp [numberOf, hkind, hnaxis1]
    · simp [numberOf, hkind, hnaxis2]
    · intro column
      rw [EventColumn.index_setName, namedColumn, h, if_pos rfl, htext, Option.join_some,
        Option.bind_some]
      split_ifs <;> rfl
  | tform h =>
    have hkind := hkinds _ (by decide) h
    constructor <;> simp [numberOf, namedColumn, hkind]
    rintro ⟨⟩ <;> rfl

variable {n : ℕ}

theorem Effect.columns (he : Effect line m m') (htfields : startsWith line "TFIELDS = " = false) :
    m'.columns = m.columns ∧ lineSize line = none ∨
      ∃ p l, lineSize line = some p ∧ m.columns = some l ∧ 0 < p.1 ∧ p.1 ≤ l.length ∧
        m'.columns = some (l.set (p.1.toNat - 1) (some p.2)) := by
  have hkinds := fun keyword => @kind_of_startsWith line keyword
  simp only [keywords, List.map, List.cons.injEq, and_true] at hkinds
  cases he with
  | other hnone => exact .inl ⟨rfl, by simp [lineSize, hnone "TFORM" (by decide)]⟩
  | naxis1 h | naxis2 h =>
    have hkind := hkinds _ (by decide) h
    exact .inl ⟨rfl, by simp [lineSize, hkind]⟩
  | tfields h =>
    rw [h] at htfields
    cases htfields
  | skipped hkeyword h htext =>
    refine .inl ⟨rfl, ?_⟩
    rw [lineSize, htext]
    exact ite_self none
  | ttype h htext =>
    have hkind := hkinds _ (by decide) h
    exact .inl ⟨ZigHeader.setName_columns _ _ _, by simp [lineSize, hkind]⟩
  | @tform p size l h htext hsize hl hpos hle =>
    refine .inr ⟨(p.1, size), l, ?_, hl, hpos, hle, rfl⟩
    rw [lineSize, h, if_pos rfl, htext, Option.join_some, Option.bind_some, hsize, Option.map_some]

theorem Effect.allocated (he : Effect line m m')
    (htfields : startsWith line "TFIELDS = " = false) (hm : Allocated n m) : Allocated n m' := by
  obtain ⟨l, hl, hlength⟩ := hm
  obtain ⟨hsame, -⟩ | ⟨p, l', -, hl', -, -, hset⟩ := he.columns htfields
  · exact ⟨l, hsame.trans hl, hlength⟩
  · rw [hl, Option.some_inj] at hl'
    exact ⟨_, hset, by rw [List.length_set, ← hl', hlength]⟩

theorem Effect.entry (he : Effect line m m') (htfields : startsWith line "TFIELDS = " = false)
    (c : ℕ) : ZigHeader.entry c m' = ((givenSize c line).map some).getD (ZigHeader.entry c m) := by
  obtain ⟨hsame, hnone⟩ | ⟨p, l, hsize, hl, hpos, hle, hset⟩ := he.columns htfields
  · rw [ZigHeader.entry, hsame, givenSize, hnone]
    rfl
  · rw [ZigHeader.entry, hset, Option.getD_some, givenSize, hsize, Option.bind_some]
    split_ifs with hc
    · have hindex : p.1.toNat - 1 = c := by omega
      rw [hindex, List.getElem?_set_self (by omega)]
      rfl
    · rw [List.getElem?_set_ne (by omega), ZigHeader.entry, hl]
      rfl

end Effects

end XWebQL.ZigLines
