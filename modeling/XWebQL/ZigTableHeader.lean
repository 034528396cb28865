import XWebQL.BinaryTable
import XWebQL.ColumnSizes
import XWebQL.SxsEvents
import XWebQL.ZigHeader

/-! What the header loop of `read_events` makes of any well-formed header.
The number of a column stands before the first blank, which is too late for
three digits, and of every string the character before the closing quote is lost.
The header is read right where neither does any harm. -/

namespace XWebQL.ZigTableHeader

open AsciiText FitsTable BinaryTable ZigReader ZigCards
open ColumnSizes (Measured getColumnSize_eq_width_iff)
open SxsHeader (typedSize typedSize_eq_some_iff)

section Forms

variable {format : Format} {field : StringField} {count : List UInt8} {c : UInt8}

/-- The bytes of one element of the type with this letter, 0 for a letter of no type. -/
def elementWidth (letter : UInt8) : ℕ :=
  (([.L, .X, .B, .I, .J, .K, .A, .E, .C, .D, .M] : List ColumnType).find?
    fun type => type.letter == letter).elim 0 fun type => type.bytes 1

theorem elementWidth_letter (type : ColumnType) : elementWidth type.letter = type.bytes 1 := by
  cases type <;> decide

theorem elementWidth_other (hc : ∀ type : ColumnType, c ≠ type.letter) : elementWidth c = 0 := by
  rw [elementWidth, List.find?_eq_none.mpr]
  · rfl
  · intro type _ heq
    exact hc type (beq_iff_eq.mp heq).symm

def plainForm (format : Format) (type : ColumnType) : Form :=
  ⟨format.digits, type, [], format.all_digits⟩

def Chance (format : Format) (text : List UInt8) : Prop :=
  ∃ c, text.getLast? = some c ∧ format.width = elementWidth c

/-- The text ends with the type of the form, which has a width that is read right. -/
def Shows (format : Format) (text : List UInt8) : Prop :=
  match format.type with
  | .fixed type =>
    if text = format.digits ++ [type.letter] then Measured (plainForm format type)
    else Chance format text
  | .P | .Q => Chance format text

theorem not_letter_of_isDigit (hc : isDigit c = true) (type : ColumnType) : c ≠ type.letter :=
  ne_of_isDigit hc (isDigit_letter type)

theorem getColumnSize_one (hcount : (parseInt32 count).getD 0 = 0) :
    getColumnSize (count ++ [c]) = some (elementWidth c : ℤ) := by
  by_cases hc : ∃ type : ColumnType, c = type.letter
  · obtain ⟨type, rfl⟩ := hc
    rw [getColumnSize_letter, hcount, elementWidth_letter]
    exact (typedSize_eq_some_iff (n := 0) (by decide)).mpr
      ⟨fun _ => by decide, by cases type <;> decide, rfl⟩
  · have hother : ∀ type : ColumnType, c ≠ type.letter := not_exists.mp hc
    rw [getColumnSize_other List.getLast?_concat hother, elementWidth_other hother]
    rfl

theorem chance_concat : Chance format (count ++ [c]) ↔ format.width = elementWidth c := by
  rw [Chance, List.getLast?_concat]
  constructor
  · rintro ⟨d, hd, hwidth⟩
    rwa [Option.some.inj hd]
  · exact fun hwidth => ⟨c, rfl, hwidth⟩

theorem getColumnSize_chance (hcount : (parseInt32 count).getD 0 = 0) :
    getColumnSize (count ++ [c]) = some (format.width : ℤ) ↔ Chance format (count ++ [c]) := by
  rw [getColumnSize_one hcount, chance_concat, Option.some_inj, Nat.cast_inj, eq_comm]

theorem letter_kept (type : FieldType) : isTrimmed type.letter = false ∧
    isDigit type.letter = false ∧ type.letter ≠ quote ∧ type.letter ≠ code '_' ∧
      type.letter ≠ code '+' ∧ type.letter ≠ code '-' := by
  cases type with
  | fixed type => cases type <;> decide
  | P => decide
  | Q => decide

theorem parseInt32_letter (format : Format) (rest : List UInt8) :
    parseInt32 (format.digits ++ format.type.letter :: rest) = none := by
  obtain ⟨-, hdigit, -, hunder, hplus, hminus⟩ := letter_kept format.type
  have hnone : parseDigits (format.digits ++ format.type.letter :: rest) = none :=
    parseDigits_none (List.mem_append_right _ List.mem_cons_self) hunder hdigit
  cases hdigits : format.digits with
  | nil =>
    rw [hdigits] at hnone
    simp only [List.nil_append] at hnone ⊢
    simp only [parseInt32, parseInt, if_neg hplus, if_neg hminus, hnone, Option.bind_eq_bind,
      Option.bind_none]
  | cons d ds =>
    rw [hdigits] at hnone
    have hd := format.all_digits d (hdigits ▸ List.mem_cons_self)
    have hplus : d ≠ code '+' := ne_of_isDigit hd (by decide)
    have hminus : d ≠ code '-' := ne_of_isDigit hd (by decide)
    simp only [List.cons_append] at hnone ⊢
    simp only [parseInt32, parseInt, if_neg hplus, if_neg hminus, hnone, Option.bind_eq_bind,
      Option.bind_none]

theorem dropWhile_kept {first : List UInt8} (hfirst : ∀ c ∈ first, isTrimmed c = false)
    (hc : isTrimmed c = false) (rest : List UInt8) :
    (first ++ c :: rest).dropWhile isTrimmed = first ++ c :: rest := by
  cases first with
  | nil => exact List.dropWhile_cons_of_neg (by simp [hc])
  | cons d first => exact List.dropWhile_cons_of_neg (by simp [hfirst d List.mem_cons_self])

/-- What is kept at the beginning stays, with more behind it or not. -/
theorem trim_kept {first : List UInt8} (hfirst : ∀ c ∈ first, isTrimmed c = false)
    (hc : isTrimmed c = false) (rest : List UInt8) :
    ∃ rest', trim (first ++ c :: rest) = first ++ c :: rest' := by
  induction rest using List.reverseRecOn with
  | nil =>
    refine ⟨[], ?_⟩
    rw [trim_concat_of_kept _ hc, List.dropWhile_eq_self_iff.mpr]
    intro hlength
    simp [hfirst _ (List.getElem_mem hlength)]
  | append_singleton rest d ih =>
    have hsplit : first ++ c :: (rest ++ [d]) = (first ++ c :: rest) ++ [d] := by
      rw [List.append_assoc, List.cons_append]
    rw [hsplit]
    by_cases hd : isTrimmed d = true
    · rw [trim_concat_of_isTrimmed _ hd]
      exact ih
    · refine ⟨rest ++ [d], ?_⟩
      rw [trim_concat_of_kept _ (Bool.not_eq_true _ ▸ hd), dropWhile_kept hfirst hc, hsplit]

theorem digits_kept (format : Format) : ∀ c ∈ format.digits, isTrimmed c = false :=
  fun _ hc => isTrimmed_of_isDigit (format.all_digits _ hc)

theorem seenText_form (hf : field.Says format.text) :
    ∃ rest, seenText field = format.digits ++ format.type.letter :: rest := by
  obtain ⟨pad, htext⟩ := hf.value
  obtain ⟨-, -, hquote, -⟩ := letter_kept format.type
  have hdigits : quote ∉ format.digits := fun hmem =>
    ne_of_isDigit (format.all_digits _ hmem) (by decide) rfl
  have hescape : StringField.escape format.text =
      format.digits ++ format.type.letter :: StringField.escape format.extra := by
    have happend : StringField.escape format.text = StringField.escape format.digits ++
        StringField.escape (format.type.letter :: format.extra) := List.flatMap_append
    have hcons : StringField.escape (format.type.letter :: format.extra) =
        (if format.type.letter = quote then [quote, quote] else [format.type.letter]) ++
          StringField.escape format.extra := List.flatMap_cons
    rw [happend, StringField.escape_of_not_mem hdigits, hcons, if_neg hquote, List.singleton_append]
  have hclean : ∀ c ∈ format.digits, (c != quote) = true := fun c hc =>
    bne_iff_ne.mpr fun heq => hdigits (heq ▸ hc)
  refine ⟨(StringField.escape format.extra ++ List.replicate pad blank).takeWhile (· != quote), ?_⟩
  rw [seenText, htext, hescape, List.append_assoc, List.takeWhile_append_of_pos hclean,
    List.cons_append, List.takeWhile_cons_of_pos (p := (· != quote)) (bne_iff_ne.mpr hquote)]

/-- The type is lost with the last character, or something after it. -/
theorem shownText_cases (hf : field.Says format.text) :
    shownText field = format.digits ∨
      ∃ rest, shownText field = format.digits ++ format.type.letter :: rest := by
  obtain ⟨rest, hseen⟩ := seenText_form hf
  rw [shownText, hseen]
  cases rest using List.reverseRecOn with
  | nil =>
    rw [List.dropLast_concat]
    exact .inl (trim_of_clean (digits_kept format))
  | append_singleton rest d =>
    have hsplit : format.digits ++ format.type.letter :: (rest ++ [d]) =
        (format.digits ++ format.type.letter :: rest) ++ [d] := by
      rw [List.append_assoc, List.cons_append]
    rw [hsplit, List.dropLast_concat]
    exact .inr (trim_kept (digits_kept format) (letter_kept format.type).1 rest)

theorem shows_iff_chance {text : List UInt8}
    (hne : ∀ type, format.type = .fixed type → text ≠ format.digits ++ [type.letter]) :
    Shows format text ↔ Chance format text := by
  rw [Shows]
  split
  · rename_i type htype
    rw [if_neg (hne type htype)]
  · rfl
  · rfl

theorem getColumnSize_digits_iff :
    getColumnSize format.digits = some (format.width : ℤ) ↔ Chance format format.digits := by
  cases hdigits : format.digits using List.reverseRecOn with
  | nil =>
    refine iff_of_false (fun hsize => by cases hsize) ?_
    rintro ⟨c, hlast, -⟩
    cases hlast
  | append_singleton ds d =>
    have hd := format.all_digits d (hdigits ▸ List.mem_append_right _ List.mem_cons_self)
    have hother := not_letter_of_isDigit hd
    rw [getColumnSize_other List.getLast?_concat hother, chance_concat, elementWidth_other hother]
    constructor
    · intro h
      exact_mod_cast (Option.some.inj h).symm
    · intro h
      rw [h]
      rfl

theorem getColumnSize_type_iff :
    getColumnSize (format.digits ++ [format.type.letter]) = some (format.width : ℤ) ↔
      Shows format (format.digits ++ [format.type.letter]) := by
  have hdescriptor : (∀ type : ColumnType, format.type.letter ≠ type.letter) →
      (getColumnSize (format.digits ++ [format.type.letter]) = some (format.width : ℤ) ↔
        Chance format (format.digits ++ [format.type.letter])) := by
    intro hother
    rw [getColumnSize_other List.getLast?_concat hother, chance_concat, elementWidth_other hother,
      Option.some_inj, eq_comm]
    exact Nat.cast_eq_zero
  cases htype : format.type with
  | fixed type =>
    have hwidth : (plainForm format type).width = format.width := by
      rw [Format.width, htype]
      rfl
    have hextra : (plainForm format type).extra = [] := rfl
    have hmeasured := getColumnSize_eq_width_iff hextra
    rw [hwidth] at hmeasured
    simp only [Shows, htype]
    exact hmeasured.trans (if_pos rfl).symm.to_iff
  | P =>
    rw [htype] at hdescriptor
    simp only [Shows, htype]
    exact hdescriptor (by intro type; cases type <;> decide)
  | Q =>
    rw [htype] at hdescriptor
    simp only [Shows, htype]
    exact hdescriptor (by intro type; cases type <;> decide)

theorem getColumnSize_shownText (hf : field.Says format.text) :
    getColumnSize (shownText field) = some (format.width : ℤ) ↔ Shows format (shownText field) := by
  rcases shownText_cases hf with hshown | ⟨rest, hshown⟩
  · rw [hshown, getColumnSize_digits_iff, shows_iff_chance]
    intro type _ heq
    have hlength := congrArg List.length heq
    rw [List.length_append, List.length_singleton] at hlength
    omega
  · rw [hshown]
    cases rest using List.reverseRecOn with
    | nil => exact getColumnSize_type_iff
    | append_singleton rest d =>
      have hsplit : format.digits ++ format.type.letter :: (rest ++ [d]) =
          (format.digits ++ format.type.letter :: rest) ++ [d] := by
        rw [List.append_assoc, List.cons_append]
      have hcount : (parseInt32 (format.digits ++ format.type.letter :: rest)).getD 0 = 0 := by
        rw [parseInt32_letter]
        rfl
      rw [hsplit, getColumnSize_chance hcount, shows_iff_chance]
      intro type _ heq
      have hlength := congrArg List.length heq
      simp only [List.length_append, List.length_cons, List.length_nil] at hlength
      omega

end Forms

theorem hdrGetIntValue_writes {keyword : String} {f : IntField} {n : ℕ}
    (hkeyword : (ascii keyword).length = 10) (hslash : code '/' ∉ ascii keyword)
    (hlength : (ascii keyword ++ f.bytes).length = 80) (hf : Writes f n) :
    hdrGetIntValue (ascii keyword ++ f.bytes) =
      if n < 18446744073709551616 then some n else none := by
  rw [hdrGetIntValue_digits hkeyword hslash hlength hf.written hf.all_digits hf.comment, hf.value]

theorem map_hdrGetIntValue_iff {keyword : String} {f : IntField} {n : ℕ} {α : Type} {use : ℕ → α}
    {a : α} (hkeyword : (ascii keyword).length = 10) (hslash : code '/' ∉ ascii keyword)
    (hlength : (ascii keyword ++ f.bytes).length = 80) (hf : Writes f n) :
    (hdrGetIntValue (ascii keyword ++ f.bytes)).map use = some a ↔
      n < 18446744073709551616 ∧ a = use n := by
  rw [hdrGetIntValue_writes hkeyword hslash hlength hf, Option.map_eq_some_iff]
  constructor
  · rintro ⟨v, hv, rfl⟩
    obtain ⟨hlt, hvalue⟩ := Option.ite_none_right_eq_some.mp hv
    exact ⟨hlt, congrArg use (Option.some.inj hvalue).symm⟩
  · rintro ⟨hlt, rfl⟩
    exact ⟨n, if_pos hlt, rfl⟩

/-- The columns that `scan_table_header` looks for. -/
inductive EventColumn
  | X | Y | PI

namespace EventColumn

def name : EventColumn → String
  | .X => "X"
  | .Y => "Y"
  | .PI => "PI"

/-- `events.ix`, `events.iy` or `events.ipi` -/
def index (m : XMeta) : EventColumn → Option ℤ
  | .X => m.ix
  | .Y => m.iy
  | .PI => m.ipi

theorem index_setName (column : EventColumn) (m : XMeta) (i : ℤ) (text : List UInt8) :
    column.index (m.setName i text) =
      if text = ascii column.name then some i else column.index m := by
  cases column with
  | X => exact ZigHeader.setName_ix m i text
  | Y => exact ZigHeader.setName_iy m i text
  | PI => exact ZigHeader.setName_ipi m i text

end EventColumn

/-- What the header loop should leave behind. -/
structure Right (h : Header) (m : XMeta) : Prop where
  naxis1 : m.naxis1 = some h.rowSize
  naxis2 : m.naxis2 = some h.naxis2
  tfields : m.tfields = some h.fields.length
  index : ∀ (column : EventColumn) (c : ℕ), h.Called c column.name →
    column.index m = some (c + 1 : ℤ)
  columns : ∀ (c : ℕ) (f : Field), h.fields[c]? = some f →
    ZigHeader.entry c m = some (f.format.width : ℤ)

/-- The header, wherever it stands in a file, is read to its end without an error, and right. -/
def Scanned (h : Header) (before rest : List UInt8) : Prop :=
  ∃ m, readHeader (before ++ (h.bytes ++ rest)) before.length .undefined =
    some (before.length + h.bytes.length, m) ∧ Right h m

/-- Numbers that can be read, of two digits for the columns; strings that begin with something
other than a quote; a blank behind each of the three names, and no later name that is one of them
without its last character; forms that show their widths. -/
structure Clear (h : Header) : Prop where
  few : h.fields.length ≤ 99
  rowSize_lt : h.rowSize < 18446744073709551616
  naxis2_lt : h.naxis2 < 18446744073709551616
  texts : ∀ digits field, .ttype digits field ∈ h.cards → seenText field ≠ []
  names : ∀ (column : EventColumn) (first last : List Card) (digits : List UInt8)
    (field : StringField), h.cards = first ++ .ttype digits field :: last →
      h.Called (decimal digits - 1) column.name → Padded field ∧
        ∀ digits' field', .ttype digits' field' ∈ last → shownText field' ≠ ascii column.name
  forms : ∀ (digits : List UInt8) (field : StringField) (f : Field),
    .tform digits field ∈ h.cards → h.fields[decimal digits - 1]? = some f →
      Shows f.format (shownText field)

section Effects

variable {h : Header} {m m' : XMeta} {card : Card}

inductive Effect (h : Header) (m : XMeta) : Card → XMeta → Prop
  | naxis1 {field : IntField} (hlt : h.rowSize < 18446744073709551616) :
    Effect h m (.naxis1 field) { m with naxis1 := some h.rowSize }
  | naxis2 {field : IntField} (hlt : h.naxis2 < 18446744073709551616) :
    Effect h m (.naxis2 field) { m with naxis2 := some h.naxis2 }
  | tfields {field : IntField} : Effect h m (.tfields field) (m.setTfields h.fields.length)
  | ttype {ds : List UInt8} {field : StringField} (hshort : ds.length ≤ 2)
    (hseen : seenText field ≠ []) :
    Effect h m (.ttype ds field) (m.setName (decimal ds) (shownText field))
  | tform {ds : List UInt8} {field : StringField} {size : ℤ} {l : List (Option ℤ)}
    (hshort : ds.length ≤ 2) (hsize : getColumnSize (shownText field) = some size)
    (hl : m.columns = some l) (hle : decimal ds ≤ l.length) :
    Effect h m (.tform ds field)
      { m with columns := some (l.set (decimal ds - 1) (some size)) }
  | other {bytes : List UInt8} : Effect h m (.other bytes) m

theorem setSize_eq_some_iff {ds : List UInt8} (hindex : Index ds) {size : ℤ} :
    m.setSize (decimal ds) size = some m' ↔ ∃ l, m.columns = some l ∧ decimal ds ≤ l.length ∧
      m' = { m with columns := some (l.set (decimal ds - 1) (some size)) } := by
  have hpos := hindex.pos
  rw [XMeta.setSize, Option.bind_eq_bind, Option.bind_eq_some_iff]
  refine exists_congr fun l => and_congr_right fun _ => ?_
  have hrange : ((0 : ℤ) < decimal ds ∧ (decimal ds : ℤ) ≤ l.length) ↔ decimal ds ≤ l.length := by
    omega
  rw [Option.ite_none_right_eq_some, hrange, Int.toNat_natCast, Option.some_inj, eq_comm (b := m')]

theorem length_fields_le (h : Header) : h.fields.length ≤ 999 := by
  by_contra hmany
  obtain ⟨card, hcard, hnumber⟩ := h.form_trailing 999 (by omega)
  have htrue := (h.true_cards card (h.trailing_subset hcard)).1
  cases card with
  | tform ds field =>
    have hindex : Index ds := htrue.1
    have hlt := hindex.decimal_lt
    have heq : decimal ds = 999 + 1 := Option.some.inj hnumber
    omega
  | _ => cases hnumber

theorem scanLine_iff (hcard : card ∈ h.cards) :
    scanLine card.bytes m = some m' ↔ Effect h m card m' := by
  obtain ⟨htrue, hlength⟩ := h.true_cards card hcard
  cases card with
  | naxis1 field =>
    rw [Card.bytes, scanLine_naxis1, map_hdrGetIntValue_iff rfl (by decide) hlength htrue]
    constructor
    · rintro ⟨hlt, rfl⟩
      exact .naxis1 hlt
    · intro he
      cases he with
      | naxis1 hlt => exact ⟨hlt, rfl⟩
  | naxis2 field =>
    rw [Card.bytes, scanLine_naxis2, map_hdrGetIntValue_iff rfl (by decide) hlength htrue]
    constructor
    · rintro ⟨hlt, rfl⟩
      exact .naxis2 hlt
    · intro he
      cases he with
      | naxis2 hlt => exact ⟨hlt, rfl⟩
  | tfields field =>
    have hle := length_fields_le h
    rw [Card.bytes, scanLine_tfields, map_hdrGetIntValue_iff rfl (by decide) hlength htrue]
    constructor
    · rintro ⟨-, rfl⟩
      exact .tfields
    · intro he
      cases he with
      | tfields => exact ⟨by omega, rfl⟩
  | ttype ds field =>
    rw [scanLine_ttype_card htrue.1 hlength, Option.ite_none_right_eq_some, Option.some_inj]
    constructor
    · rintro ⟨⟨hshort, hseen⟩, rfl⟩
      exact .ttype hshort hseen
    · intro he
      cases he with
      | ttype hshort hseen => exact ⟨⟨hshort, hseen⟩, rfl⟩
  | tform ds field =>
    rw [scanLine_tform_card htrue.1 hlength, Option.ite_none_right_eq_some, Option.bind_eq_some_iff]
    constructor
    · rintro ⟨hshort, size, hsize, hset⟩
      obtain ⟨l, hl, hle, rfl⟩ := (setSize_eq_some_iff htrue.1).mp hset
      exact .tform hshort hsize hl hle
    · intro he
      cases he with
      | tform hshort hsize hl hle =>
        exact ⟨hshort, _, hsize, (setSize_eq_some_iff htrue.1).mpr ⟨_, hl, hle, rfl⟩⟩
  | other bytes =>
    rw [Card.bytes, (scanLine_other htrue.1 htrue.2 m).2, Option.some_inj]
    constructor
    · rintro rfl
      exact .other
    · rintro ⟨⟩
      rfl

def naxis1Set (h : Header) : Card → Option (Option ℕ)
  | .naxis1 _ => some (some h.rowSize)
  | _ => none

def naxis2Set (h : Header) : Card → Option (Option ℕ)
  | .naxis2 _ => some (some h.naxis2)
  | _ => none

def tfieldsSet (h : Header) : Card → Option (Option ℕ)
  | .tfields _ => some (some h.fields.length)
  | _ => none

def shownNumber (column : EventColumn) : Card → Option ℕ
  | .ttype ds field => if shownText field = ascii column.name then some (decimal ds) else none
  | _ => none

def indexSet (column : EventColumn) (card : Card) : Option (Option ℤ) :=
  (shownNumber column card).map fun n : ℕ => some (n : ℤ)

/-- The size that a card gives column `c`. -/
def entrySet (c : ℕ) : Card → Option (Option ℤ)
  | .tform ds field => if decimal ds = c + 1 then some (getColumnSize (shownText field)) else none
  | _ => none

def Ready (h : Header) (m : XMeta) : Prop :=
  h.fields ≠ [] → ∃ l, m.columns = some l ∧ l.length = h.fields.length

theorem setName_axes (m : XMeta) (i : ℤ) (text : List UInt8) :
    (m.setName i text).naxis1 = m.naxis1 ∧ (m.setName i text).naxis2 = m.naxis2 ∧
      (m.setName i text).tfields = m.tfields := by
  unfold XMeta.setName
  split_ifs <;> exact ⟨rfl, rfl, rfl⟩

theorem Effect.naxis1_eq (he : Effect h m card m') :
    m'.naxis1 = (naxis1Set h card).getD m.naxis1 := by
  cases he with
  | ttype => exact (setName_axes _ _ _).1
  | _ => rfl

theorem Effect.naxis2_eq (he : Effect h m card m') :
    m'.naxis2 = (naxis2Set h card).getD m.naxis2 := by
  cases he with
  | ttype => exact (setName_axes _ _ _).2.1
  | _ => rfl

theorem Effect.tfields_eq (he : Effect h m card m') :
    m'.tfields = (tfieldsSet h card).getD m.tfields := by
  cases he with
  | ttype => exact (setName_axes _ _ _).2.2
  | _ => rfl

theorem Effect.index_eq (he : Effect h m card m') (column : EventColumn) :
    column.index m' = (indexSet column card).getD (column.index m) := by
  cases he with
  | ttype =>
    rw [EventColumn.index_setName, indexSet, shownNumber]
    split_ifs <;> rfl
  | _ => cases column <;> rfl

theorem Effect.entry_eq (he : Effect h m card m') (hcard : card.isTfields = false) {c : ℕ}
    (htrue : Describes h.toDescription card) :
    ZigHeader.entry c m' = (entrySet c card).getD (ZigHeader.entry c m) := by
  cases he with
  | tfields => cases hcard
  | ttype => rw [ZigHeader.entry, ZigHeader.setName_columns]; rfl
  | tform _ hsize hl hle =>
    have hindex : Index _ := htrue.1
    have hpos := hindex.pos
    simp only [ZigHeader.entry, hl, Option.getD_some, entrySet]
    split_ifs with hdigits
    · rw [hdigits, Nat.add_sub_cancel, List.getElem?_set_self (by omega), hsize]
      rfl
    · rw [List.getElem?_set_ne (by omega)]
      rfl
  | _ => rfl

theorem Effect.ready (he : Effect h m card m') (hready : Ready h m) : Ready h m' := by
  intro hne
  obtain ⟨l, hl, hlength⟩ := hready hne
  cases he with
  | tfields =>
    rw [XMeta.setTfields]
    split_ifs
    · exact ⟨_, rfl, List.length_replicate⟩
    · exact ⟨l, hl, hlength⟩
  | ttype => exact ⟨l, (ZigHeader.setName_columns _ _ _).trans hl, hlength⟩
  | tform _ _ hl' =>
    rw [hl, Option.some_inj] at hl'
    exact ⟨_, rfl, by rw [List.length_set, ← hl', hlength]⟩
  | _ => exact ⟨l, hl, hlength⟩

end Effects

section Final

open OptionFold
open ZigHeader (scanCards entry)

variable {h : Header} {m : XMeta}

theorem exists_effect (hscan : scanCards h.cards .undefined = some m) {card : Card}
    (hcard : card ∈ h.cards) : ∃ u v, Effect h u card v := by
  by_contra hnone
  have hline : ∀ u, scanLine card.bytes u = none := by
    intro u
    refine Option.eq_none_iff_forall_not_mem.mpr fun v hv => hnone ⟨u, v, ?_⟩
    exact (scanLine_iff hcard).mp hv
  rw [scanCards, foldlM_none hcard hline] at hscan
  cases hscan

theorem variable_final {β : Type} {g : XMeta → β} {v : β} (sets : Card → Option β)
    (hscan : scanCards h.cards .undefined = some m)
    (heffect : ∀ u u' card, Effect h u card u' → g u' = (sets card).getD (g u)) {card : Card}
    (hcard : card ∈ h.cards) (hset : sets card = some v)
    (hall : ∀ card w, sets card = some w → w = v) : g m = v := by
  refine foldlM_set sets ?_ hcard hset (fun card _ w hw => hall card w hw) hscan
  intro u u' card hcard hline
  exact heffect u u' card ((scanLine_iff hcard).mp hline)

theorem naxis1_final (hscan : scanCards h.cards .undefined = some m) :
    m.naxis1 = some h.rowSize := by
  obtain ⟨field, hcard⟩ := h.naxis1_card
  have hmem := h.mem_cards hcard
  refine variable_final (naxis1Set h) hscan (fun _ _ _ he => he.naxis1_eq) hmem rfl ?_
  intro card w hw
  cases card with
  | naxis1 => exact (Option.some.inj hw).symm
  | _ => cases hw

theorem naxis2_final (hscan : scanCards h.cards .undefined = some m) :
    m.naxis2 = some h.naxis2 := by
  obtain ⟨field, hcard⟩ := h.naxis2_card
  have hmem := h.mem_cards hcard
  refine variable_final (naxis2Set h) hscan (fun _ _ _ he => he.naxis2_eq) hmem rfl ?_
  intro card w hw
  cases card with
  | naxis2 => exact (Option.some.inj hw).symm
  | _ => cases hw

theorem tfields_final (hscan : scanCards h.cards .undefined = some m) :
    m.tfields = some h.fields.length := by
  refine variable_final (tfieldsSet h) hscan (fun _ _ _ he => he.tfields_eq) h.tfields_mem rfl ?_
  intro card w hw
  cases card with
  | tfields => exact (Option.some.inj hw).symm
  | _ => cases hw

theorem index_final (hscan : scanCards h.cards .undefined = some m) (column : EventColumn) :
    column.index m =
      (h.cards.filterMap (shownNumber column)).getLast?.map fun n : ℕ => (n : ℤ) := by
  have hlast := foldlM_last (g := column.index) (indexSet column)
    (fun u v card hcard hline => ((scanLine_iff hcard).mp hline).index_eq column) hscan
  have hmap : h.cards.filterMap (indexSet column) =
      (h.cards.filterMap (shownNumber column)).map fun n : ℕ => some (n : ℤ) := by
    rw [List.map_filterMap]
    exact List.filterMap_congr fun _ _ => rfl
  rw [hlast, hmap, List.getLast?_map]
  cases (h.cards.filterMap (shownNumber column)).getLast? with
  | none => cases column <;> rfl
  | some n => rfl

theorem entry_final (hscan : scanCards h.cards .undefined = some m) {ds : List UInt8}
    {field : StringField} (hcard : .tform ds field ∈ h.cards) :
    entry (decimal ds - 1) m = getColumnSize (shownText field) := by
  have hmem := h.mem_trailing hcard
  have hindex : Index ds := (h.true_cards _ hcard).1.1
  have hpos := hindex.pos
  have hnumber : decimal ds = decimal ds - 1 + 1 := by omega
  have hsplit : h.cards = (h.leading ++ [.tfields h.tfields]) ++ h.trailing := by
    rw [Header.cards, List.append_assoc, List.singleton_append]
  rw [scanCards, hsplit, List.foldlM_append] at hscan
  obtain ⟨u, -, hrest⟩ := Option.bind_eq_some_iff.mp hscan
  refine foldlM_set (entrySet (decimal ds - 1)) ?_ hmem (if_pos hnumber) ?_ hrest
  · intro u v card hmem hline
    have hcard := h.trailing_subset hmem
    exact ((scanLine_iff hcard).mp hline).entry_eq
      (h.tfields_once card (List.mem_append_right _ hmem)) (h.true_cards card hcard).1
  · intro card hcard' w hw
    cases card with
    | tform ds' field' =>
      obtain ⟨hdigits, hvalue⟩ := Option.ite_none_right_eq_some.mp hw
      have hsame := eq_of_key h.forms_once hmem hcard' rfl
        (congrArg some (hdigits.trans hnumber.symm))
      obtain ⟨rfl, rfl⟩ := Card.tform.inj hsame
      exact (Option.some.inj hvalue).symm
    | _ => cases hw

theorem shownText_name_iff {column : EventColumn} {field : StringField}
    (hf : field.Says (ascii column.name)) :
    shownText field = ascii column.name ↔ Padded field := by
  have hclean : ∀ c ∈ ascii column.name, isTrimmed c = false ∧ c ≠ quote := by
    cases column <;> decide
  have hquote : quote ∉ ascii column.name := fun hmem => (hclean quote hmem).2 rfl
  have htext : quote ∉ field.text := by
    obtain ⟨pad, htext⟩ := hf.value
    rw [htext, StringField.escape_of_not_mem hquote, List.mem_append, not_or]
    exact ⟨hquote, fun hmem => absurd (List.eq_of_mem_replicate hmem) (by decide)⟩
  rw [shownText_eq htext]
  by_cases hpad : Padded field
  · obtain ⟨pad, hvalue⟩ := hf.text htext
    have htrim := trim_blanks (fun c hc => (hclean c hc).1) 0 pad
    rw [List.replicate_zero, List.nil_append, ← hvalue] at htrim
    rw [readText_padded hpad, htrim]
    exact iff_of_true rfl hpad
  · refine iff_of_false ?_ hpad
    rw [readText, text_of_unpadded hf htext hpad]
    cases column <;> decide

theorem called_of_card {ds : List UInt8} {field : StringField} {column : EventColumn}
    (hcard : .ttype ds field ∈ h.cards) (hcalled : h.Called (decimal ds - 1) column.name) :
    field.Says (ascii column.name) := by
  obtain ⟨-, f, value, hf, hname, hvalue⟩ := (h.true_cards _ hcard).1
  obtain ⟨g, hg, hcalled⟩ := hcalled
  rw [hf, Option.some_inj] at hg
  rw [← hg, hname, Option.some_inj] at hcalled
  rwa [← hcalled]

theorem index_eq_iff (hscan : scanCards h.cards .undefined = some m) {column : EventColumn}
    {first last : List Card} {ds : List UInt8} {field : StringField}
    (hsplit : h.cards = first ++ .ttype ds field :: last)
    (hcalled : h.Called (decimal ds - 1) column.name) :
    column.index m = some (decimal ds : ℤ) ↔ Padded field ∧
      ∀ digits' field', .ttype digits' field' ∈ last → shownText field' ≠ ascii column.name := by
  have hcard : .ttype ds field ∈ h.cards := hsplit ▸ List.mem_append_right _ List.mem_cons_self
  have honce := h.names_once
  rw [← Header.cards, hsplit] at honce
  have hkey : ∀ card n, shownNumber column card = some n → nameNumber card = some n := by
    intro card n hn
    cases card with
    | ttype digits field => exact (Option.ite_none_right_eq_some.mp hn).2
    | _ => cases hn
  have hnumber : nameNumber (.ttype ds field) = some (decimal ds) := rfl
  have hlast := getLast?_filterMap_iff hnumber honce hkey
  have hindex : column.index m = some (decimal ds : ℤ) ↔
      (h.cards.filterMap (shownNumber column)).getLast? = some (decimal ds) := by
    rw [index_final hscan, Option.map_eq_some_iff]
    simp
  rw [hindex, hsplit, hlast, ← shownText_name_iff (called_of_card hcard hcalled)]
  refine and_congr ?_ ?_
  · rw [shownNumber, Option.ite_none_right_eq_some]
    simp
  · constructor
    · intro hnone digits' field' hmem hshown
      have hnumber := hnone _ hmem
      rw [shownNumber, if_pos hshown] at hnumber
      cases hnumber
    · intro hother card hmem
      cases card with
      | ttype digits' field' => exact if_neg (hother digits' field' hmem)
      | _ => rfl

end Final

section Runs

open OptionFold
open ZigHeader (scanCards entry Inner readHeader_cards)

variable {h : Header}

theorem inner_cards (h : Header) : Inner h.cards := by
  intro card hcard
  obtain ⟨htrue, hlength⟩ := h.true_cards card hcard
  refine ⟨hlength, ZigHeader.not_endCard ?_⟩
  rintro bytes rfl
  exact (scanLine_other htrue.1 htrue.2 .undefined).1

theorem readHeader_bytes (h : Header) (before rest : List UInt8) (m : XMeta) :
    readHeader (before ++ (h.bytes ++ rest)) before.length m =
      (scanCards h.cards m).map fun m => (before.length + h.bytes.length, m) := by
  have hdrop : (before ++ (h.bytes ++ rest)).drop before.length =
      h.cards.flatMap Card.bytes ++ (endCard ++ (h.fill ++ rest)) := by
    rw [List.drop_left, Header.bytes, List.append_assoc, List.append_assoc]
  have hbytes := h.length_bytes
  have hread := readHeader_cards (inner_cards h) m hdrop (by
    rw [List.length_append, List.length_append, hbytes]
    omega)
  have hblocks : before.length + 2880 * (h.cards.length / 36) + 2880 =
      before.length + h.bytes.length := by
    rw [hbytes]
    ring
  rw [hread, hblocks]

theorem scanned_iff_scanCards {before rest : List UInt8} :
    Scanned h before rest ↔ ∃ m, scanCards h.cards .undefined = some m ∧ Right h m := by
  unfold Scanned
  refine exists_congr fun m => and_congr_left fun _ => ?_
  rw [readHeader_bytes, Option.map_eq_some_iff]
  constructor
  · rintro ⟨m', hm', heq⟩
    rwa [← (Prod.mk.inj heq).2]
  · exact fun hm => ⟨m, hm, rfl⟩

theorem digits_short {ds : List UInt8} (hfew : h.fields.length ≤ 99) (hindex : Index ds)
    {f : Field} (hf : h.fields[decimal ds - 1]? = some f) : ds.length ≤ 2 := by
  have hlt := (List.getElem?_eq_some_iff.mp hf).1
  exact length_le_two hindex (by omega)

theorem effect_of_clear (hclear : Clear h) {card : Card} (hcard : card ∈ h.cards) {m : XMeta}
    (hready : formNumber card ≠ none → Ready h m) : ∃ m', Effect h m card m' := by
  have htrue := (h.true_cards card hcard).1
  cases card with
  | naxis1 field => exact ⟨_, .naxis1 hclear.rowSize_lt⟩
  | naxis2 field => exact ⟨_, .naxis2 hclear.naxis2_lt⟩
  | tfields field => exact ⟨_, .tfields⟩
  | ttype digits field =>
    obtain ⟨hindex, f, value, hf, -, -⟩ := htrue
    exact ⟨_, .ttype (digits_short hclear.few hindex hf) (hclear.texts digits field hcard)⟩
  | tform digits field =>
    obtain ⟨hindex, f, hf, hvalue⟩ := htrue
    have hlt := (List.getElem?_eq_some_iff.mp hf).1
    have hpos := hindex.pos
    have hsize := (getColumnSize_shownText hvalue).mpr (hclear.forms digits field f hcard hf)
    obtain ⟨l, hl, hlength⟩ := hready (Option.some_ne_none _) (List.ne_nil_of_length_pos (by omega))
    exact ⟨_, .tform (digits_short hclear.few hindex hf) hsize hl (by omega)⟩
  | other bytes => exact ⟨_, .other⟩

theorem ready_tfields (h : Header) (m : XMeta) : Ready h (m.setTfields h.fields.length) := by
  intro hne
  rw [XMeta.setTfields, if_pos (List.length_pos_of_ne_nil hne)]
  exact ⟨_, rfl, List.length_replicate⟩

theorem exists_final (hclear : Clear h) : ∃ m, scanCards h.cards .undefined = some m := by
  -- before `TFIELDS` there are no forms, after it the entries stay
  obtain ⟨u, hu, -⟩ : ∃ u, scanCards h.leading .undefined = some u ∧ True := by
    refine foldlM_exists (Q := fun _ => True) ?_ trivial
    intro m card hcard _
    have hmem : card ∈ h.cards := List.mem_append_left _ hcard
    obtain ⟨m', he⟩ := effect_of_clear hclear hmem (m := m) fun hform =>
      absurd (h.form_leading card hcard) hform
    exact ⟨m', (scanLine_iff hmem).mpr he, trivial⟩
  have htfields : scanLine (Card.tfields h.tfields).bytes u = some (u.setTfields h.fields.length) :=
    (scanLine_iff h.tfields_mem).mpr .tfields
  obtain ⟨v, hv, -⟩ :
      ∃ v, scanCards h.trailing (u.setTfields h.fields.length) = some v ∧ Ready h v := by
    refine foldlM_exists ?_ (ready_tfields h u)
    intro m card hcard hready
    have hmem := h.trailing_subset hcard
    obtain ⟨m', he⟩ := effect_of_clear hclear hmem fun _ => hready
    exact ⟨m', (scanLine_iff hmem).mpr he, he.ready hready⟩
  refine ⟨v, ?_⟩
  rw [scanCards] at hu hv ⊢
  rw [Header.cards, List.foldlM_append, hu, Option.bind_eq_bind, Option.bind_some,
    List.foldlM_cons, htfields]
  exact hv

theorem few_of_final {m : XMeta} (hscan : scanCards h.cards .undefined = some m) :
    h.fields.length ≤ 99 := by
  by_contra hmany
  obtain ⟨card, hcard, hnumber⟩ := h.form_trailing 99 (by omega)
  have hmem := h.trailing_subset hcard
  have htrue := (h.true_cards card hmem).1
  obtain ⟨u, v, he⟩ := exists_effect hscan hmem
  cases he with
  | tform hshort =>
    have hdecimal := Option.some.inj hnumber
    have hthree := length_eq_three htrue.1 (by omega)
    omega
  | _ => cases hnumber

theorem clear_of_final {m : XMeta} (hscan : scanCards h.cards .undefined = some m)
    (hright : Right h m) : Clear h where
  few := few_of_final hscan
  rowSize_lt := by
    obtain ⟨field, hcard⟩ := h.naxis1_card
    obtain ⟨u, v, he⟩ := exists_effect hscan (h.mem_cards hcard)
    cases he with
    | naxis1 hlt => exact hlt
  naxis2_lt := by
    obtain ⟨field, hcard⟩ := h.naxis2_card
    obtain ⟨u, v, he⟩ := exists_effect hscan (h.mem_cards hcard)
    cases he with
    | naxis2 hlt => exact hlt
  texts := by
    intro digits field hcard
    obtain ⟨u, v, he⟩ := exists_effect hscan hcard
    cases he with
    | ttype _ hseen => exact hseen
  names := by
    intro column first last digits field hsplit hcalled
    have hcard : .ttype digits field ∈ h.cards :=
      hsplit ▸ List.mem_append_right _ List.mem_cons_self
    have hindex : Index digits := (h.true_cards _ hcard).1.1
    have hpos := hindex.pos
    have hnumber := hright.index column _ hcalled
    rw [← index_eq_iff hscan hsplit hcalled, hnumber]
    congr 1
    omega
  forms := by
    intro digits field f hcard hf
    obtain ⟨-, g, hg, hvalue⟩ := (h.true_cards _ hcard).1
    rw [hf, Option.some_inj] at hg
    rw [← hg] at hvalue
    rw [← getColumnSize_shownText hvalue, ← entry_final hscan hcard]
    exact hright.columns _ f hf

theorem right_of_final (hclear : Clear h) {m : XMeta}
    (hscan : scanCards h.cards .undefined = some m) : Right h m where
  naxis1 := naxis1_final hscan
  naxis2 := naxis2_final hscan
  tfields := tfields_final hscan
  index := by
    intro column c hcalled
    obtain ⟨f, hf, hname⟩ := hcalled
    obtain ⟨card, hcard, hnumber⟩ := h.named c f _ hf hname
    have hmem := h.mem_cards hcard
    obtain ⟨first, last, hsplit⟩ := List.append_of_mem hmem
    cases card with
    | ttype digits field =>
      have hdecimal : decimal digits = c + 1 := Option.some.inj hnumber
      have hcalled : h.Called (decimal digits - 1) column.name := by
        rw [hdecimal]
        exact ⟨f, hf, hname⟩
      rw [(index_eq_iff hscan hsplit hcalled).mpr
        (hclear.names column first last digits field hsplit hcalled), hdecimal]
      push_cast
      rfl
    | _ => cases hnumber
  columns := by
    intro c f hf
    obtain ⟨card, hcard, hnumber⟩ := h.form_trailing c (List.getElem?_eq_some_iff.mp hf).1
    have hmem := h.trailing_subset hcard
    cases card with
    | tform digits field =>
      have hdecimal : decimal digits - 1 = c := by
        rw [Option.some.inj hnumber, Nat.add_sub_cancel]
      obtain ⟨-, g, hg, hvalue⟩ := (h.true_cards _ hmem).1
      rw [hdecimal, hf, Option.some_inj] at hg
      rw [← hg] at hvalue
      rw [← hdecimal] at hf
      rw [← hdecimal, entry_final hscan hmem, getColumnSize_shownText hvalue]
      exact hclear.forms digits field f hmem hf
    | _ => cases hnumber

theorem scanned_iff (h : Header) (before rest : List UInt8) :
    Scanned h before rest ↔ Clear h := by
  rw [scanned_iff_scanCards]
  constructor
  · rintro ⟨m, hscan, hright⟩
    exact clear_of_final hscan hright
  · intro hclear
    obtain ⟨m, hscan⟩ := exists_final hclear
    exact ⟨m, hscan, right_of_final hclear hscan⟩

end Runs

section Narrow

open SxsEvents (textCard fixedString comment_blanks fixedString_says)

def digitCode (k : ℕ) : UInt8 := code '0' + k.toUInt8

def columnDigits (n : ℕ) : List UInt8 :=
  if n < 10 then [digitCode n]
  else if n < 100 then [digitCode (n / 10), digitCode (n % 10)]
  else [digitCode (n / 100), digitCode (n / 10 % 10), digitCode (n % 10)]

theorem digitCode_spec {k : ℕ} (hk : k < 10) : isDigit (digitCode k) = true ∧
    digitValue (digitCode k) = k ∧ (digitCode k = code '0' → k = 0) := by
  revert k
  decide

theorem columnDigits_spec {n : ℕ} (hn : n < 1000) : columnDigits n ≠ [] ∧
    (columnDigits n).length ≤ 3 ∧ (∀ d ∈ columnDigits n, isDigit d = true) ∧
      ((columnDigits n).head? = some (code '0') → n = 0) ∧ decimal (columnDigits n) = n := by
  obtain ⟨hones, hvalue, -⟩ := digitCode_spec (k := n % 10) (by omega)
  rw [columnDigits]
  split_ifs with hone htwo
  · obtain ⟨hdigit, hn, hzero⟩ := digitCode_spec hone
    exact ⟨by simp, by simp, by simp [hdigit], fun h => hzero (by simpa using h),
      by simp [decimal, hn]⟩
  · obtain ⟨hdigit, htens, hzero⟩ := digitCode_spec (k := n / 10) (by omega)
    refine ⟨by simp, by simp, by simp [hdigit, hones], fun h => ?_, ?_⟩
    · have hten := hzero (by simpa using h)
      omega
    · simp only [decimal, List.foldl_cons, List.foldl_nil, htens, hvalue]
      omega
  · obtain ⟨hdigit, hhundreds, hzero⟩ := digitCode_spec (k := n / 100) (by omega)
    obtain ⟨hmiddle, htens, -⟩ := digitCode_spec (k := n / 10 % 10) (by omega)
    refine ⟨by simp, by simp, by simp [hdigit, hmiddle, hones], fun h => ?_, ?_⟩
    · have hhundred := hzero (by simpa using h)
      omega
    · simp only [decimal, List.foldl_cons, List.foldl_nil, hhundreds, htens, hvalue]
      omega

theorem index_columnDigits {c : ℕ} (hc : c < 999) : Index (columnDigits (c + 1)) := by
  obtain ⟨-, hlength, hdigits, hzero, hdecimal⟩ := columnDigits_spec (n := c + 1) (by omega)
  refine ⟨hlength, hdigits, fun hhead => ?_, by omega⟩
  have hnone := hzero hhead
  omega

def countField (n : ℕ) : IntField :=
  ⟨20 - (columnDigits n).length, false, columnDigits n, List.replicate 50 blank⟩

theorem countField_writes {n : ℕ} (hn : n < 1000) : Writes (countField n) n := by
  obtain ⟨hne, -, hdigits, -, hdecimal⟩ := columnDigits_spec hn
  exact ⟨hne, hdigits, hdecimal, comment_blanks 50⟩

theorem length_countField {n : ℕ} (hn : n < 1000) : (countField n).bytes.length = 70 := by
  have hlength := (columnDigits_spec hn).2.1
  simp only [countField, IntField.bytes, List.length_append, List.length_replicate,
    Bool.false_eq_true, if_false, List.length_nil]
  omega

def byteFormat : Format := ⟨[], .fixed .B, [], List.forall_mem_nil _⟩

def byteCard (c : ℕ) : Card := .tform (columnDigits (c + 1)) (fixedString "B")

def narrowTable (n : ℕ) : Description := ⟨List.replicate n ⟨none, byteFormat⟩, 0⟩

def narrowLeading (n : ℕ) : List Card :=
  [.other (tableMark ++ List.replicate 60 blank), textCard "BITPIX  =                    8",
    textCard "NAXIS   =                    2", .naxis1 (countField n), .naxis2 (countField 0),
    textCard "PCOUNT  =                    0", textCard "GCOUNT  =                    1"]

variable {n : ℕ}

theorem getElem?_fields {c : ℕ} {f : Field} (hf : (narrowTable n).fields[c]? = some f) :
    f = ⟨none, byteFormat⟩ :=
  List.eq_of_mem_replicate (List.mem_of_getElem? hf)

theorem rowSize_narrowTable (n : ℕ) : (narrowTable n).rowSize = n := by
  have hwidth : byteFormat.width = 1 := rfl
  rw [Description.rowSize, narrowTable, List.map_replicate, hwidth, List.sum_replicate_nat,
    Nat.mul_one]

theorem byteCard_describes {c : ℕ} (hc : c < n) (hn : n < 1000) :
    Describes (narrowTable n) (byteCard c) ∧ (byteCard c).bytes.length = 80 := by
  have hindex : Index (columnDigits (c + 1)) := index_columnDigits (by omega)
  have hdecimal := (columnDigits_spec (n := c + 1) (by omega)).2.2.2.2
  refine ⟨⟨hindex, ⟨none, byteFormat⟩, ?_, fixedString_says (by decide)⟩, ?_⟩
  · rw [hdecimal, Nat.add_sub_cancel, narrowTable, List.getElem?_replicate, if_pos hc]
  · have hfield : (fixedString "B").bytes.length = 70 := by decide
    rw [byteCard, Card.bytes, List.length_append, length_indexed (by decide) hindex, hfield]

theorem narrowLeading_describes (hn : n < 1000) : ∀ card ∈ narrowLeading n,
    Describes (narrowTable n) card ∧ card.bytes.length = 80 := by
  have hsize : Writes (countField n) (narrowTable n).rowSize := by
    rw [rowSize_narrowTable]
    exact countField_writes hn
  have hlength : ∀ k < 1000, ∀ keyword ∈ ["NAXIS1  = ", "NAXIS2  = "],
      (ascii keyword ++ (countField k).bytes).length = 80 := by
    intro k hk keyword hkeyword
    have hten : ∀ keyword ∈ ["NAXIS1  = ", "NAXIS2  = "], (ascii keyword).length = 10 := by decide
    rw [List.length_append, length_countField hk, hten keyword hkeyword]
  simp only [narrowLeading, List.forall_mem_cons]
  refine ⟨⟨⟨not_reserved (by decide), by decide, by decide⟩, by decide⟩,
    ⟨⟨not_reserved (by decide), by decide, by decide⟩, by decide⟩,
    ⟨⟨not_reserved (by decide), by decide, by decide⟩, by decide⟩,
    ⟨hsize, hlength n hn _ (.head _)⟩,
    ⟨countField_writes (by decide), hlength 0 (by decide) _ (.tail _ (.head _))⟩,
    ⟨⟨not_reserved (by decide), by decide, by decide⟩, by decide⟩,
    ⟨⟨not_reserved (by decide), by decide, by decide⟩, by decide⟩, List.forall_mem_nil _⟩

theorem formNumber_byteCard {c : ℕ} (hc : c < n) (hn : n < 1000) :
    formNumber (byteCard c) = some (c + 1) :=
  congrArg some (columnDigits_spec (n := c + 1) (by omega)).2.2.2.2

theorem filterMap_byteCard (hn : n < 1000) :
    ((List.range n).map byteCard).filterMap formNumber = (List.range n).map (· + 1) := by
  rw [List.filterMap_map, ← List.filterMap_eq_map]
  exact List.filterMap_congr fun c hc => formNumber_byteCard (List.mem_range.mp hc) hn

theorem nameNumber_narrow (n : ℕ) : ∀ card ∈ narrowLeading n ++
    .tfields (countField n) :: (List.range n).map byteCard, nameNumber card = none := by
  rw [List.forall_mem_append, List.forall_mem_cons, List.forall_mem_map]
  simp only [narrowLeading, List.forall_mem_cons]
  exact ⟨⟨rfl, rfl, rfl, rfl, rfl, rfl, rfl, List.forall_mem_nil _⟩, rfl, fun _ _ => rfl⟩

/-- A table of `n` columns of one byte, without rows. -/
def narrowHeader (n : ℕ) (hn : n < 1000) : Header where
  toDescription := narrowTable n
  leading := narrowLeading n
  tfields := countField n
  trailing := (List.range n).map byteCard
  true_cards := by
    rw [List.forall_mem_append, List.forall_mem_cons, List.forall_mem_map]
    have hcount : Writes (countField n) (narrowTable n).fields.length := by
      rw [narrowTable, List.length_replicate]
      exact countField_writes hn
    have hten : (ascii "TFIELDS = ").length = 10 := rfl
    refine ⟨narrowLeading_describes hn, ⟨hcount, ?_⟩, ?_⟩
    · rw [Card.bytes, List.length_append, length_countField hn, hten]
    · exact fun c hc => byteCard_describes (List.mem_range.mp hc) hn
  naxis1_card := ⟨countField n, List.mem_append_left _ (.tail _ (.tail _ (.tail _ (.head _))))⟩
  naxis2_card :=
    ⟨countField 0, List.mem_append_left _ (.tail _ (.tail _ (.tail _ (.tail _ (.head _)))))⟩
  tfields_once := by
    rw [List.forall_mem_append, List.forall_mem_map]
    simp only [narrowLeading, List.forall_mem_cons]
    exact ⟨⟨rfl, rfl, rfl, rfl, rfl, rfl, rfl, List.forall_mem_nil _⟩, fun _ _ => rfl⟩
  names_once := by
    rw [List.filterMap_eq_nil_iff.mpr (nameNumber_narrow n)]
    exact List.nodup_nil
  forms_once := by
    rw [filterMap_byteCard hn]
    exact List.Pairwise.map _ (fun _ _ hne heq => hne (Nat.succ_inj.mp heq)) List.nodup_range
  form_leading := by
    simp only [narrowLeading, List.forall_mem_cons]
    exact ⟨rfl, rfl, rfl, rfl, rfl, rfl, rfl, List.forall_mem_nil _⟩
  form_trailing := by
    intro c hc
    have hlt : c < n := hc.trans_eq List.length_replicate
    exact ⟨byteCard c, List.mem_map_of_mem (List.mem_range.mpr hlt), formNumber_byteCard hlt hn⟩
  named := by
    intro c f value hf hname
    rw [getElem?_fields hf] at hname
    cases hname
  apart := by
    rintro name - c d ⟨f, hf, hname⟩
    rw [getElem?_fields hf] at hname
    cases hname

theorem no_names {hn : n < 1000} {digits : List UInt8} {field : StringField} :
    .ttype digits field ∉ (narrowHeader n hn).cards := by
  intro hcard
  cases nameNumber_narrow n _ hcard

theorem shows_byteFormat : Shows byteFormat (shownText (fixedString "B")) := by
  have hshown : shownText (fixedString "B") = byteFormat.digits ++ [ColumnType.B.letter] := by
    decide
  have hmeasured : Measured (plainForm byteFormat .B) := ⟨by decide, by decide, by decide⟩
  have htype : byteFormat.type = .fixed .B := rfl
  simp only [hshown, Shows, htype, if_true]
  exact hmeasured

/-- Two digits are enough for the number of a column, three are not. -/
theorem scanned_narrowHeader_iff (n : ℕ) (hn : n < 1000) (before rest : List UInt8) :
    Scanned (narrowHeader n hn) before rest ↔ n ≤ 99 := by
  have hcount : (narrowHeader n hn).fields.length = n := List.length_replicate
  rw [scanned_iff]
  constructor
  · intro hclear
    exact hcount ▸ hclear.few
  · intro hfew
    exact {
      few := by rwa [hcount]
      rowSize_lt := by
        have hsize : (narrowHeader n hn).rowSize = n := rowSize_narrowTable n
        omega
      naxis2_lt := by
        have hzero : (narrowHeader n hn).naxis2 = 0 := rfl
        omega
      texts := fun _ _ hcard => absurd hcard no_names
      names := fun _ first last _ _ hsplit _ =>
        absurd (hsplit ▸ List.mem_append_right first List.mem_cons_self) no_names
      forms := by
        intro digits field f hcard hf
        rw [getElem?_fields hf]
        obtain ⟨c, -, heq⟩ := List.mem_map.mp ((narrowHeader n hn).mem_trailing hcard)
        obtain ⟨-, rfl⟩ := Card.tform.inj heq
        exact shows_byteFormat }

theorem columns_overflow : ¬∀ (h : Header) (before rest : List UInt8), Scanned h before rest := by
  intro hall
  have hfew := (scanned_narrowHeader_iff 100 (by decide) [] []).mp (hall _ [] [])
  omega

end Narrow

end XWebQL.ZigTableHeader
