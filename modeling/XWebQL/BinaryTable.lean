import XWebQL.FitsTable

/-! The header of any binary table.
Beside the types of fixed width a column may hold descriptors of arrays, its form
may go on after the type, and it need not have a name. The cards come in any
order, the forms after `TFIELDS`, each name and each form once. Only the columns
have keywords that begin with `TTYPE` or `TFORM`. Nothing here is about a program
that reads the header. -/

namespace XWebQL.BinaryTable

open AsciiText FitsTable

inductive FieldType
  | fixed (type : ColumnType)
  | P
  | Q

namespace FieldType

def letter : FieldType → UInt8
  | .fixed type => type.letter
  | .P => code 'P'
  | .Q => code 'Q'

def bytes (count : ℕ) : FieldType → ℕ
  | .fixed type => type.bytes count
  | .P => 8 * count
  | .Q => 16 * count

end FieldType

/-- The value of a `TFORMn` card. -/
structure Format where
  digits : List UInt8
  type : FieldType
  extra : List UInt8
  all_digits : ∀ c ∈ digits, isDigit c = true

namespace Format

def count (f : Format) : ℕ := if f.digits = [] then 1 else decimal f.digits

def width (f : Format) : ℕ := f.type.bytes f.count

def text (f : Format) : List UInt8 := f.digits ++ f.type.letter :: f.extra

end Format

structure Field where
  name : Option (List UInt8)
  format : Format

structure Description where
  fields : List Field
  naxis2 : ℕ

namespace Description

def rowSize (t : Description) : ℕ := (t.fields.map fun f => f.format.width).sum

/-- Column `c` has this name. -/
def Called (t : Description) (c : ℕ) (name : String) : Prop :=
  ∃ f, t.fields[c]? = some f ∧ f.name = some (ascii name)

end Description

structure Writes (f : IntField) (n : ℕ) : Prop where
  written : f.digits ≠ []
  all_digits : ∀ c ∈ f.digits, isDigit c = true
  value : decimal f.digits = n
  comment : Comment f.tail

/-- The card is true of the table. A keyword that begins with `TTYPE` or `TFORM` is one of a
column: there is no card such as `TTYPEX` or `TFORM1A`, which the standard allows. -/
def Describes (t : Description) : Card → Prop
  | .naxis1 field => Writes field t.rowSize
  | .naxis2 field => Writes field t.naxis2
  | .tfields field => Writes field t.fields.length
  | .ttype digits field => Index digits ∧
      ∃ f value, t.fields[decimal digits - 1]? = some f ∧ f.name = some value ∧ field.Says value
  | .tform digits field => Index digits ∧
      ∃ f, t.fields[decimal digits - 1]? = some f ∧ field.Says f.format.text
  | .other bytes => ¬Reserved bytes ∧ ¬ascii "TTYPE" <+: bytes ∧ ¬ascii "TFORM" <+: bytes

def nameNumber : Card → Option ℕ
  | .ttype digits _ => some (decimal digits)
  | _ => none

def formNumber : Card → Option ℕ
  | .tform digits _ => some (decimal digits)
  | _ => none

/-- A well-formed header, without the `END` card. The columns `X`, `Y` and `PI` are alone with
their names. -/
structure Header extends Description where
  leading : List Card
  tfields : IntField
  trailing : List Card
  true_cards : ∀ card ∈ leading ++ .tfields tfields :: trailing,
    Describes toDescription card ∧ card.bytes.length = 80
  naxis1_card : ∃ field, .naxis1 field ∈ leading ++ trailing
  naxis2_card : ∃ field, .naxis2 field ∈ leading ++ trailing
  tfields_once : ∀ card ∈ leading ++ trailing, card.isTfields = false
  names_once : ((leading ++ .tfields tfields :: trailing).filterMap nameNumber).Nodup
  forms_once : (trailing.filterMap formNumber).Nodup
  form_leading : ∀ card ∈ leading, formNumber card = none
  form_trailing : ∀ c < fields.length, ∃ card ∈ trailing, formNumber card = some (c + 1)
  named : ∀ (c : ℕ) (f : Field) (value : List UInt8), fields[c]? = some f → f.name = some value →
    ∃ card ∈ leading ++ trailing, nameNumber card = some (c + 1)
  apart : ∀ name ∈ ["X", "Y", "PI"], ∀ c d, toDescription.Called c name →
    toDescription.Called d name → c = d

namespace Header

def cards (h : Header) : List Card := h.leading ++ .tfields h.tfields :: h.trailing

def fill (h : Header) : List UInt8 :=
  List.replicate (2880 * (h.cards.length / 36 + 1) - 80 * (h.cards.length + 1)) blank

def bytes (h : Header) : List UInt8 := h.cards.flatMap Card.bytes ++ (endCard ++ h.fill)

theorem length_card (h : Header) : ∀ card ∈ h.cards, card.bytes.length = 80 :=
  fun card hcard => (h.true_cards card hcard).2

theorem length_bytes (h : Header) : h.bytes.length = 2880 * (h.cards.length / 36 + 1) := by
  have hend : endCard.length = 80 := rfl
  rw [bytes, List.length_append, List.length_append, length_flatMap_bytes h.length_card, hend, fill,
    List.length_replicate]
  omega

theorem tfields_mem (h : Header) : .tfields h.tfields ∈ h.cards :=
  List.mem_append_right _ List.mem_cons_self

theorem trailing_subset (h : Header) : h.trailing ⊆ h.cards := fun _ hcard =>
  List.mem_append_right _ (List.mem_cons_of_mem _ hcard)

theorem mem_cards (h : Header) {card : Card} (hcard : card ∈ h.leading ++ h.trailing) :
    card ∈ h.cards := by
  cases List.mem_append.mp hcard with
  | inl hleading => exact List.mem_append_left _ hleading
  | inr htrailing => exact h.trailing_subset htrailing

theorem mem_trailing (h : Header) {digits : List UInt8} {field : StringField}
    (hcard : .tform digits field ∈ h.cards) : .tform digits field ∈ h.trailing := by
  rcases List.mem_append.mp hcard with hleading | hrest
  · cases h.form_leading _ hleading
  · rcases List.mem_cons.mp hrest with heq | htrailing
    · cases heq
    · exact htrailing

end Header

theorem eq_of_key {α β : Type} {l : List α} {key : α → Option β} {a b : α} {k : β}
    (honce : (l.filterMap key).Nodup) (ha : a ∈ l) (hb : b ∈ l) (hkey : key a = some k)
    (hkey' : key b = some k) : b = a := by
  obtain ⟨first, last, rfl⟩ := List.append_of_mem ha
  rw [List.filterMap_append, List.filterMap_cons_some hkey, List.nodup_append,
    List.nodup_cons] at honce
  obtain ⟨-, ⟨hlast, -⟩, hfirst⟩ := honce
  rcases List.mem_append.mp hb with hmem | hmem
  · refine absurd rfl (hfirst k (List.mem_filterMap.mpr ⟨b, hmem, hkey'⟩) k List.mem_cons_self)
  · rcases List.mem_cons.mp hmem with heq | hmem
    · exact heq
    · exact absurd (List.mem_filterMap.mpr ⟨b, hmem, hkey'⟩) hlast

/-- Where each element has a key of its own, the last value is one key exactly
when the element of that key gives it and no later element gives a value. -/
theorem getLast?_filterMap_iff {α β : Type} {first last : List α} {a : α} {key f : α → Option β}
    {k : β} (hkey : key a = some k) (honce : ((first ++ a :: last).filterMap key).Nodup)
    (hf : ∀ b v, f b = some v → key b = some v) :
    ((first ++ a :: last).filterMap f).getLast? = some k ↔
      f a = some k ∧ ∀ b ∈ last, f b = none := by
  rw [List.filterMap_append, List.filterMap_cons_some hkey, List.nodup_append,
    List.nodup_cons] at honce
  obtain ⟨-, ⟨hlast, -⟩, hfirst⟩ := honce
  -- neither before nor behind `a` there is an element with its key
  have hother : ∀ l : List α, k ∉ l.filterMap key → k ∉ l.filterMap f := by
    intro l hl hmem
    obtain ⟨b, hb, hv⟩ := List.mem_filterMap.mp hmem
    exact hl (List.mem_filterMap.mpr ⟨b, hb, hf b k hv⟩)
  have hnone : (∀ b ∈ last, f b = none) ↔ last.filterMap f = [] := List.filterMap_eq_nil_iff.symm
  rw [hnone, List.filterMap_append]
  constructor
  · intro h
    have hempty : last.filterMap f = [] := by
      by_contra hne
      have hsuffix : last.filterMap f <:+ first.filterMap f ++ (a :: last).filterMap f := by
        cases hv : f a with
        | none =>
          rw [List.filterMap_cons_none hv]
          exact List.suffix_append _ _
        | some v =>
          rw [List.filterMap_cons_some hv]
          exact (List.suffix_cons _ _).trans (List.suffix_append _ _)
      obtain ⟨before, hsplit⟩ := hsuffix
      rw [← hsplit, List.getLast?_append_of_ne_nil _ hne] at h
      exact hother last hlast (List.mem_of_getLast? h)
    refine ⟨?_, hempty⟩
    cases hv : f a with
    | none =>
      rw [List.filterMap_cons_none hv, hempty, List.append_nil] at h
      refine absurd (List.mem_of_getLast? h) (hother first fun hmem => ?_)
      exact hfirst k hmem k List.mem_cons_self rfl
    | some v =>
      have heq := hf a v hv
      rw [hkey] at heq
      exact heq.symm
  · rintro ⟨hv, hempty⟩
    rw [List.filterMap_cons_some hv, hempty, List.getLast?_concat]

end XWebQL.BinaryTable
