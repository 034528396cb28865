import Mathlib.Algebra.Order.BigOperators.Group.List
import Mathlib.Tactic.Ring
import XWebQL.AsciiText
import XWebQL.OptionFold

/-! A FITS file that holds one table of events in its first binary-table
extension.
The file is described by what the standard calls its structure: blocks of 2880
bytes, header cards of 80 characters, rows of columns of a fixed width. How a
card is laid out is left as free as the standard leaves it. Nothing here is
about a program that reads the file. -/

namespace XWebQL.FitsTable

open AsciiText

/-- The number that bytes write, highest byte first. -/
def fromBigEndian (bytes : List UInt8) : ℕ :=
  bytes.foldl (fun n b => 256 * n + b.toNat) 0

def twosComplement (bytes : List UInt8) : ℤ :=
  Int.bmod (fromBigEndian bytes) (256 ^ bytes.length)

theorem fromBigEndian_lt (bytes : List UInt8) : fromBigEndian bytes < 256 ^ bytes.length := by
  induction bytes using List.reverseRecOn with
  | nil => exact Nat.one_pos
  | append_singleton bytes b ih =>
    have hb := b.toNat_lt
    rw [fromBigEndian] at *
    rw [List.foldl_append, List.length_append, List.length_singleton, pow_succ]
    simp only [List.foldl_cons, List.foldl_nil]
    omega

theorem twosComplement_cases (bytes : List UInt8) :
    twosComplement bytes = fromBigEndian bytes ∨
      twosComplement bytes < 0 ∧ 0 < fromBigEndian bytes := by
  have hlt := fromBigEndian_lt bytes
  rw [twosComplement, Int.bmod_def, Int.emod_eq_of_lt (by omega) (by exact_mod_cast hlt)]
  generalize 256 ^ bytes.length = m at *
  split_ifs
  · left
    rfl
  · right
    omega

inductive ColumnType
  | L | X | B | I | J | K | A | E | C | D | M
deriving DecidableEq, Repr

def ColumnType.letter : ColumnType → UInt8
  | .L => code 'L'
  | .X => code 'X'
  | .B => code 'B'
  | .I => code 'I'
  | .J => code 'J'
  | .K => code 'K'
  | .A => code 'A'
  | .E => code 'E'
  | .C => code 'C'
  | .D => code 'D'
  | .M => code 'M'

/-- The bytes that `count` elements take. -/
def ColumnType.bytes (count : ℕ) : ColumnType → ℕ
  | .X => (count + 7) / 8
  | .L | .B | .A => count
  | .I => 2 * count
  | .J | .E => 4 * count
  | .K | .D | .C => 8 * count
  | .M => 16 * count

/-- The value of a `TFORMn` card. -/
structure Form where
  digits : List UInt8
  type : ColumnType
  extra : List UInt8
  all_digits : ∀ c ∈ digits, isDigit c = true

namespace Form

/-- The repeat count, which is 1 where it is not written. -/
def count (f : Form) : ℕ := if f.digits = [] then 1 else decimal f.digits

def width (f : Form) : ℕ := f.type.bytes f.count

def text (f : Form) : List UInt8 := f.digits ++ f.type.letter :: f.extra

end Form

structure Column where
  name : List UInt8
  form : Form

/-- A table of events. The columns `x`, `y` and `pi` are counted from 0, a row is its bytes. -/
structure Table where
  columns : List Column
  x : ℕ
  y : ℕ
  pi : ℕ
  rows : List (List UInt8)

namespace Table

def widths (t : Table) : List ℕ := t.columns.map fun c => c.form.width

def rowSize (t : Table) : ℕ := t.widths.sum

/-- Where column `c` begins in a row. -/
def offset (t : Table) (c : ℕ) : ℕ := (t.widths.take c).sum

/-- The bytes of column `c` in a row. -/
def cell (t : Table) (row : List UInt8) (c : ℕ) : List UInt8 :=
  (row.drop (t.offset c)).take (t.widths.getD c 0)

/-- The number that column `c` of a row holds. -/
def value (t : Table) (row : List UInt8) (c : ℕ) : ℤ := twosComplement (t.cell row c)

/-- Column `c` has this name, alone, and one element of one of these types. -/
def Holds (t : Table) (c : ℕ) (name : String) (types : List ColumnType) : Prop :=
  ∃ column, t.columns[c]? = some column ∧ column.name = ascii name ∧ column.form.count = 1 ∧
    column.form.type ∈ types ∧
      ∀ (d : ℕ) (other : Column), t.columns[d]? = some other → other.name = ascii name → d = c

end Table

def Comment (tail : List UInt8) : Prop :=
  ∃ pad rest, tail = List.replicate pad blank ++ rest ∧ ∀ c ∈ rest.head?, c = code '/'

structure IntField where
  lead : ℕ
  plus : Bool
  digits : List UInt8
  tail : List UInt8

namespace IntField

def bytes (f : IntField) : List UInt8 :=
  List.replicate f.lead blank ++ (if f.plus then [code '+'] else []) ++ f.digits ++ f.tail

structure Says (f : IntField) (n : ℕ) : Prop where
  written : f.digits ≠ []
  all_digits : ∀ c ∈ f.digits, isDigit c = true
  value : decimal f.digits = n
  tail_ne : f.tail ≠ []
  comment : Comment f.tail

end IntField

structure StringField where
  lead : ℕ
  text : List UInt8
  tail : List UInt8

namespace StringField

def bytes (f : StringField) : List UInt8 :=
  List.replicate f.lead blank ++ quote :: f.text ++ quote :: f.tail

/-- A quote in a string is written twice. -/
def escape (value : List UInt8) : List UInt8 :=
  value.flatMap fun c => if c = quote then [quote, quote] else [c]

/-- Blanks at the end of a string do not count. -/
structure Says (f : StringField) (value : List UInt8) : Prop where
  value : ∃ pad, f.text = escape value ++ List.replicate pad blank
  comment : Comment f.tail

/-- The string begins the value field and a blank follows it. -/
def Plain (f : StringField) : Prop :=
  f.lead = 0 ∧ quote ∉ f.text ∧ f.tail.head? = some blank

instance (f : StringField) : Decidable f.Plain :=
  inferInstanceAs (Decidable (f.lead = 0 ∧ quote ∉ f.text ∧ f.tail.head? = some blank))

theorem escape_of_not_mem {value : List UInt8} (h : quote ∉ value) : escape value = value := by
  induction value with
  | nil => rfl
  | cons c value ih =>
    rw [List.mem_cons, not_or] at h
    have hcons : escape (c :: value) =
        (if c = quote then [quote, quote] else [c]) ++ escape value := List.flatMap_cons
    rw [hcons, if_neg (Ne.symm h.1), ih h.2, List.singleton_append]

theorem quote_mem_escape {value : List UInt8} (h : quote ∈ value) : quote ∈ escape value :=
  List.mem_flatMap.mpr ⟨quote, h, by simp⟩

/-- Without a quote inside, only blanks are written beside the string. -/
theorem Says.text {f : StringField} {value : List UInt8} (hf : f.Says value)
    (hquote : quote ∉ f.text) : ∃ pad, f.text = value ++ List.replicate pad blank := by
  obtain ⟨pad, htext⟩ := hf.value
  have hescape : escape value = value := escape_of_not_mem fun hmem =>
    hquote (htext ▸ List.mem_append_left _ (quote_mem_escape hmem))
  exact ⟨pad, by rw [htext, hescape]⟩

end StringField

/-- `digits` writes the number of a column. -/
structure Index (digits : List UInt8) : Prop where
  length : digits.length ≤ 3
  all_digits : ∀ c ∈ digits, isDigit c = true
  no_zero : digits.head? ≠ some (code '0')
  pos : 0 < decimal digits

theorem Index.written {digits : List UInt8} (h : Index digits) : digits ≠ [] := by
  intro hnil
  exact absurd h.pos (by rw [hnil]; decide)

theorem Index.decimal_lt {digits : List UInt8} (h : Index digits) : decimal digits < 1000 :=
  (AsciiText.decimal_lt h.all_digits).trans_le (Nat.pow_le_pow_right (by norm_num) h.length)

/-- `TTYPEn` or `TFORMn` with its value indicator, `n` in `digits`. -/
def indexed (keyword : String) (digits : List UInt8) : List UInt8 :=
  ascii keyword ++ digits ++ List.replicate (3 - digits.length) blank ++ ascii "= "

inductive Card
  | naxis1 (field : IntField)
  | naxis2 (field : IntField)
  | tfields (field : IntField)
  | ttype (digits : List UInt8) (field : StringField)
  | tform (digits : List UInt8) (field : StringField)
  | other (bytes : List UInt8)

theorem length_indexed {keyword : String} {digits : List UInt8}
    (hkeyword : (ascii keyword).length = 5) (hdigits : Index digits) :
    (indexed keyword digits).length = 10 := by
  have htwo : (ascii "= ").length = 2 := rfl
  have hlength := hdigits.length
  simp only [indexed, List.length_append, List.length_replicate, hkeyword, htwo]
  omega

def Reserved (bytes : List UInt8) : Prop :=
  (∃ keyword ∈ ["END       ", "NAXIS1  = ", "NAXIS2  = ", "TFIELDS = "],
    ascii keyword <+: bytes) ∨
  ∃ keyword ∈ ["TTYPE", "TFORM"], ∃ digits, Index digits ∧ indexed keyword digits <+: bytes

theorem not_reserved {bytes : List UInt8} (h : ∀ keyword ∈ ["END       ", "NAXIS1  = ",
    "NAXIS2  = ", "TFIELDS = ", "TTYPE", "TFORM"], ¬ ascii keyword <+: bytes) :
    ¬ Reserved bytes := by
  intro hreserved
  cases hreserved with
  | inl hreserved =>
    obtain ⟨keyword, hmem, hprefix⟩ := hreserved
    exact h keyword (List.mem_append_left ["TTYPE", "TFORM"] hmem) hprefix
  | inr hreserved =>
    obtain ⟨keyword, hmem, digits, -, hprefix⟩ := hreserved
    refine h keyword (List.mem_append_right ["END       ", "NAXIS1  = ", "NAXIS2  = ",
      "TFIELDS = "] hmem) (List.IsPrefix.trans ?_ hprefix)
    rw [indexed, List.append_assoc, List.append_assoc]
    exact List.prefix_append _ _

namespace Card

def bytes : Card → List UInt8
  | .naxis1 field => ascii "NAXIS1  = " ++ field.bytes
  | .naxis2 field => ascii "NAXIS2  = " ++ field.bytes
  | .tfields field => ascii "TFIELDS = " ++ field.bytes
  | .ttype digits field => indexed "TTYPE" digits ++ field.bytes
  | .tform digits field => indexed "TFORM" digits ++ field.bytes
  | .other bytes => bytes

/-- The card is true of the table. -/
def Says (t : Table) : Card → Prop
  | .naxis1 field => field.Says t.rowSize
  | .naxis2 field => field.Says t.rows.length
  | .tfields field => field.Says t.columns.length
  | .ttype digits field => Index digits ∧
      ∃ column, t.columns[decimal digits - 1]? = some column ∧ field.Says column.name
  | .tform digits field => Index digits ∧
      ∃ column, t.columns[decimal digits - 1]? = some column ∧ field.Says column.form.text
  | .other bytes => ¬ Reserved bytes

/-- The card names column `c`. -/
def Names (c : ℕ) : Card → Prop
  | .ttype digits _ => decimal digits = c + 1
  | _ => False

/-- The card gives the form of column `c`. -/
def Forms (c : ℕ) : Card → Prop
  | .tform digits _ => decimal digits = c + 1
  | _ => False

def isTfields : Card → Bool
  | .tfields _ => true
  | _ => false

end Card

def tableMark : List UInt8 := ascii "XTENSION= 'BINTABLE'"

def endCard : List UInt8 := ascii "END" ++ List.replicate 77 blank

section Blocks

variable {cards : List Card}

theorem length_flatten_of_length {blocks : List (List UInt8)} {w : ℕ}
    (h : ∀ block ∈ blocks, block.length = w) : blocks.flatten.length = w * blocks.length := by
  induction blocks with
  | nil => rfl
  | cons block blocks ih =>
    rw [List.flatten_cons, List.length_append, h block List.mem_cons_self,
      ih fun b hb => h b (List.mem_cons_of_mem _ hb), List.length_cons]
    ring

theorem length_flatMap_bytes (h : ∀ card ∈ cards, card.bytes.length = 80) :
    (cards.flatMap Card.bytes).length = 80 * cards.length := by
  rw [List.flatMap_def, length_flatten_of_length (List.forall_mem_map.mpr h), List.length_map]

theorem split_block (h : ∀ card ∈ cards, card.bytes.length = 80) (hlong : 36 ≤ cards.length) :
    cards.flatMap Card.bytes =
        (cards.take 36).flatMap Card.bytes ++ (cards.drop 36).flatMap Card.bytes ∧
      ((cards.take 36).flatMap Card.bytes).length = 2880 := by
  constructor
  · rw [← List.flatMap_append, List.take_append_drop]
  · rw [length_flatMap_bytes fun card hcard => h card (List.mem_of_mem_take hcard),
      List.length_take, min_eq_left hlong]

end Blocks

section Cells

variable {t : Table} {row : List UInt8} {c : ℕ}

theorem Table.offset_succ (hc : c < t.columns.length) :
    t.offset (c + 1) = t.offset c + t.widths.getD c 0 := by
  have hlt : c < t.widths.length := by rwa [Table.widths, List.length_map]
  rw [Table.offset, Table.offset, List.take_add_one, List.sum_append, List.getD_eq_getElem?_getD]
  rw [List.getElem?_eq_getElem hlt, Option.toList_some, List.sum_singleton, Option.getD_some]

theorem Table.offset_add_width_le (hc : c < t.columns.length) :
    t.offset c + t.widths.getD c 0 ≤ t.rowSize := by
  rw [← t.offset_succ hc]
  exact (List.take_sublist _ _).sum_le_sum fun _ _ => Nat.zero_le _

theorem Table.length_cell (hc : c < t.columns.length) (hrow : row.length = t.rowSize) :
    (t.cell row c).length = t.widths.getD c 0 := by
  have hle := t.offset_add_width_le hc
  rw [Table.cell, List.length_take, List.length_drop, hrow]
  omega

theorem Table.Holds.width {name : String} {types : List ColumnType} (h : t.Holds c name types) :
    c < t.columns.length ∧ ∃ type ∈ types, t.widths.getD c 0 = type.bytes 1 := by
  obtain ⟨column, hcolumn, -, hcount, htype, -⟩ := h
  refine ⟨(List.getElem?_eq_some_iff.mp hcolumn).1, column.form.type, htype, ?_⟩
  rw [Table.widths, List.getD_eq_getElem?_getD, List.getElem?_map, hcolumn]
  simp only [Option.map_some, Option.getD_some, Form.width, hcount]

end Cells

/-- A well-formed file. The cards are split at `TFIELDS`, which the standard wants before any
`TFORMn`; all else after `XTENSION` may come in any order. -/
structure EventFile extends Table where
  /-- the blocks of 2880 bytes before the extension -/
  before : List (List UInt8)
  xtension : List UInt8
  leading : List Card
  tfields : IntField
  trailing : List Card
  after : List UInt8
  holds_x : toTable.Holds x "X" [.I]
  holds_y : toTable.Holds y "Y" [.I]
  holds_pi : toTable.Holds pi "PI" [.I, .J]
  length_row : ∀ row ∈ rows, row.length = toTable.rowSize
  length_before : ∀ block ∈ before, block.length = 2880
  first_table : ∀ block ∈ before, ¬ tableMark <+: block
  true_cards : ∀ card ∈ Card.other (tableMark ++ xtension) :: leading ++ .tfields tfields :: trailing,
    card.Says toTable ∧ card.bytes.length = 80 ∧ Printable card.bytes
  naxis1 : ∃ field, .naxis1 field ∈ leading ++ trailing
  naxis2 : ∃ field, .naxis2 field ∈ leading ++ trailing
  tfields_once : ∀ card ∈ leading ++ trailing, card.isTfields = false
  tform_leading : ∀ card ∈ leading, ∀ c, ¬ card.Forms c
  tform_trailing : ∀ c < columns.length, ∃ card ∈ trailing, card.Forms c
  named : ∀ c ∈ [x, y, pi], ∃ card ∈ leading ++ trailing, card.Names c

section Fold

variable {σ : Type*} {step : σ → Card → σ} {P Q : σ → Prop} {cards : List Card}

theorem foldl_keeps (hkeep : ∀ s, ∀ c ∈ cards, P s → P (step s c)) {s : σ} (hs : P s) :
    P (cards.foldl step s) := by
  induction cards generalizing s with
  | nil => exact hs
  | cons c cards ih =>
    exact ih (fun s d hd => hkeep s d (List.mem_cons_of_mem _ hd))
      (hkeep s c List.mem_cons_self hs)

/-- A header is read card by card: what one card establishes and no card undoes holds in the end.
`Q` is what holds all along. -/
theorem foldl_established {card : Card} (hcard : card ∈ cards)
    (hQ : ∀ s, ∀ c ∈ cards, Q s → Q (step s c)) (hset : ∀ s, Q s → P (step s card))
    (hkeep : ∀ s, ∀ c ∈ cards, Q s → P s → P (step s c)) {s : σ} (hs : Q s) :
    P (cards.foldl step s) := by
  obtain ⟨first, last, rfl⟩ := List.append_of_mem hcard
  have hfirst : Q (first.foldl step s) :=
    foldl_keeps (fun s c hc => hQ s c (List.mem_append_left _ hc)) hs
  have hlast : Q (last.foldl step (step (first.foldl step s) card)) ∧
      P (last.foldl step (step (first.foldl step s) card)) := by
    refine foldl_keeps (P := fun s => Q s ∧ P s) ?_ ⟨hQ _ card hcard hfirst, hset _ hfirst⟩
    intro s c hc h
    have hmem := List.mem_append_right first (List.mem_cons_of_mem card hc)
    exact ⟨hQ s c hmem h.1, hkeep s c hmem h.1 h.2⟩
  rw [List.foldl_append, List.foldl_cons]
  exact hlast.2

theorem foldl_set {β : Type*} {g : σ → β} {v : β} {card : Card} (hcard : card ∈ cards)
    (hset : ∀ s, g (step s card) = v)
    (hother : ∀ s, ∀ c ∈ cards, g (step s c) = v ∨ g (step s c) = g s) (s : σ) :
    g (cards.foldl step s) = v := by
  refine foldl_established (P := fun s => g s = v) (Q := fun _ => True) hcard
    (fun _ _ _ _ => trivial) (fun s _ => hset s) ?_ trivial
  intro s c hc _ hs
  cases hother s c hc with
  | inl h => exact h
  | inr h => exact h.trans hs

/-- Where a card either sets a variable or leaves it, the last card that sets it decides. -/
theorem foldl_last {β : Type*} {g : σ → β} {sets : Card → Option β}
    (hQ : ∀ s, ∀ c ∈ cards, Q s → Q (step s c))
    (hset : ∀ s, ∀ c ∈ cards, Q s → g (step s c) = (sets c).getD (g s)) {s : σ} (hs : Q s) :
    g (cards.foldl step s) = (cards.filterMap sets).getLast?.getD (g s) := by
  -- the loop as one whose rounds never fail
  have hrun : cards.foldlM (fun s c => some (step s c)) s = some (cards.foldl step s) :=
    OptionFold.foldlM_some (fun _ _ _ _ => rfl) hQ hs
  refine OptionFold.foldlM_last_of sets ?_ ?_ hs hrun
  · rintro s _ c hc hs ⟨⟩
    exact hQ s c hc hs
  · rintro s _ c hc hs ⟨⟩
    exact hset s c hc hs

end Fold

namespace EventFile

def cards (f : EventFile) : List Card :=
  .other (tableMark ++ f.xtension) :: f.leading ++ .tfields f.tfields :: f.trailing

theorem tfields_mem (f : EventFile) : .tfields f.tfields ∈ f.cards :=
  List.mem_append_right _ List.mem_cons_self

theorem trailing_subset (f : EventFile) : f.trailing ⊆ f.cards := fun _ h =>
  List.mem_append_right _ (List.mem_cons_of_mem _ h)

theorem mem_cards (f : EventFile) {card : Card} (h : card ∈ f.leading ++ f.trailing) :
    card ∈ f.cards := by
  cases List.mem_append.mp h with
  | inl h => exact List.mem_append_left _ (List.mem_cons_of_mem _ h)
  | inr h => exact f.trailing_subset h

theorem length_columns_lt (f : EventFile) : f.columns.length < 1000 := by
  cases hlength : f.columns.length with
  | zero => norm_num
  | succ c =>
    obtain ⟨card, hcard, hforms⟩ := f.tform_trailing c (by omega)
    have htrue := (f.true_cards card (f.trailing_subset hcard)).1
    cases card with
    | tform digits field =>
      have hindex : Index digits := htrue.1
      have hbound := decimal_lt hindex.all_digits
      have hpow : 10 ^ digits.length ≤ 1000 := Nat.pow_le_pow_right (by norm_num) hindex.length
      rw [Card.Forms] at hforms
      omega
    | _ => exact hforms.elim

def fill (f : EventFile) : List UInt8 :=
  List.replicate (2880 * (f.cards.length / 36 + 1) - 80 * (f.cards.length + 1)) blank

def header (f : EventFile) : List UInt8 := f.cards.flatMap Card.bytes ++ endCard ++ f.fill

def start (f : EventFile) : ℕ := 2880 * f.before.length

def data (f : EventFile) : ℕ := f.start + 2880 * (f.cards.length / 36 + 1)

def bytes (f : EventFile) : List UInt8 :=
  f.before.flatten ++ (f.header ++ (f.rows.flatten ++ f.after))

theorem length_card (f : EventFile) {cards : List Card} (h : cards ⊆ f.cards) :
    ∀ card ∈ cards, card.bytes.length = 80 := fun card hcard => (f.true_cards card (h hcard)).2.1

theorem tableMark_prefix_header (f : EventFile) : tableMark <+: f.header := by
  rw [header, cards, List.cons_append, List.flatMap_cons, Card.bytes]
  simp only [List.append_assoc]
  exact List.prefix_append _ _

theorem length_header (f : EventFile) : f.header.length = 2880 * (f.cards.length / 36 + 1) := by
  have hend : endCard.length = 80 := rfl
  rw [header, List.length_append, List.length_append,
    length_flatMap_bytes (f.length_card (List.Subset.refl _)),
    hend, fill, List.length_replicate]
  omega

theorem length_flatten_before (f : EventFile) : f.before.flatten.length = f.start :=
  length_flatten_of_length f.length_before

theorem length_flatten_rows (f : EventFile) : f.rows.flatten.length = f.rowSize * f.rows.length :=
  length_flatten_of_length f.length_row

theorem drop_start (f : EventFile) :
    f.bytes.drop f.start = f.header ++ (f.rows.flatten ++ f.after) :=
  List.drop_left' f.length_flatten_before

theorem drop_data (f : EventFile) : f.bytes.drop f.data = f.rows.flatten ++ f.after := by
  rw [data, ← f.length_header, ← List.drop_drop, f.drop_start, List.drop_left]

theorem length_bytes (f : EventFile) :
    f.bytes.length = f.data + (f.rows.flatten.length + f.after.length) := by
  rw [bytes, List.length_append, List.length_append, List.length_append, f.length_header,
    f.length_flatten_before, data]
  ring

theorem split_flatten {rows : List (List UInt8)} {w i : ℕ} {row : List UInt8}
    (hrows : ∀ r ∈ rows, r.length = w) (hi : rows[i]? = some row) :
    ∃ before after, rows.flatten = before ++ (row ++ after) ∧ before.length = i * w := by
  induction rows generalizing i with
  | nil => simp at hi
  | cons r rows ih =>
    cases i with
    | zero =>
      rw [List.getElem?_cons_zero, Option.some.injEq] at hi
      exact ⟨[], rows.flatten, by rw [List.flatten_cons, hi, List.nil_append], by simp⟩
    | succ i =>
      obtain ⟨before, after, hflatten, hlength⟩ :=
        ih (fun s hs => hrows s (List.mem_cons_of_mem _ hs)) hi
      refine ⟨r ++ before, after, ?_, ?_⟩
      · rw [List.flatten_cons, hflatten, List.append_assoc]
      · rw [List.length_append, hrows r List.mem_cons_self, hlength]
        ring

theorem cell_in_bytes (f : EventFile) {i c : ℕ} {row : List UInt8} (hi : f.rows[i]? = some row)
    (hc : c < f.columns.length) :
    f.data + i * f.rowSize + f.offset c + f.widths.getD c 0 ≤ f.bytes.length ∧
      (f.bytes.drop (f.data + i * f.rowSize + f.offset c)).take (f.widths.getD c 0) =
        f.cell row c := by
  have hrow := f.length_row row (List.mem_of_getElem? hi)
  have hle := Table.offset_add_width_le hc
  obtain ⟨before, after, hflatten, hbefore⟩ := split_flatten f.length_row hi
  constructor
  · have hlength := congrArg List.length hflatten
    rw [List.length_append, List.length_append, hbefore, hrow] at hlength
    rw [f.length_bytes, hlength]
    omega
  · rw [← List.drop_drop, ← List.drop_drop, f.drop_data, hflatten, List.append_assoc, ← hbefore,
      List.drop_left, List.append_assoc, List.drop_append_of_le_length (by omega), Table.cell,
      List.take_append_of_le_length]
    rw [List.length_drop]
    omega

end EventFile

end XWebQL.FitsTable
