import XWebQL.SxsReader

/-! What `scan_table_header` makes of a well-formed header. -/

namespace XWebQL.SxsHeader

open AsciiText FitsTable SxsReader

def formSize (f : Form) : ℕ := f.type.bytes (max 1 f.count)

/-- The reader takes from the card what the card gives, if a zero byte ends the string that begins
with the card. -/
def Understands (t : Table) : Card → Prop
  | .ttype digits field => ∀ column, t.columns[decimal digits - 1]? = some column →
    ∃ string, (∀ rest, 0 ∈ rest → hdrGetStringValue (field.bytes ++ rest) = some string) ∧
      ∀ name ∈ ["X", "Y", "PI"], string = ascii name ↔ column.name = ascii name
  | .tform digits field => ∀ column, t.columns[decimal digits - 1]? = some column →
    ∃ string, (∀ rest, 0 ∈ rest → hdrGetStringValue (field.bytes ++ rest) = some string) ∧
      getTypeSize string = some (formSize column.form : ℤ)
  | .other bytes => ascii "TTYPE" <+: bytes ∨ ascii "TFORM" <+: bytes →
    ∀ rest, 0 ∈ rest → sscanfIndex (bytes.drop 5 ++ rest) = some none
  | _ => True

/-- The headers that the reader understands. The zero byte stands behind the header. -/
structure Understood (f : EventFile) : Prop where
  ends : 0 ∈ f.rows.flatten ++ f.after
  cards : ∀ card ∈ f.cards, Understands f.toTable card
  sizes : (f.columns.map fun column => formSize column.form).sum < 2147483648
  rows : f.rows.length < 2147483648

theorem int_natCast {n : ℕ} (hn : n < 2147483648) : int n = some (n : ℤ) :=
  int_eq_some (Int.natCast_nonneg n) (by omega)

section Numbers

variable {ds rest : List UInt8} {c : UInt8}

theorem digits_run (hne : ds ≠ []) (hds : ∀ c ∈ ds, isDigit c = true) (hc : isDigit c = false) :
    digits (ds ++ c :: rest) = some (some (decimal ds : ℤ)) := by
  rw [digits, scan_run hds hc]
  cases ds with
  | nil => exact absurd rfl hne
  | cons d ds => rfl

theorem number_digits (hne : ds ≠ []) (hds : ∀ c ∈ ds, isDigit c = true) (hc : isDigit c = false) :
    number (ds ++ c :: rest) = some (some (decimal ds : ℤ)) := by
  have hread : digits (ds ++ c :: rest) = _ := digits_run hne hds hc
  cases ds with
  | nil => exact absurd rfl hne
  | cons d ds =>
    have hd := hds d List.mem_cons_self
    have hminus : d ≠ code '-' := ne_of_isDigit hd (by decide)
    have hplus : d ≠ code '+' := ne_of_isDigit hd (by decide)
    rw [number, List.cons_append, List.dropWhile_cons_of_neg (by simp [isSpace_of_isDigit hd])]
    simp only [if_neg hminus, if_neg hplus]
    exact hread

theorem number_blanks (k : ℕ) (s : List UInt8) :
    number (List.replicate k blank ++ s) = number s := by
  induction k with
  | zero => rfl
  | succ k ih =>
    rw [List.replicate_succ, List.cons_append, number, List.dropWhile_cons_of_pos rfl]
    exact ih

theorem number_plus (hne : ds ≠ []) (hds : ∀ c ∈ ds, isDigit c = true) (hc : isDigit c = false) :
    number (code '+' :: (ds ++ c :: rest)) = some (some (decimal ds : ℤ)) := by
  rw [number, List.dropWhile_cons_of_neg (by decide)]
  exact digits_run hne hds hc

theorem hdrGetIntValue_intField {f : IntField} {n : ℕ} (hf : f.Says n) (rest : List UInt8) :
    hdrGetIntValue (f.bytes ++ rest) = int n := by
  obtain ⟨c, tail, htail, hends⟩ : ∃ c tail, f.tail ++ rest = c :: tail ∧ isDigit c = false := by
    obtain ⟨pad, comment, htail, hcomment⟩ := hf.comment
    have hne := hf.tail_ne
    rw [htail] at hne ⊢
    cases pad with
    | succ pad => exact ⟨_, _, rfl, rfl⟩
    | zero =>
      cases comment with
      | nil => exact absurd rfl hne
      | cons d comment => exact ⟨d, _, rfl, hcomment d rfl ▸ rfl⟩
  have hnumber : number (f.bytes ++ rest) = some (some (n : ℤ)) := by
    rw [IntField.bytes, List.append_assoc, List.append_assoc, List.append_assoc, number_blanks,
      ← hf.value, htail]
    split
    · exact number_plus hf.written hf.all_digits hends
    · exact number_digits hf.written hf.all_digits hends
  rw [hdrGetIntValue, atoi, hnumber]
  rfl

theorem hdrGetIntValue_field {f : IntField} {n : ℕ} (hf : f.Says n) (hn : n < 2147483648)
    (rest : List UInt8) : hdrGetIntValue (f.bytes ++ rest) = some (n : ℤ) := by
  rw [hdrGetIntValue_intField hf, int_natCast hn]

theorem sscanfIndex_digits {ds : List UInt8} (hds : Index ds) (hzero : 0 ∈ rest) :
    sscanfIndex (ds ++ (List.replicate (3 - ds.length) blank ++ (ascii "= " ++ rest))) =
      some (some (decimal ds : ℤ)) := by
  have hbound := hds.decimal_lt
  obtain ⟨c, tail, htail, hends⟩ : ∃ c tail,
      List.replicate (3 - ds.length) blank ++ (ascii "= " ++ rest) = c :: tail ∧
        isDigit c = false := by
    cases 3 - ds.length with
    | zero => exact ⟨_, _, rfl, rfl⟩
    | succ k => exact ⟨_, _, rfl, rfl⟩
  have hint : int (decimal ds : ℤ) = some (decimal ds : ℤ) :=
    int_natCast (n := decimal ds) (by omega)
  have hmem : 0 ∈ ds ++ (List.replicate (3 - ds.length) blank ++ (ascii "= " ++ rest)) := by
    simp only [List.mem_append, hzero, or_true]
  rw [sscanfIndex, if_pos hmem, htail, number_digits hds.written hds.all_digits hends]
  exact congrArg (Option.map some) hint

end Numbers

/-- A count that is not written counts as 1, and so does the number 0 that is read in its place. -/
theorem max_one_decimal (f : Form) : max 1 (decimal f.digits) = max 1 f.count := by
  unfold Form.count
  split
  · rename_i h
    rw [h]
    rfl
  · rfl

theorem decimal_lt_of_formSize {f : Form} (hsize : formSize f < 2147483648)
    (hbits : f.type = .X → f.count + 7 < 2147483648) : decimal f.digits < 2147483648 := by
  have hle := max_one_decimal f ▸ Nat.le_max_right 1 (decimal f.digits)
  rw [formSize] at hsize
  cases htype : f.type <;> rw [htype, ColumnType.bytes] at hsize <;> try omega
  have hbits := hbits htype
  omega

def typedSize (num : ℤ) : ColumnType → Option ℤ
  | .X => (int (num + 7)).map fun bits => max 1 (bits / 8)
  | .L | .B | .A => some (max 1 num)
  | .I => int (2 * max 1 num)
  | .J | .E => int (4 * max 1 num)
  | .K | .D | .C => int (8 * max 1 num)
  | .M => int (16 * max 1 num)

theorem int_natCast_eq_some_iff {n : ℕ} {v : ℤ} :
    int n = some v ↔ n < 2147483648 ∧ v = n := by
  constructor
  · intro h
    have hle := le_of_int h
    exact ⟨by omega, hle.1⟩
  · rintro ⟨hn, rfl⟩
    exact int_natCast hn

theorem typedSize_eq_some_iff {n : ℕ} (hn : n < 2147483648) {type : ColumnType} {v : ℤ} :
    typedSize n type = some v ↔
      (type = .X → n + 7 < 2147483648) ∧ type.bytes (max 1 n) < 2147483648 ∧
        v = (type.bytes (max 1 n) : ℕ) := by
  have hmax : max 1 (n : ℤ) = (max 1 n : ℕ) := by
    push_cast
    rfl
  have hscaled : ∀ k : ℕ, int (k * max 1 (n : ℤ)) = some v ↔
      k * max 1 n < 2147483648 ∧ v = (k * max 1 n : ℕ) := by
    intro k
    rw [hmax, ← Nat.cast_mul, int_natCast_eq_some_iff]
  have hplain : some (max 1 (n : ℤ)) = some v ↔ max 1 n < 2147483648 ∧ v = (max 1 n : ℕ) := by
    rw [hmax, Option.some.injEq]
    constructor
    · rintro rfl
      exact ⟨by omega, rfl⟩
    · rintro ⟨-, rfl⟩
      rfl
  cases type with
  | X =>
    rw [typedSize, Option.map_eq_some_iff, ColumnType.bytes]
    constructor
    · rintro ⟨bits, hbits, rfl⟩
      obtain ⟨hfits, rfl⟩ := int_natCast_eq_some_iff (n := n + 7).mp hbits
      exact ⟨fun _ => hfits, by omega, by omega⟩
    · rintro ⟨hfits, -, rfl⟩
      exact ⟨(n + 7 : ℕ), int_natCast (hfits rfl), by omega⟩
  | L | B | A => exact hplain.trans (and_iff_right fun h => by cases h).symm
  | I => exact (hscaled 2).trans (and_iff_right fun h => by cases h).symm
  | J | E => exact (hscaled 4).trans (and_iff_right fun h => by cases h).symm
  | K | D | C => exact (hscaled 8).trans (and_iff_right fun h => by cases h).symm
  | M => exact (hscaled 16).trans (and_iff_right fun h => by cases h).symm

theorem atoi_digits {ds : List UInt8} (hds : ∀ c ∈ ds, isDigit c = true) :
    atoi (ds ++ [0]) = int (decimal ds) := by
  by_cases hne : ds = []
  · rw [hne]
    rfl
  · rw [atoi, number_digits hne hds rfl]
    rfl

theorem getTypeSize_eq_typedSize {f : Form} (hextra : f.extra = []) :
    getTypeSize f.text = (int (decimal f.digits)).bind fun num => typedSize num f.type := by
  have hlast : f.text.getLast? = some f.type.letter := by
    rw [Form.text, hextra, List.getLast?_concat]
  have hdrop : f.text.dropLast = f.digits := by
    rw [Form.text, hextra, List.dropLast_concat]
  simp only [getTypeSize, hlast, hdrop, atoi_digits f.all_digits, Option.bind_eq_bind]
  refine Option.bind_congr fun num hnum => ?_
  obtain ⟨rfl, -⟩ := le_of_int hnum
  cases f.type <;> simp +decide only [if_true, if_false, typedSize]
  cases hbits : int ((decimal f.digits : ℤ) + 7) with
  | none => rfl
  | some bits =>
    obtain ⟨rfl, -⟩ := le_of_int hbits
    rw [Option.bind_some, Int.tdiv_eq_ediv_of_nonneg (by positivity), Option.map_some]

theorem getTypeSize_form {f : Form} (hextra : f.extra = []) (hsize : formSize f < 2147483648)
    (hbits : f.type = .X → f.count + 7 < 2147483648) :
    getTypeSize f.text = some (formSize f : ℤ) := by
  have hcount := max_one_decimal f
  have hfits := decimal_lt_of_formSize hsize hbits
  rw [getTypeSize_eq_typedSize hextra, int_natCast hfits, Option.bind_some,
    typedSize_eq_some_iff hfits, hcount]
  exact ⟨fun htype => by have := hbits htype; omega, hsize, rfl⟩

theorem blank_not_mem_form {f : Form} (hextra : f.extra = []) : blank ∉ f.text := by
  intro hmem
  rw [Form.text, hextra] at hmem
  cases List.mem_append.mp hmem with
  | inl hmem => exact absurd (isSpace_of_isDigit (f.all_digits blank hmem)) (by decide)
  | inr hmem =>
    have hletter := List.mem_singleton.mp hmem
    revert hletter
    cases f.type <;> decide

section Strings

variable {text rest : List UInt8}

theorem isSpace_of_printable {c : UInt8} (hc : 32 ≤ c) : isSpace c = (c == blank) := by
  have hcode : blank = 32 := rfl
  rw [isSpace, hcode]
  grind

theorem head?_dropWhile_blank (text : List UInt8) {c : UInt8}
    (hc : c ∈ (text.dropWhile (· == blank)).head?) :
    c ≠ blank := by
  have h := List.head?_dropWhile_not (· == blank) text
  rw [Option.mem_def.mp hc] at h
  simpa using h

theorem dropWhile_isSpace (hprint : Printable text) (hrest : ∀ c ∈ rest.head?, isSpace c = false) :
    (text ++ rest).dropWhile isSpace = text.dropWhile (· == blank) ++ rest := by
  induction text with
  | nil => exact @dropWhile_run _ _ [] _ nofun hrest
  | cons c text ih =>
    have hspace := isSpace_of_printable (hprint c List.mem_cons_self).1
    rw [List.cons_append, List.dropWhile_cons, List.dropWhile_cons, hspace]
    split
    · exact ih fun d hd => hprint d (List.mem_cons_of_mem _ hd)
    · rfl

theorem inWord_of_printable {c : UInt8} (hc : 32 ≤ c) : inWord c = (c != blank) := by
  have hcode : blank = 32 := rfl
  rw [inWord, isSpace_of_printable hc, hcode]
  grind

theorem hdrGetStringValue_quoted (hprint : Printable text) (hquote : quote ∉ text)
    (hlength : text.length < 79) (hzero : 0 ∈ rest) :
    hdrGetStringValue (quote :: (text ++ quote :: blank :: rest)) = some (firstWord text) := by
  have hskip : (text ++ quote :: blank :: rest).dropWhile isSpace =
      text.dropWhile (· == blank) ++ quote :: blank :: rest :=
    dropWhile_isSpace hprint fun c hc => Option.some.inj hc ▸ rfl
  have hsplit := List.takeWhile_append_dropWhile (p := (· != blank))
    (l := text.dropWhile (· == blank))
  have hsub : ∀ c ∈ firstWord text, c ∈ text := fun c hc =>
    (List.dropWhile_sublist _).subset ((List.takeWhile_sublist _).subset hc)
  have hword : ∀ c ∈ firstWord text, inWord c = true := by
    intro c hc
    rw [inWord_of_printable (hprint c (hsub c hc)).1]
    exact List.mem_takeWhile_imp (p := (· != blank)) hc
  have hshort : (firstWord text).length ≤ text.length :=
    ((List.takeWhile_sublist _).trans (List.dropWhile_sublist _)).length_le
  have hopen : ¬ (0 ∉ quote :: (text ++ quote :: blank :: rest) ∨ quote ≠ quote) := by
    simp [hzero]
  simp only [hdrGetStringValue, if_neg hopen, hskip]
  change firstWord text ++ _ = _ at hsplit
  cases hafter : (text.dropWhile (· == blank)).dropWhile (· != blank) with
  | nil =>
    -- the word reaches the closing quote, which is read with it and taken off
    rw [hafter, List.append_nil] at hsplit
    have hrun : (firstWord text ++ [quote] ++ blank :: rest).takeWhile inWord =
        firstWord text ++ [quote] := by
      refine takeWhile_run ?_ fun _ hd => Option.some.inj hd ▸ rfl
      intro c hc
      cases List.mem_append.mp hc with
      | inl hc => exact hword c hc
      | inr hc => exact List.mem_singleton.mp hc ▸ rfl
    rw [← hsplit, ← List.singleton_append (l := blank :: rest), ← List.append_assoc, hrun]
    simp [FITS_LINE_LENGTH, hshort.trans_lt hlength]
  | cons c after =>
    have hc : c = blank := by
      have h := List.head?_dropWhile_not (· != blank) (text.dropWhile (· == blank))
      rw [hafter] at h
      simpa using h
    have hne : firstWord text ≠ [] := by
      intro h
      rw [h, hafter, List.nil_append] at hsplit
      exact head?_dropWhile_blank text (by rw [← hsplit]; rfl) hc
    have hlast : (firstWord text).getLast? ≠ some quote := fun h =>
      hquote (hsub quote (List.mem_of_getLast? h))
    have hrun : (firstWord text ++ c :: (after ++ quote :: blank :: rest)).takeWhile inWord =
        firstWord text :=
      takeWhile_run hword fun _ hd => Option.some.inj hd ▸ hc ▸ rfl
    have hfits : ¬ (firstWord text = [] ∨ FITS_LINE_LENGTH ≤ (firstWord text).length) := by
      rw [not_or, not_le]
      exact ⟨hne, by unfold FITS_LINE_LENGTH; omega⟩
    rw [← hsplit, hafter, List.append_assoc, List.cons_append, hrun, if_neg hfits, if_neg hlast]

theorem hdrGetStringValue_field {f : StringField} {value : List UInt8} (hf : f.Says value)
    (hplain : f.Plain) (hprint : Printable f.text) (hlength : f.text.length < 79)
    (hzero : 0 ∈ rest) : hdrGetStringValue (f.bytes ++ rest) = some (firstWord value) := by
  obtain ⟨hlead, hquote, htail⟩ := hplain
  obtain ⟨pad, htext⟩ := hf.text hquote
  cases hf : f.tail with
  | nil => simp [hf] at htail
  | cons c tail =>
    have hc : c = blank := by simpa [hf] using htail
    have hbytes : f.bytes ++ rest = quote :: (f.text ++ quote :: blank :: (tail ++ rest)) := by
      simp [StringField.bytes, hlead, hf, hc]
    rw [hbytes, hdrGetStringValue_quoted hprint hquote hlength (List.mem_append_right _ hzero),
      htext, firstWord_append_blanks]

end Strings

def readCard (t : Table) (m : Meta) : Card → Meta
  | .naxis1 _ => { m with naxis1 := t.rowSize }
  | .naxis2 _ => { m with naxis2 := t.rows.length }
  | .tfields _ => m.setTfields t.columns.length
  | .ttype digits _ =>
    match t.columns[decimal digits - 1]? with
    | none => m
    | some column => m.setName (decimal digits) column.name
  | .tform digits _ =>
    match t.columns[decimal digits - 1]? with
    | none => m
    | some column => m.setSize (decimal digits) (formSize column.form)
  | .other _ => m

section Lines

theorem startsWith_append {bytes : List UInt8} {keyword : String}
    (hlength : (ascii keyword).length ≤ bytes.length) (h : ¬ ascii keyword <+: bytes)
    (rest : List UInt8) : startsWith (bytes ++ rest) keyword = false := by
  rw [startsWith, Bool.eq_false_iff]
  intro hprefix
  exact h (List.prefix_of_prefix_length_le (List.isPrefixOf_iff_prefix.mp hprefix)
    (List.prefix_append _ _) hlength)

def number (t : Table) : Card → Option (String × ℕ)
  | .naxis1 _ => some ("NAXIS1  = ", t.rowSize)
  | .naxis2 _ => some ("NAXIS2  = ", t.rows.length)
  | .tfields _ => some ("TFIELDS = ", t.columns.length)
  | _ => none

theorem number_unique {t : Table} {card other : Card} {keyword : String} {n k : ℕ}
    (h : number t card = some (keyword, n)) (h' : number t other = some (keyword, k)) : k = n := by
  cases card with
  | naxis1 | naxis2 | tfields =>
    obtain ⟨rfl, rfl⟩ := Prod.mk.inj (Option.some.inj h)
    cases other <;> simp_all [number]
  | _ => cases h

theorem startsWith_card {t : Table} {card : Card} (hcard : card.Says t)
    (hlength : card.bytes.length = 80) (tail : List UInt8) :
    ∀ keyword ∈ ["END       ", "NAXIS1  = ", "NAXIS2  = ", "TFIELDS = "],
      startsWith (card.bytes ++ tail) keyword = ((number t card).map Prod.fst == some keyword) := by
  cases card with
  | other bytes =>
    intro keyword hkeyword
    refine startsWith_append ?_ (fun h => hcard (.inl ⟨keyword, hkeyword, h⟩)) tail
    change bytes.length = 80 at hlength
    rw [hlength]
    revert keyword
    decide
  | ttype digits field =>
    simp only [Card.bytes, indexed, List.append_assoc]
    exact List.map_inj_left.mp rfl
  | tform digits field =>
    simp only [Card.bytes, indexed, List.append_assoc]
    exact List.map_inj_left.mp rfl
  | _ => exact List.map_inj_left.mp rfl

def kinds (line : List UInt8) : List Bool :=
  ["END       ", "NAXIS1  = ", "NAXIS2  = ", "TFIELDS = ", "TTYPE", "TFORM"].map (startsWith line)

variable {rest : List UInt8}

theorem scanLine_naxis1 {f : IntField} {n : ℕ} (hf : f.Says n) (hn : n < 2147483648) (m : Meta) :
    scanLine (ascii "NAXIS1  = " ++ (f.bytes ++ rest)) m = some { m with naxis1 := n } := by
  have hkinds : kinds (ascii "NAXIS1  = " ++ (f.bytes ++ rest)) =
      [false, true, false, false, false, false] := rfl
  have hdrop : (ascii "NAXIS1  = " ++ (f.bytes ++ rest)).drop 10 = f.bytes ++ rest := rfl
  simp only [kinds, List.map, List.cons.injEq] at hkinds
  simp [scanLine, hkinds, hdrop, hdrGetIntValue_field hf hn]

theorem scanLine_naxis2 {f : IntField} {n : ℕ} (hf : f.Says n) (hn : n < 2147483648) (m : Meta) :
    scanLine (ascii "NAXIS2  = " ++ (f.bytes ++ rest)) m = some { m with naxis2 := n } := by
  have hkinds : kinds (ascii "NAXIS2  = " ++ (f.bytes ++ rest)) =
      [false, false, true, false, false, false] := rfl
  have hdrop : (ascii "NAXIS2  = " ++ (f.bytes ++ rest)).drop 10 = f.bytes ++ rest := rfl
  simp only [kinds, List.map, List.cons.injEq] at hkinds
  simp [scanLine, hkinds, hdrop, hdrGetIntValue_field hf hn]

theorem scanLine_tfields {f : IntField} {n : ℕ} (hf : f.Says n) (hn : n < 2147483648) (m : Meta) :
    scanLine (ascii "TFIELDS = " ++ (f.bytes ++ rest)) m = some (m.setTfields n) := by
  have hkinds : kinds (ascii "TFIELDS = " ++ (f.bytes ++ rest)) =
      [false, false, false, true, false, false] := rfl
  have hdrop : (ascii "TFIELDS = " ++ (f.bytes ++ rest)).drop 10 = f.bytes ++ rest := rfl
  simp only [kinds, List.map, List.cons.injEq] at hkinds
  simp [scanLine, hkinds, hdrop, hdrGetIntValue_field hf hn]

theorem drop_indexed (keyword : String) {ds : List UInt8} (hkeyword : (ascii keyword).length = 5)
    (hds : Index ds) (tail : List UInt8) :
    (indexed keyword ds ++ tail).drop 5 =
        ds ++ (List.replicate (3 - ds.length) blank ++ (ascii "= " ++ tail)) ∧
      (indexed keyword ds ++ tail).drop 10 = tail := by
  constructor
  · rw [indexed, List.append_assoc, List.append_assoc, List.append_assoc,
      List.drop_left' hkeyword]
  · exact List.drop_left' (length_indexed hkeyword hds)

theorem scanLine_ttype {ds : List UInt8} {f : StringField} {string : List UInt8} (hds : Index ds)
    (hread : ∀ rest, 0 ∈ rest → hdrGetStringValue (f.bytes ++ rest) = some string)
    (hzero : 0 ∈ rest) (m : Meta) :
    scanLine (indexed "TTYPE" ds ++ (f.bytes ++ rest)) m =
      some (m.setName (decimal ds) string) := by
  have hkinds : kinds (indexed "TTYPE" ds ++ (f.bytes ++ rest)) =
      [false, false, false, false, true, false] := by
    simp only [indexed, List.append_assoc]
    rfl
  obtain ⟨hfive, hten⟩ := drop_indexed "TTYPE" rfl hds (f.bytes ++ rest)
  simp only [kinds, List.map, List.cons.injEq] at hkinds
  simp [scanLine, hkinds, hfive, hten, sscanfIndex_digits hds (List.mem_append_right _ hzero),
    hread rest hzero]

theorem scanLine_tform {ds : List UInt8} {f : StringField} {string : List UInt8} {size : ℤ}
    (hds : Index ds) (hread : ∀ rest, 0 ∈ rest → hdrGetStringValue (f.bytes ++ rest) = some string)
    (hsize : getTypeSize string = some size) (hzero : 0 ∈ rest) (m : Meta) :
    scanLine (indexed "TFORM" ds ++ (f.bytes ++ rest)) m =
      some (m.setSize (decimal ds) size) := by
  have hkinds : kinds (indexed "TFORM" ds ++ (f.bytes ++ rest)) =
      [false, false, false, false, false, true] := by
    simp only [indexed, List.append_assoc]
    rfl
  obtain ⟨hfive, hten⟩ := drop_indexed "TFORM" rfl hds (f.bytes ++ rest)
  simp only [kinds, List.map, List.cons.injEq] at hkinds
  simp [scanLine, hkinds, hfive, hten, sscanfIndex_digits hds (List.mem_append_right _ hzero),
    hread rest hzero, hsize]

theorem scanLine_other {t : Table} {bytes : List UInt8} (hlength : bytes.length = 80)
    (hreserved : ¬ Reserved bytes) (hread : Understands t (.other bytes)) (hzero : 0 ∈ rest)
    (m : Meta) :
    startsWith (bytes ++ rest) "END       " = false ∧ scanLine (bytes ++ rest) m = some m := by
  have hkeyword : ∀ keyword ∈ ["END       ", "NAXIS1  = ", "NAXIS2  = ", "TFIELDS = "],
      startsWith (bytes ++ rest) keyword = false := by
    intro keyword hkeyword
    refine startsWith_append ?_ (fun h => hreserved (.inl ⟨keyword, hkeyword, h⟩)) rest
    rw [hlength]
    revert keyword
    decide
  -- a keyword such as `TTYPES` has no number after its five letters
  have hindex : ∀ keyword ∈ ["TTYPE", "TFORM"], startsWith (bytes ++ rest) keyword = true →
      sscanfIndex ((bytes ++ rest).drop 5) = some none := by
    intro keyword hkeyword hstarts
    have hprefix : ascii keyword <+: bytes := by
      by_contra h
      rw [startsWith_append _ h] at hstarts
      · cases hstarts
      · have hshort : ∀ keyword ∈ ["TTYPE", "TFORM"], (ascii keyword).length ≤ 80 := by decide
        rw [hlength]
        exact hshort keyword hkeyword
    rw [List.drop_append_of_le_length (by omega)]
    refine hread ?_ rest hzero
    cases List.mem_pair.mp hkeyword with
    | inl hkeyword => exact .inl (hkeyword ▸ hprefix)
    | inr hkeyword => exact .inr (hkeyword ▸ hprefix)
  simp only [List.forall_mem_cons] at hkeyword hindex
  refine ⟨hkeyword.1, ?_⟩
  cases httype : startsWith (bytes ++ rest) "TTYPE" <;>
    cases htform : startsWith (bytes ++ rest) "TFORM" <;>
      simp_all [scanLine]

end Lines

variable {f : EventFile}

theorem width_le_formSize (form : Form) : form.width ≤ formSize form := by
  have hle := Nat.le_max_right 1 form.count
  unfold Form.width formSize
  cases form.type <;> simp only [ColumnType.bytes] <;> omega

theorem rowSize_le (t : Table) :
    t.rowSize ≤ (t.columns.map fun column => formSize column.form).sum :=
  List.sum_le_sum fun column _ => width_le_formSize column.form

theorem setName_congr {m : Meta} {i : ℤ} {v w : List UInt8}
    (h : ∀ name ∈ ["X", "Y", "PI"], v = ascii name ↔ w = ascii name) :
    m.setName i v = m.setName i w := by
  simp only [List.forall_mem_cons] at h
  simp only [Meta.setName, h]

theorem scanLine_card (hread : Understood f) {card : Card} (hcard : card ∈ f.cards) (m : Meta)
    {rest : List UInt8} (hzero : 0 ∈ rest) :
    startsWith (card.bytes ++ rest) "END       " = false ∧
      scanLine (card.bytes ++ rest) m = some (readCard f.toTable m card) := by
  obtain ⟨htrue, hlength, -⟩ := f.true_cards card hcard
  have hcards := hread.cards card hcard
  cases card with
  | naxis1 field =>
    rw [Card.bytes, List.append_assoc]
    exact ⟨rfl, scanLine_naxis1 htrue ((rowSize_le _).trans_lt hread.sizes) m⟩
  | naxis2 field =>
    rw [Card.bytes, List.append_assoc]
    exact ⟨rfl, scanLine_naxis2 htrue hread.rows m⟩
  | tfields field =>
    rw [Card.bytes, List.append_assoc]
    exact ⟨rfl, scanLine_tfields htrue (f.length_columns_lt.trans (by norm_num)) m⟩
  | other bytes => exact scanLine_other hlength htrue hcards hzero m
  | ttype digits field =>
    obtain ⟨hindex, column, hcolumn, -⟩ := htrue
    obtain ⟨string, hstring, hnames⟩ := hcards column hcolumn
    rw [Card.bytes, List.append_assoc, readCard, hcolumn,
      scanLine_ttype hindex hstring hzero, setName_congr hnames]
    exact ⟨by rw [indexed]; simp only [List.append_assoc]; rfl, rfl⟩
  | tform digits field =>
    obtain ⟨hindex, column, hcolumn, -⟩ := htrue
    obtain ⟨string, hstring, hsize⟩ := hcards column hcolumn
    rw [Card.bytes, List.append_assoc, readCard, hcolumn,
      scanLine_tform hindex hstring hsize hzero]
    exact ⟨by rw [indexed]; simp only [List.append_assoc]; rfl, rfl⟩

theorem scanLines_cards (hread : Understood f) {cards : List Card} (hcards : cards ⊆ f.cards) (k : ℕ)
    {rest : List UInt8} (hzero : 0 ∈ rest) (m : Meta) :
    scanLines (cards.length + k) (cards.flatMap Card.bytes ++ rest) m =
      scanLines k rest (cards.foldl (readCard f.toTable) m) := by
  induction cards generalizing m with
  | nil => rw [List.length_nil, Nat.zero_add]; rfl
  | cons card cards ih =>
    have hcard := hcards List.mem_cons_self
    have hline := scanLine_card hread hcard m
      (List.mem_append_right (cards.flatMap Card.bytes) hzero)
    have hdrop : (card.bytes ++ (cards.flatMap Card.bytes ++ rest)).drop FITS_LINE_LENGTH =
        cards.flatMap Card.bytes ++ rest :=
      List.drop_left' (f.true_cards card hcard).2.1
    rw [List.length_cons, Nat.add_right_comm, List.flatMap_cons, List.append_assoc, scanLines,
      hline.1, hline.2, hdrop]
    exact ih (fun c hc => hcards (List.mem_cons_of_mem _ hc)) _

theorem scanLines_end (k : ℕ) (rest : List UInt8) (m : Meta) :
    scanLines (k + 1) (endCard ++ rest) m = some (true, m) := rfl

theorem readHeader_cards (hread : Understood f) {sxs rest : List UInt8} {cards : List Card}
    (hcards : cards ⊆ f.cards) {offset : ℕ} (hzero : 0 ∈ rest) (m : Meta)
    (hdrop : sxs.drop offset = cards.flatMap Card.bytes ++ (endCard ++ rest))
    (hlength : offset + 2880 * (cards.length / 36) + 2880 ≤ sxs.length) :
    readHeader sxs offset m =
      some (offset + 2880 * (cards.length / 36), cards.foldl (readCard f.toTable) m) := by
  have hblock : offset + FITS_CHUNK_LENGTH ≤ sxs.length := by
    unfold FITS_CHUNK_LENGTH
    omega
  induction hblocks : cards.length / 36 generalizing cards offset m with
  | zero =>
    have hscan : scanTableHeader (sxs.drop offset) m =
        some (true, cards.foldl (readCard f.toTable) m) := by
      have hrounds : FITS_CHUNK_LENGTH / FITS_LINE_LENGTH =
          cards.length + (35 - cards.length + 1) := by
        unfold FITS_CHUNK_LENGTH FITS_LINE_LENGTH
        omega
      rw [scanTableHeader, hdrop, hrounds,
        scanLines_cards hread hcards _ (List.mem_append_right _ hzero), scanLines_end]
    rw [readHeader, if_pos hblock, hscan]
    rfl
  | succ blocks ih =>
    have hlong : 36 ≤ cards.length := by omega
    have htake : cards.take 36 ⊆ f.cards := fun c hc => hcards (List.mem_of_mem_take hc)
    obtain ⟨hsplit, hfirst⟩ := split_block (f.length_card hcards) hlong
    rw [hsplit, List.append_assoc] at hdrop
    have hscan : scanTableHeader (sxs.drop offset) m =
        some (false, (cards.take 36).foldl (readCard f.toTable) m) := by
      have hrounds : FITS_CHUNK_LENGTH / FITS_LINE_LENGTH = (cards.take 36).length + 0 := by
        rw [List.length_take, min_eq_left hlong]
        rfl
      rw [scanTableHeader, hdrop, hrounds, scanLines_cards hread htake _
        (List.mem_append_right _ (List.mem_append_right _ hzero))]
      rfl
    have hnext : (cards.drop 36).length / 36 = blocks := by
      rw [List.length_drop]
      omega
    have hdrop' : sxs.drop (offset + FITS_CHUNK_LENGTH) =
        (cards.drop 36).flatMap Card.bytes ++ (endCard ++ rest) := by
      rw [← List.drop_drop, hdrop]
      exact List.drop_left' hfirst
    have hrest := ih (fun c hc => hcards (List.mem_of_mem_drop hc))
      ((cards.take 36).foldl (readCard f.toTable) m) hdrop' (by
        rw [hnext]
        unfold FITS_CHUNK_LENGTH
        omega) (by
        unfold FITS_CHUNK_LENGTH
        omega) hnext
    rw [readHeader, if_pos hblock, hscan]
    simp only [Option.bind_eq_bind, Option.bind_some, Bool.false_eq_true, if_false]
    rw [hrest, ← List.foldl_append, List.take_append_drop]
    unfold FITS_CHUNK_LENGTH
    exact congrArg (fun n => some (n, _)) (by ring)

theorem findTable_blocks {sxs rest : List UInt8} {blocks : List (List UInt8)} {offset : ℕ}
    (hlength : ∀ block ∈ blocks, block.length = 2880)
    (hfirst : ∀ block ∈ blocks, ¬ tableMark <+: block)
    (hdrop : sxs.drop offset = blocks.flatten ++ rest) (hmark : tableMark <+: rest)
    (hrest : 2880 ≤ rest.length) :
    findTable sxs offset = some (offset + 2880 * blocks.length) := by
  have hlong := congrArg List.length hdrop
  rw [List.length_drop, List.length_append] at hlong
  induction blocks generalizing offset with
  | nil =>
    have hfound : hasTableExtension (sxs.drop offset) = true := by
      rw [hdrop]
      exact List.isPrefixOf_iff_prefix.mpr hmark
    rw [findTable, if_pos (by unfold FITS_CHUNK_LENGTH; omega), if_pos hfound]
    rfl
  | cons block blocks ih =>
    have hblock := hlength block List.mem_cons_self
    have hother : hasTableExtension (sxs.drop offset) = false := by
      rw [hdrop, List.flatten_cons, List.append_assoc]
      exact startsWith_append (by rw [hblock]; decide) (hfirst block List.mem_cons_self) _
    have hnext : sxs.drop (offset + FITS_CHUNK_LENGTH) =
        blocks.flatten ++ rest := by
      rw [← List.drop_drop, hdrop, List.flatten_cons, List.append_assoc]
      exact List.drop_left' hblock
    have hlong' := congrArg List.length hnext
    rw [List.length_drop, List.length_append] at hlong'
    rw [findTable, if_pos (by unfold FITS_CHUNK_LENGTH; omega), hother]
    simp only [Bool.false_eq_true, if_false]
    rw [ih (fun b hb => hlength b (List.mem_cons_of_mem _ hb))
      (fun b hb => hfirst b (List.mem_cons_of_mem _ hb)) hnext hlong', List.length_cons]
    unfold FITS_CHUNK_LENGTH
    exact congrArg some (by ring)

section Layout

def PlainCard : Card → Prop
  | .ttype _ field => field.Plain
  | .tform _ field => field.Plain
  | .other bytes => ¬ ascii "TTYPE" <+: bytes ∧ ¬ ascii "TFORM" <+: bytes
  | _ => True

instance : DecidablePred PlainCard
  | .ttype _ field => inferInstanceAs (Decidable field.Plain)
  | .tform _ field => inferInstanceAs (Decidable field.Plain)
  | .other bytes => inferInstanceAs
      (Decidable (¬ ascii "TTYPE" <+: bytes ∧ ¬ ascii "TFORM" <+: bytes))
  | .naxis1 _ | .naxis2 _ | .tfields _ => instDecidableTrue

/-- The common layout: strings begin their field and a blank follows them, the first word of a
column's name tells the three columns apart, a form is a count and a type, all sizes are of
type `int`, and a zero byte stands behind the header. -/
structure Plain (f : EventFile) : Prop where
  ends : 0 ∈ f.rows.flatten ++ f.after
  cards : ∀ card ∈ f.cards, PlainCard card
  names : ∀ column ∈ f.columns, ∀ name ∈ ["X", "Y", "PI"],
    firstWord column.name = ascii name → column.name = ascii name
  forms : ∀ column ∈ f.columns, column.form.extra = []
  bits : ∀ column ∈ f.columns, column.form.type = .X → column.form.count + 7 < 2147483648
  sizes : (f.columns.map fun column => formSize column.form).sum < 2147483648
  rows : f.rows.length < 2147483648

theorem text_of_card {keyword : String} {digits : List UInt8} {field : StringField}
    (hkeyword : (ascii keyword).length = 5) (hdigits : Index digits)
    (hlength : (indexed keyword digits ++ field.bytes).length = 80)
    (hprint : Printable (indexed keyword digits ++ field.bytes)) :
    Printable field.text ∧ field.text.length < 79 := by
  rw [List.length_append, length_indexed hkeyword hdigits, StringField.bytes,
    List.length_append, List.length_append, List.length_cons] at hlength
  refine ⟨fun c hc => hprint c (List.mem_append_right _ ?_), by omega⟩
  exact List.mem_append_left _ (List.mem_append_right _ (List.mem_cons_of_mem _ hc))

theorem firstWord_name : ∀ name ∈ ["X", "Y", "PI"], firstWord (ascii name) = ascii name := by
  decide

theorem understood_of_plain (hplain : Plain f) : Understood f := by
  refine ⟨hplain.ends, ?_, hplain.sizes, hplain.rows⟩
  intro card hcard
  obtain ⟨htrue, hlength, hprint⟩ := f.true_cards card hcard
  have hlayout := hplain.cards card hcard
  cases card with
  | ttype digits field =>
    intro column hcolumn
    obtain ⟨hindex, other, hother, hname⟩ := htrue
    rw [hcolumn, Option.some.injEq] at hother
    rw [← hother] at hname
    obtain ⟨htext, hshort⟩ := text_of_card rfl hindex hlength hprint
    refine ⟨_, fun rest => hdrGetStringValue_field hname hlayout htext hshort, ?_⟩
    intro name hmem
    refine ⟨hplain.names column (List.mem_of_getElem? hcolumn) name hmem, ?_⟩
    intro heq
    rw [heq, firstWord_name name hmem]
  | tform digits field =>
    intro column hcolumn
    obtain ⟨hindex, other, hother, hform⟩ := htrue
    rw [hcolumn, Option.some.injEq] at hother
    rw [← hother] at hform
    obtain ⟨htext, hshort⟩ := text_of_card rfl hindex hlength hprint
    have hmem := List.mem_of_getElem? hcolumn
    have hextra := hplain.forms column hmem
    have hsize : formSize column.form < 2147483648 :=
      (List.le_sum_of_mem (List.mem_map_of_mem hmem)).trans_lt hplain.sizes
    refine ⟨_, fun rest => hdrGetStringValue_field hform hlayout htext hshort, ?_⟩
    rw [firstWord_eq (blank_not_mem_form hextra)]
    exact getTypeSize_form hextra hsize (hplain.bits column hmem)
  | other bytes => exact fun h => absurd h (not_or.mpr hlayout)
  | _ => trivial

end Layout

end XWebQL.SxsHeader
