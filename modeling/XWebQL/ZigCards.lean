import XWebQL.SxsHeader
import XWebQL.ZigReader

/-! What the `scan_table_header` of `read_events` makes of one card. -/

namespace XWebQL.ZigCards

open AsciiText FitsTable ZigReader
open SxsReader (startsWith)
open SxsHeader (formSize kinds)

/-- What the reader takes for a string. It loses the character before the closing quote. -/
def readText (f : StringField) : List UInt8 := trim f.text.dropLast

section Slices

variable {a b s : List UInt8} {c : UInt8}

theorem slice_append (a b s : List UInt8) :
    slice (a ++ (b ++ s)) a.length (a.length + b.length) = some b := by
  rw [slice, if_pos ⟨by omega, by simp only [List.length_append]; omega⟩, ← List.append_assoc,
    ← List.length_append, List.take_left, List.drop_left]

theorem indexOf_append (ha : c ∉ a) (hs : s.head? = some c) :
    indexOf (a ++ s) c = some a.length := by
  have hmem : c ∈ a ++ s := List.mem_append_right _ (List.mem_of_mem_head? hs)
  rw [indexOf, if_pos hmem, takeWhile_run]
  · intro d hd
    exact bne_iff_ne.mpr fun h => ha (h ▸ hd)
  · intro d hd
    rw [hs, Option.mem_some_iff] at hd
    simp [hd]

theorem indexOf_none (ha : c ∉ a) : indexOf a c = none := by
  rw [indexOf, if_neg ha]

theorem trim_blanks {w : List UInt8} (hw : ∀ c ∈ w, isTrimmed c = false) (j k : ℕ) :
    trim (List.replicate j blank ++ (w ++ List.replicate k blank)) = w := by
  have hblanks : ∀ n, ∀ c ∈ List.replicate n blank, isTrimmed c = true := by
    intro n c hc
    rw [List.eq_of_mem_replicate hc]
    rfl
  cases w with
  | nil =>
    have hall : ∀ c ∈ List.replicate j blank ++ ([] ++ List.replicate k blank),
        isTrimmed c = true := by
      rw [List.nil_append, ← List.replicate_add]
      exact hblanks _
    rw [trim, List.dropWhile_eq_nil_iff.mpr hall, List.rdropWhile_nil]
  | cons d w =>
    rw [trim, dropWhile_run (hblanks j), List.rdropWhile, List.reverse_append,
      List.reverse_replicate, dropWhile_run (hblanks k), List.reverse_reverse]
    · intro c hc
      exact hw c (List.mem_reverse.mp (List.mem_of_mem_head? hc))
    · intro c hc
      exact Option.some.inj hc ▸ hw d List.mem_cons_self

theorem trim_of_clean {w : List UInt8} (hw : ∀ c ∈ w, isTrimmed c = false) : trim w = w := by
  have h := trim_blanks hw 0 0
  rwa [List.replicate_zero, List.nil_append, List.append_nil] at h

theorem trim_concat_of_isTrimmed (text : List UInt8) (hc : isTrimmed c = true) :
    trim (text ++ [c]) = trim text := by
  rw [trim, trim, List.dropWhile_append]
  split
  · rename_i h
    rw [List.isEmpty_iff.mp h, List.dropWhile_cons_of_pos hc, List.dropWhile_nil]
  · exact List.rdropWhile_concat_pos _ _ _ hc

theorem trim_concat_of_kept (text : List UInt8) (hc : isTrimmed c = false) :
    trim (text ++ [c]) = text.dropWhile isTrimmed ++ [c] := by
  have hneg : ¬isTrimmed c = true := by simp [hc]
  have hdrop : (text ++ [c]).dropWhile isTrimmed = text.dropWhile isTrimmed ++ [c] := by
    rw [List.dropWhile_append]
    split
    · rename_i h
      rw [List.isEmpty_iff.mp h, List.dropWhile_cons_of_neg hneg, List.nil_append]
    · rfl
  rw [trim, hdrop, List.rdropWhile_concat_neg _ _ _ hneg]

end Slices

section Numbers

variable {ds : List UInt8}

theorem isSpace_of_isTrimmed {c : UInt8} (hc : isTrimmed c = true) : isSpace c = true := by
  simp only [isTrimmed, Bool.or_eq_true, beq_iff_eq] at hc
  rcases hc with ((rfl | rfl) | rfl) | rfl <;> decide

theorem isTrimmed_of_isDigit {c : UInt8} (hc : isDigit c = true) : isTrimmed c = false := by
  rw [← Bool.not_eq_true]
  intro htrimmed
  have hspace := isSpace_of_isTrimmed htrimmed
  rw [isSpace_of_isDigit hc] at hspace
  cases hspace

theorem parseDigits_digits (hne : ds ≠ []) (hds : ∀ c ∈ ds, isDigit c = true) :
    parseDigits ds = some (decimal ds : ℤ) := by
  have hunder : ∀ c ∈ ds, c ≠ code '_' := fun c hc => ne_of_isDigit (hds c hc) (by decide)
  have hfilter : ds.filter (· != code '_') = ds :=
    List.filter_eq_self.mpr fun c hc => bne_iff_ne.mpr (hunder c hc)
  rw [parseDigits, if_neg, hfilter, if_pos (List.all_eq_true.mpr hds)]
  rw [not_or, not_or]
  exact ⟨hne, fun h => hunder _ (List.mem_of_mem_head? h) rfl,
    fun h => hunder _ (List.mem_of_getLast? h) rfl⟩

theorem parseDigits_none {buf : List UInt8} {c : UInt8} (hc : c ∈ buf) (hunder : c ≠ code '_')
    (hdigit : isDigit c = false) : parseDigits buf = none := by
  unfold parseDigits
  split_ifs with hends hall
  · rfl
  · have h := List.all_eq_true.mp hall c (List.mem_filter.mpr ⟨hc, bne_iff_ne.mpr hunder⟩)
    rw [hdigit] at h
    cases h
  · rfl

theorem parseInt_digits {low high : ℤ} (hne : ds ≠ []) (hds : ∀ c ∈ ds, isDigit c = true) :
    parseInt low high ds =
      if low ≤ decimal ds ∧ (decimal ds : ℤ) ≤ high then some (decimal ds : ℤ) else none := by
  have hread := parseDigits_digits hne hds
  cases ds with
  | nil => exact absurd rfl hne
  | cons c ds =>
    have hc := hds c List.mem_cons_self
    have hplus : c ≠ code '+' := ne_of_isDigit hc (by decide)
    have hminus : c ≠ code '-' := ne_of_isDigit hc (by decide)
    simp only [parseInt, if_neg hplus, if_neg hminus, hread, Option.bind_eq_bind,
      Option.bind_some]

theorem parseInt_plus {low high : ℤ} (hne : ds ≠ []) (hds : ∀ c ∈ ds, isDigit c = true) :
    parseInt low high (code '+' :: ds) =
      if low ≤ decimal ds ∧ (decimal ds : ℤ) ≤ high then some (decimal ds : ℤ) else none := by
  simp only [parseInt, if_true, parseDigits_digits hne hds, Option.bind_eq_bind,
    Option.bind_some]

def written (f : IntField) : List UInt8 := (if f.plus then [code '+'] else []) ++ f.digits

theorem parseInt_written {f : IntField} (hne : f.digits ≠ [])
    (hdigits : ∀ c ∈ f.digits, isDigit c = true) :
    parseInt 0 18446744073709551615 (written f) =
      if decimal f.digits < 18446744073709551616 then some (decimal f.digits : ℤ) else none := by
  have hrange : ((0 : ℤ) ≤ decimal f.digits ∧ (decimal f.digits : ℤ) ≤ 18446744073709551615) ↔
      decimal f.digits < 18446744073709551616 := by omega
  unfold written
  split
  · rw [List.singleton_append, parseInt_plus hne hdigits]
    simp only [hrange]
  · rw [List.nil_append, parseInt_digits hne hdigits]
    simp only [hrange]

theorem mem_written {f : IntField} (hdigits : ∀ c ∈ f.digits, isDigit c = true) {c : UInt8}
    (hc : c ∈ written f) : isTrimmed c = false ∧ c ≠ code '/' := by
  cases List.mem_append.mp hc with
  | inl hc =>
    split at hc
    · rw [List.mem_singleton.mp hc]
      decide
    · cases hc
  | inr hc =>
    have hdigit := hdigits c hc
    exact ⟨isTrimmed_of_isDigit hdigit, ne_of_isDigit hdigit (by decide)⟩

theorem hdrGetIntValue_digits {keyword : String} {f : IntField}
    (hkeyword : (ascii keyword).length = 10) (hslash : code '/' ∉ ascii keyword)
    (hlength : (ascii keyword ++ f.bytes).length = 80) (hne : f.digits ≠ [])
    (hdigits : ∀ c ∈ f.digits, isDigit c = true) (hcomment : Comment f.tail) :
    hdrGetIntValue (ascii keyword ++ f.bytes) =
      if decimal f.digits < 18446744073709551616 then some (decimal f.digits) else none := by
  obtain ⟨pad, comment, htail, hcomment⟩ := hcomment
  -- the part of the field before a comment
  obtain ⟨body, hbody⟩ : ∃ body,
      body = List.replicate f.lead blank ++ (written f ++ List.replicate pad blank) := ⟨_, rfl⟩
  have hbytes : f.bytes = body ++ comment := by
    rw [IntField.bytes, htail, hbody, written]
    simp only [List.append_assoc]
  have htrim : trim body = written f := by
    rw [hbody]
    exact trim_blanks (fun c hc => (mem_written hdigits hc).1) _ _
  have hclean : code '/' ∉ ascii keyword ++ body := by
    have hblanks : ∀ k, code '/' ∉ List.replicate k blank := by
      intro k h
      exact absurd (List.eq_of_mem_replicate h) (by decide)
    rw [hbody, List.mem_append, List.mem_append, List.mem_append, not_or, not_or, not_or]
    exact ⟨hslash, hblanks _, fun h => (mem_written hdigits h).2 rfl, hblanks _⟩
  have hslice := slice_append (ascii keyword) body comment
  have hnumber : (parseInt 0 18446744073709551615 (trim body)).bind (fun v => some v.toNat) =
      if decimal f.digits < 18446744073709551616 then some (decimal f.digits) else none := by
    rw [htrim, parseInt_written hne hdigits]
    split_ifs <;> rfl
  rw [hkeyword] at hslice
  rw [hbytes] at hlength ⊢
  cases comment with
  | nil =>
    have hend : 10 + body.length = FITS_LINE_LENGTH := by
      simpa [hkeyword, FITS_LINE_LENGTH] using hlength
    rw [hend] at hslice
    rw [hdrGetIntValue, List.append_nil, indexOf_none hclean]
    rw [List.append_nil] at hslice
    simp only [hslice, hnumber, Option.bind_eq_bind, Option.bind_some]
  | cons d comment =>
    have hd : d = code '/' := hcomment d rfl
    have hindex := indexOf_append hclean (s := d :: comment) (by rw [hd]; rfl)
    rw [List.length_append, hkeyword, List.append_assoc] at hindex
    rw [hdrGetIntValue, hindex]
    simp only [hslice, hnumber, Option.bind_eq_bind, Option.bind_some]

theorem hdrGetIntValue_card {keyword : String} {f : IntField} {n : ℕ}
    (hkeyword : (ascii keyword).length = 10) (hslash : code '/' ∉ ascii keyword)
    (hlength : (ascii keyword ++ f.bytes).length = 80) (hf : f.Says n) (hn : n < 2147483648) :
    hdrGetIntValue (ascii keyword ++ f.bytes) = some n := by
  rw [hdrGetIntValue_digits hkeyword hslash hlength hf.written hf.all_digits hf.comment, hf.value,
    if_pos (by omega)]

end Numbers

section Strings

variable {f : StringField}

/-- The string after the first ten characters of a line. Where no character stands between the
quotes the slice ends before it begins. -/
theorem hdrGetStringValue_quoted {keyword first text tail : List UInt8}
    (hkeyword : keyword.length = 10)
    (hlength : (keyword ++ (first ++ quote :: (text ++ quote :: tail))).length = 80)
    (hfirst : quote ∉ first) (htext : quote ∉ text) :
    hdrGetStringValue (keyword ++ (first ++ quote :: (text ++ quote :: tail))) =
      if text = [] then none else some (some (trim text.dropLast)) := by
  obtain ⟨field, hfield⟩ : ∃ field, field = first ++ quote :: (text ++ quote :: tail) := ⟨_, rfl⟩
  have hslice : slice (keyword ++ field) 10 FITS_LINE_LENGTH = some field := by
    have h := slice_append keyword field []
    rw [← hfield, List.length_append, hkeyword] at hlength
    rw [List.append_nil, hkeyword, hlength] at h
    exact h
  have hopen : indexOf field quote = some first.length := by
    rw [hfield, indexOf_append hfirst rfl]
  have hsplit : field = (first ++ [quote]) ++ (text ++ quote :: tail) := by
    rw [hfield, List.append_assoc, List.singleton_append]
  have hopened : (first ++ [quote]).length = first.length + 1 := by
    rw [List.length_append, List.length_singleton]
  have hrest : slice field (first.length + 1) field.length = some (text ++ quote :: tail) := by
    have h := slice_append (first ++ [quote]) (text ++ quote :: tail) []
    rw [List.append_nil, ← List.length_append, ← hsplit, hopened] at h
    exact h
  have hclose : indexOf (text ++ quote :: tail) quote = some text.length :=
    indexOf_append htext rfl
  rw [← hfield]
  simp only [hdrGetStringValue, hslice, hopen, hrest, hclose, Option.bind_eq_bind,
    Option.bind_some]
  cases hvalue : text using List.reverseRecOn with
  | nil =>
    rw [slice, if_neg, if_pos rfl]
    · rfl
    · rw [List.length_nil]
      omega
  | append_singleton value c =>
    have h := slice_append (first ++ [quote]) value (c :: quote :: tail)
    have hend : first.length + (value ++ [c]).length = first.length + 1 + value.length := by
      rw [List.length_append, List.length_singleton]
      omega
    have hwhole : field = (first ++ [quote]) ++ (value ++ c :: quote :: tail) := by
      rw [hsplit, hvalue, List.append_assoc, List.append_assoc, List.append_assoc,
        List.singleton_append]
      rfl
    rw [← hwhole, hopened] at h
    rw [hend, h, if_neg (by simp), List.dropLast_concat]
    rfl

def seenText (f : StringField) : List UInt8 := f.text.takeWhile (· != quote)

def shownText (f : StringField) : List UInt8 := trim (seenText f).dropLast

theorem quote_not_mem_seenText (f : StringField) : quote ∉ seenText f := by
  intro h
  simpa using List.mem_takeWhile_imp h

theorem seenText_eq (hquote : quote ∉ f.text) : seenText f = f.text :=
  List.takeWhile_eq_self_iff.mpr fun _ hc => bne_iff_ne.mpr fun h => hquote (h ▸ hc)

theorem shownText_eq (hquote : quote ∉ f.text) : shownText f = readText f := by
  rw [shownText, seenText_eq hquote, readText]

theorem bytes_seenText (f : StringField) :
    ∃ tail, f.bytes = List.replicate f.lead blank ++ quote :: (seenText f ++ quote :: tail) := by
  have hbytes : f.bytes = List.replicate f.lead blank ++ quote :: (f.text ++ quote :: f.tail) := by
    rw [StringField.bytes]
    simp only [List.append_assoc, List.cons_append]
  have hsplit : seenText f ++ f.text.dropWhile (· != quote) = f.text :=
    List.takeWhile_append_dropWhile
  cases hrest : f.text.dropWhile (· != quote) with
  | nil =>
    rw [hrest, List.append_nil] at hsplit
    exact ⟨f.tail, by rw [hbytes, hsplit]⟩
  | cons c rest =>
    have hc : (c != quote) = false := by
      have hhead := List.head?_dropWhile_not (· != quote) f.text
      rw [hrest] at hhead
      simpa using hhead
    have heq : c = quote := by simpa using hc
    refine ⟨rest ++ quote :: f.tail, ?_⟩
    rw [hbytes, ← hsplit, hrest, heq]
    simp only [List.append_assoc, List.cons_append]

theorem hdrGetStringValue_field {keyword : List UInt8} (hkeyword : keyword.length = 10)
    (hlength : (keyword ++ f.bytes).length = 80) :
    hdrGetStringValue (keyword ++ f.bytes) =
      if seenText f = [] then none else some (some (shownText f)) := by
  obtain ⟨tail, hbytes⟩ := bytes_seenText f
  have hclean : quote ∉ List.replicate f.lead blank :=
    fun h => absurd (List.eq_of_mem_replicate h) (by decide)
  rw [hbytes] at hlength ⊢
  exact hdrGetStringValue_quoted hkeyword hlength hclean (quote_not_mem_seenText f)

theorem isTrimmed_of_printable {c : UInt8} (hc : 32 ≤ c) : isTrimmed c = (c == blank) := by
  have hcode : blank = 32 := rfl
  rw [isTrimmed, hcode]
  grind

theorem firstWord_of_trim {text : List UInt8} (hprint : Printable text)
    (hword : blank ∉ trim text) : firstWord text = trim text := by
  have hdrop : text.dropWhile (· == blank) = text.dropWhile isTrimmed :=
    dropWhile_congr fun c hc => (isTrimmed_of_printable (hprint c hc).1).symm
  have hsplit : trim text ++ (text.dropWhile isTrimmed).rtakeWhile isTrimmed =
      text.dropWhile isTrimmed := List.rdropWhile_append_rtakeWhile
  rw [firstWord, hdrop, ← hsplit, takeWhile_run]
  · intro c hc
    exact bne_iff_ne.mpr fun h => hword (h ▸ hc)
  · intro c hc
    have hmem := List.mem_of_mem_head? hc
    have hblank := List.mem_rtakeWhile_imp hmem
    have htext : c ∈ text := (List.dropWhile_sublist _).subset
      (hsplit ▸ List.mem_append_right _ hmem)
    rw [isTrimmed_of_printable (hprint c htext).1] at hblank
    simpa using hblank

/-- The character that is lost is a blank. -/
def Padded (f : StringField) : Prop := f.text.getLast? = some blank

instance (f : StringField) : Decidable (Padded f) :=
  inferInstanceAs (Decidable (f.text.getLast? = some blank))

theorem readText_padded (hpad : Padded f) : readText f = trim f.text := by
  obtain ⟨text, htext⟩ := List.getLast?_eq_some_iff.mp hpad
  rw [readText, htext, List.dropLast_concat, trim_concat_of_isTrimmed text rfl]

theorem text_of_unpadded {value : List UInt8} (hf : f.Says value) (hquote : quote ∉ f.text)
    (hpad : ¬ Padded f) : f.text = value := by
  obtain ⟨pad, htext⟩ := hf.text hquote
  cases pad with
  | zero => rw [htext, List.replicate_zero, List.append_nil]
  | succ pad =>
    refine absurd ?_ hpad
    rw [Padded, htext, List.replicate_succ', ← List.append_assoc, List.getLast?_concat]

theorem readText_eq_iff {value word : List UInt8} (hf : f.Says value) (hquote : quote ∉ f.text)
    (hprint : Printable f.text) (hpad : Padded f) (hword : ∀ c ∈ word, isTrimmed c = false)
    (hfirst : firstWord value = word → value = word) : readText f = word ↔ value = word := by
  obtain ⟨pad, htext⟩ := hf.text hquote
  rw [readText_padded hpad]
  constructor
  · intro h
    have hclean : blank ∉ trim f.text := fun hmem =>
      absurd (hword blank (h ▸ hmem)) (by decide)
    refine hfirst ?_
    rw [← firstWord_append_blanks value pad, ← htext, firstWord_of_trim hprint hclean, h]
  · intro h
    have htrim := trim_blanks hword 0 pad
    rw [List.replicate_zero, List.nil_append, ← h, ← htext] at htrim
    exact htrim.trans h

end Strings

section Forms

variable {form : Form} {field : StringField}

/-- The size that the reader takes from a form. Without its type, the form has the size 0. -/
def sizeRead (form : Form) (field : StringField) : ℕ :=
  if Padded field then formSize form else 0

theorem parseInt32_getD {ds : List UInt8} (hds : ∀ c ∈ ds, isDigit c = true) :
    (parseInt32 ds).getD 0 = if decimal ds < 2147483648 then (decimal ds : ℤ) else 0 := by
  by_cases hne : ds = []
  · rw [hne]
    rfl
  · rw [parseInt32, parseInt_digits hne hds]
    split_ifs with hread hfits
    · rfl
    · omega
    · omega
    · rfl

theorem getColumnSize_letter (count : List UInt8) (type : ColumnType) :
    getColumnSize (count ++ [type.letter]) =
      SxsHeader.typedSize ((parseInt32 count).getD 0) type := by
  simp only [getColumnSize, List.getLast?_concat, List.dropLast_concat]
  cases type <;> simp +decide only [if_true, if_false, SxsHeader.typedSize]
  rw [Option.map_eq_bind]
  rfl

theorem getColumnSize_eq_typedSize (hextra : form.extra = []) :
    getColumnSize form.text = SxsHeader.typedSize
      (if decimal form.digits < 2147483648 then (decimal form.digits : ℤ) else 0) form.type := by
  rw [Form.text, hextra, getColumnSize_letter, parseInt32_getD form.all_digits]

theorem getColumnSize_other {text : List UInt8} {c : UInt8} (hlast : text.getLast? = some c)
    (hc : ∀ type : ColumnType, c ≠ type.letter) : getColumnSize text = some 0 := by
  have hL := hc .L
  have hX := hc .X
  have hB := hc .B
  have hI := hc .I
  have hJ := hc .J
  have hK := hc .K
  have hA := hc .A
  have hE := hc .E
  have hD := hc .D
  have hC := hc .C
  have hM := hc .M
  simp only [ColumnType.letter] at *
  simp only [getColumnSize, hlast, hL, hX, hB, hI, hJ, hK, hA, hE, hD, hC, hM, if_false]

theorem isDigit_letter (type : ColumnType) : isDigit type.letter = false := by
  cases type <;> decide

theorem getColumnSize_form (hextra : form.extra = []) (hsize : formSize form < 2147483648)
    (hbits : form.type = .X → form.count + 7 < 2147483648) :
    getColumnSize form.text = some (formSize form : ℤ) := by
  have hcount := SxsHeader.max_one_decimal form
  have hfits := SxsHeader.decimal_lt_of_formSize hsize hbits
  rw [getColumnSize_eq_typedSize hextra, if_pos hfits, SxsHeader.typedSize_eq_some_iff hfits,
    hcount]
  exact ⟨fun htype => by have := hbits htype; omega, hsize, rfl⟩

theorem getColumnSize_digits {ds : List UInt8} (hne : ds ≠ []) (hds : ∀ c ∈ ds, isDigit c = true) :
    getColumnSize ds = some 0 := by
  have hdigit := hds _ (List.getLast_mem hne)
  exact getColumnSize_other (List.getLast?_eq_some_getLast hne) fun type =>
    ne_of_isDigit hdigit (isDigit_letter type)

theorem isTrimmed_form (hextra : form.extra = []) : ∀ c ∈ form.text, isTrimmed c = false := by
  intro c hc
  rw [Form.text, hextra] at hc
  cases List.mem_append.mp hc with
  | inl hc => exact isTrimmed_of_isDigit (form.all_digits c hc)
  | inr hc =>
    rw [List.mem_singleton.mp hc]
    cases form.type <;> decide

theorem readText_form (hf : field.Says form.text) (hquote : quote ∉ field.text)
    (hextra : form.extra = []) (hpad : Padded field) : readText field = form.text := by
  obtain ⟨pad, htext⟩ := hf.text hquote
  have htrim := trim_blanks (isTrimmed_form hextra) 0 pad
  rwa [List.replicate_zero, List.nil_append, ← htext, ← readText_padded hpad] at htrim

theorem form_ne_nil (form : Form) : form.text ≠ [] := by
  simp [Form.text]

/-- The size that is read. A type alone, in one character, is lost with nothing left of it. -/
theorem getColumnSize_readText (hf : field.Says form.text) (hquote : quote ∉ field.text)
    (hextra : form.extra = []) (hsize : formSize form < 2147483648)
    (hbits : form.type = .X → form.count + 7 < 2147483648) :
    getColumnSize (readText field) =
      if readText field = [] then none else some (sizeRead form field : ℤ) := by
  by_cases hpad : Padded field
  · rw [readText_form hf hquote hextra hpad, sizeRead, if_pos hpad,
      getColumnSize_form hextra hsize hbits, if_neg (form_ne_nil form)]
  · have hread : readText field = form.digits := by
      rw [readText, text_of_unpadded hf hquote hpad, Form.text, hextra, List.dropLast_concat]
      exact trim_of_clean fun c hc => isTrimmed_of_isDigit (form.all_digits c hc)
    rw [hread, sizeRead, if_neg hpad]
    split_ifs with hne
    · rw [hne]
      rfl
    · exact getColumnSize_digits hne form.all_digits

end Forms

section Lines

variable {keyword : String} {ds tail : List UInt8}

theorem indexed_append (keyword : String) (ds tail : List UInt8) :
    indexed keyword ds ++ tail =
      ascii keyword ++ (ds ++ (List.replicate (3 - ds.length) blank ++ (ascii "= " ++ tail))) := by
  simp only [indexed, List.append_assoc]

theorem blank_not_mem_digits (hds : Index ds) (hblank : blank ∉ ascii keyword) :
    blank ∉ ascii keyword ++ ds := by
  rw [List.mem_append, not_or]
  exact ⟨hblank, fun h => ne_of_isDigit (hds.all_digits _ h) (by decide) rfl⟩

theorem parseInt32_digits (hds : Index ds) : parseInt32 ds = some (decimal ds : ℤ) := by
  have hbound := hds.decimal_lt
  rw [parseInt32, parseInt_digits hds.written hds.all_digits, if_pos (by omega)]

theorem index_short (keyword : String) (hkeyword : (ascii keyword).length = 5)
    (hblank : blank ∉ ascii keyword) (hds : Index ds) (hshort : ds.length ≤ 2)
    (tail : List UInt8) :
    indexOf (indexed keyword ds ++ tail) blank = some (5 + ds.length) ∧
      slice (indexed keyword ds ++ tail) 5 (5 + ds.length) = some ds := by
  have hslice := slice_append (ascii keyword) ds
    (List.replicate (3 - ds.length) blank ++ (ascii "= " ++ tail))
  obtain ⟨k, hk⟩ : ∃ k, 3 - ds.length = k + 1 := ⟨2 - ds.length, by omega⟩
  have hindex := indexOf_append (blank_not_mem_digits hds hblank)
    (s := List.replicate (3 - ds.length) blank ++ (ascii "= " ++ tail)) (by rw [hk]; rfl)
  rw [List.length_append, hkeyword, List.append_assoc] at hindex
  rw [hkeyword] at hslice
  rw [indexed_append]
  exact ⟨hindex, hslice⟩

/-- With three digits the first blank comes after the equals sign. -/
theorem index_long (keyword : String) (hkeyword : (ascii keyword).length = 5)
    (hblank : blank ∉ ascii keyword) (hds : Index ds) (hlong : ds.length = 3)
    (tail : List UInt8) :
    indexOf (indexed keyword ds ++ tail) blank = some 9 ∧
      slice (indexed keyword ds ++ tail) 5 9 = some (ds ++ [code '=']) ∧
        parseInt32 (ds ++ [code '=']) = none := by
  have hbytes : indexed keyword ds ++ tail =
      ascii keyword ++ ((ds ++ [code '=']) ++ (blank :: tail)) := by
    rw [indexed_append, hlong, List.append_assoc]
    rfl
  have hslice := slice_append (ascii keyword) (ds ++ [code '=']) (blank :: tail)
  have hclean : blank ∉ ascii keyword ++ (ds ++ [code '=']) := by
    rw [← List.append_assoc, List.mem_append, not_or]
    exact ⟨blank_not_mem_digits hds hblank, by decide⟩
  have hindex := indexOf_append hclean (s := blank :: tail) rfl
  rw [List.append_assoc, List.length_append, List.length_append, hkeyword, hlong] at hindex
  rw [hkeyword, List.length_append, hlong] at hslice
  rw [hbytes]
  refine ⟨hindex, hslice, ?_⟩
  cases ds with
  | nil => cases hlong
  | cons c ds =>
    have hc := hds.all_digits c List.mem_cons_self
    have hplus : c ≠ code '+' := ne_of_isDigit hc (by decide)
    have hminus : c ≠ code '-' := ne_of_isDigit hc (by decide)
    have hread : parseDigits (c :: (ds ++ [code '='])) = none :=
      parseDigits_none (c := code '=') (by simp) (by decide) (by decide)
    simp only [List.cons_append, parseInt32, parseInt, if_neg hplus, if_neg hminus, hread,
      Option.bind_eq_bind, Option.bind_none]

theorem scanLine_naxis1 (tail : List UInt8) (m : XMeta) :
    scanLine (ascii "NAXIS1  = " ++ tail) m =
      (hdrGetIntValue (ascii "NAXIS1  = " ++ tail)).map fun v => { m with naxis1 := some v } := by
  have hkinds : kinds (ascii "NAXIS1  = " ++ tail) =
      [false, true, false, false, false, false] := rfl
  simp only [kinds, List.map, List.cons.injEq] at hkinds
  simp [scanLine, hkinds, Option.map_eq_bind]

theorem scanLine_naxis2 (tail : List UInt8) (m : XMeta) :
    scanLine (ascii "NAXIS2  = " ++ tail) m =
      (hdrGetIntValue (ascii "NAXIS2  = " ++ tail)).map fun v => { m with naxis2 := some v } := by
  have hkinds : kinds (ascii "NAXIS2  = " ++ tail) =
      [false, false, true, false, false, false] := rfl
  simp only [kinds, List.map, List.cons.injEq] at hkinds
  simp [scanLine, hkinds, Option.map_eq_bind]

theorem scanLine_tfields (tail : List UInt8) (m : XMeta) :
    scanLine (ascii "TFIELDS = " ++ tail) m =
      (hdrGetIntValue (ascii "TFIELDS = " ++ tail)).map m.setTfields := by
  have hkinds : kinds (ascii "TFIELDS = " ++ tail) =
      [false, false, false, true, false, false] := rfl
  simp only [kinds, List.map, List.cons.injEq] at hkinds
  simp [scanLine, hkinds, Option.map_eq_bind]

theorem kinds_ttype (ds tail : List UInt8) :
    kinds (indexed "TTYPE" ds ++ tail) = [false, false, false, false, true, false] := by
  rw [indexed_append]
  rfl

theorem kinds_tform (ds tail : List UInt8) :
    kinds (indexed "TFORM" ds ++ tail) = [false, false, false, false, false, true] := by
  rw [indexed_append]
  rfl

theorem scanLine_ttype (hds : Index ds) (hshort : ds.length ≤ 2) (m : XMeta) :
    scanLine (indexed "TTYPE" ds ++ tail) m =
      (hdrGetStringValue (indexed "TTYPE" ds ++ tail)).map fun value =>
        value.elim m fun column => m.setName (decimal ds) column := by
  obtain ⟨hindex, hslice⟩ := index_short "TTYPE" rfl (by decide) hds hshort tail
  have hkinds := kinds_ttype ds tail
  simp only [kinds, List.map, List.cons.injEq] at hkinds
  simp only [scanLine, hkinds, Bool.false_eq_true, if_false, if_true, hindex, hslice,
    parseInt32_digits hds, Option.bind_eq_bind, Option.bind_some]
  cases hdrGetStringValue (indexed "TTYPE" ds ++ tail) with
  | none => rfl
  | some value => cases value <;> rfl

theorem scanLine_tform (hds : Index ds) (hshort : ds.length ≤ 2) (m : XMeta) :
    scanLine (indexed "TFORM" ds ++ tail) m =
      (hdrGetStringValue (indexed "TFORM" ds ++ tail)).bind fun value =>
        value.elim (some m) fun columnType =>
          (getColumnSize columnType).bind (m.setSize (decimal ds)) := by
  obtain ⟨hindex, hslice⟩ := index_short "TFORM" rfl (by decide) hds hshort tail
  have hkinds := kinds_tform ds tail
  simp only [kinds, List.map, List.cons.injEq] at hkinds
  simp only [scanLine, hkinds, Bool.false_eq_true, if_false, if_true, hindex, hslice,
    parseInt32_digits hds, Option.bind_eq_bind, Option.bind_some]
  cases hdrGetStringValue (indexed "TFORM" ds ++ tail) with
  | none => rfl
  | some value => cases value <;> rfl

/-- The name of column 100 or of a later one ends the reading, and so does its form. -/
theorem scanLine_ttype_long (hds : Index ds) (hlong : ds.length = 3) (m : XMeta) :
    scanLine (indexed "TTYPE" ds ++ tail) m = none := by
  obtain ⟨hindex, hslice, hparse⟩ := index_long "TTYPE" rfl (by decide) hds hlong tail
  have hkinds := kinds_ttype ds tail
  simp only [kinds, List.map, List.cons.injEq] at hkinds
  simp [scanLine, hkinds, hindex, hslice, hparse]

theorem scanLine_tform_long (hds : Index ds) (hlong : ds.length = 3) (m : XMeta) :
    scanLine (indexed "TFORM" ds ++ tail) m = none := by
  obtain ⟨hindex, hslice, hparse⟩ := index_long "TFORM" rfl (by decide) hds hlong tail
  have hkinds := kinds_tform ds tail
  simp only [kinds, List.map, List.cons.injEq] at hkinds
  simp [scanLine, hkinds, hindex, hslice, hparse]

theorem scanLine_ttype_card {field : StringField} (hindex : Index ds)
    (hlength : (Card.ttype ds field).bytes.length = 80) (m : XMeta) :
    scanLine (Card.ttype ds field).bytes m =
      if ds.length ≤ 2 ∧ seenText field ≠ [] then some (m.setName (decimal ds) (shownText field))
      else none := by
  rw [Card.bytes] at *
  by_cases hshort : ds.length ≤ 2
  · rw [scanLine_ttype hindex hshort, hdrGetStringValue_field (length_indexed rfl hindex) hlength]
    by_cases hseen : seenText field = []
    · rw [if_pos hseen, if_neg fun h => h.2 hseen]
      rfl
    · rw [if_neg hseen, if_pos ⟨hshort, hseen⟩]
      rfl
  · have hthree := hindex.length
    rw [scanLine_ttype_long hindex (by omega), if_neg fun h => hshort h.1]

theorem scanLine_tform_card {field : StringField} (hindex : Index ds)
    (hlength : (Card.tform ds field).bytes.length = 80) (m : XMeta) :
    scanLine (Card.tform ds field).bytes m =
      if ds.length ≤ 2 then (getColumnSize (shownText field)).bind (m.setSize (decimal ds))
      else none := by
  rw [Card.bytes] at *
  by_cases hshort : ds.length ≤ 2
  · rw [scanLine_tform hindex hshort, hdrGetStringValue_field (length_indexed rfl hindex) hlength,
      if_pos hshort]
    by_cases hseen : seenText field = []
    · rw [if_pos hseen, shownText, hseen]
      rfl
    · rw [if_neg hseen]
      rfl
  · have hthree := hindex.length
    rw [scanLine_tform_long hindex (by omega), if_neg hshort]

theorem startsWith_of_not_prefix {bytes : List UInt8} {keyword : String}
    (h : ¬ ascii keyword <+: bytes) : startsWith bytes keyword = false := by
  rw [startsWith, Bool.eq_false_iff]
  exact fun hprefix => h (List.isPrefixOf_iff_prefix.mp hprefix)

theorem scanLine_other {bytes : List UInt8} (hreserved : ¬ Reserved bytes)
    (hplain : SxsHeader.PlainCard (.other bytes)) (m : XMeta) :
    startsWith bytes "END       " = false ∧ scanLine bytes m = some m := by
  have hkeyword : ∀ keyword ∈ ["END       ", "NAXIS1  = ", "NAXIS2  = ", "TFIELDS = "],
      startsWith bytes keyword = false := fun keyword hkeyword =>
    startsWith_of_not_prefix fun h => hreserved (.inl ⟨keyword, hkeyword, h⟩)
  have httype := startsWith_of_not_prefix hplain.1
  have htform := startsWith_of_not_prefix hplain.2
  simp only [List.forall_mem_cons] at hkeyword
  exact ⟨hkeyword.1, by simp [scanLine, hkeyword, httype, htform]⟩

end Lines

def Readable : Card → Prop
  | .ttype _ field => field.text ≠ []
  | .tform _ field => readText field ≠ []
  | _ => True

instance : DecidablePred Readable
  | .ttype _ field => inferInstanceAs (Decidable (field.text ≠ []))
  | .tform _ field => inferInstanceAs (Decidable (readText field ≠ []))
  | .naxis1 _ | .naxis2 _ | .tfields _ | .other _ => instDecidableTrue

def readCard (t : Table) (m : XMeta) : Card → XMeta
  | .naxis1 _ => { m with naxis1 := some t.rowSize }
  | .naxis2 _ => { m with naxis2 := some t.rows.length }
  | .tfields _ => m.setTfields t.columns.length
  | .ttype digits field => m.setName (decimal digits) (readText field)
  | .tform digits field =>
    match t.columns[decimal digits - 1]? with
    | none => m
    | some column => (m.setSize (decimal digits) (sizeRead column.form field)).getD m
  | .other _ => m

/-- The entries of `columns` are there. -/
def Allocated (t : Table) (m : XMeta) : Prop :=
  ∃ l, m.columns = some l ∧ l.length = t.columns.length

section Cards

variable {f : EventFile} {ds : List UInt8}

theorem length_le_two (hds : Index ds) (hfew : decimal ds ≤ 99) : ds.length ≤ 2 := by
  by_contra hlong
  have hthree : ds.length = 3 := by
    have hlength := hds.length
    omega
  obtain ⟨a, b, c, rfl⟩ := List.length_eq_three.mp hthree
  have hdecimal : decimal [a, b, c] =
      10 * (10 * (10 * 0 + digitValue a) + digitValue b) + digitValue c := rfl
  have hcodes : (code '0').toNat = 48 ∧ (code '9').toNat = 57 := by decide
  have hfirst := hds.all_digits a List.mem_cons_self
  have hzero : a.toNat ≠ (code '0').toNat := fun h =>
    hds.no_zero (congrArg some (UInt8.toNat_inj.mp h))
  simp only [isDigit, hcodes, Bool.and_eq_true, decide_eq_true_eq, UInt8.le_iff_toNat_le] at hfirst
  rw [hcodes.1] at hzero
  have hone : 1 ≤ digitValue a := by
    rw [digitValue, hcodes.1]
    omega
  omega

theorem length_eq_three (hds : Index ds) (hmany : 99 < decimal ds) : ds.length = 3 := by
  have hlength := hds.length
  have hbound := decimal_lt hds.all_digits
  by_contra hshort
  have hpow : 10 ^ ds.length ≤ 10 ^ 2 := Nat.pow_le_pow_right (by norm_num) (by omega)
  omega

theorem setSize_allocated {t : Table} {m : XMeta} {l : List (Option ℤ)} (hl : m.columns = some l)
    (hlength : l.length = t.columns.length) (hds : Index ds)
    (hindex : decimal ds - 1 < t.columns.length) (size : ℤ) :
    m.setSize (decimal ds) size =
      some { m with columns := some (l.set (decimal ds - 1) (some size)) } := by
  have hpos := hds.pos
  simp only [XMeta.setSize, hl, Option.bind_eq_bind, Option.bind_some]
  rw [if_pos (by omega), Int.toNat_natCast]

theorem formSize_lt (hplain : SxsHeader.Plain f) {column : Column} (hmem : column ∈ f.columns) :
    formSize column.form < 2147483648 :=
  (List.le_sum_of_mem (List.mem_map_of_mem hmem)).trans_lt hplain.sizes

theorem scanLine_name (hplain : SxsHeader.Plain f) (hfew : f.columns.length ≤ 99)
    {field : StringField} (hcard : .ttype ds field ∈ f.cards) (m : XMeta) :
    scanLine (Card.ttype ds field).bytes m =
      if field.text = [] then none else some (m.setName (decimal ds) (readText field)) := by
  obtain ⟨⟨hindex, column, hcolumn, -⟩, hlength, -⟩ := f.true_cards _ hcard
  have hlayout : field.Plain := hplain.cards _ hcard
  have hlt := (List.getElem?_eq_some_iff.mp hcolumn).1
  have hshort := length_le_two hindex (by omega)
  rw [scanLine_ttype_card hindex hlength, seenText_eq hlayout.2.1, shownText_eq hlayout.2.1]
  simp only [hshort, true_and, ne_eq, ite_not]

theorem scanLine_form (hplain : SxsHeader.Plain f) (hfew : f.columns.length ≤ 99)
    {field : StringField} (hcard : .tform ds field ∈ f.cards) {column : Column}
    (hcolumn : f.columns[decimal ds - 1]? = some column) (m : XMeta) :
    scanLine (Card.tform ds field).bytes m =
      if readText field = [] then none
      else m.setSize (decimal ds) (sizeRead column.form field) := by
  obtain ⟨⟨hindex, other, hother, hform⟩, hlength, -⟩ := f.true_cards _ hcard
  have hlayout : field.Plain := hplain.cards _ hcard
  have hlt := (List.getElem?_eq_some_iff.mp hcolumn).1
  have hmem := List.mem_of_getElem? hcolumn
  rw [hcolumn, Option.some.injEq] at hother
  rw [← hother] at hform
  have hsize := getColumnSize_readText hform hlayout.2.1 (hplain.forms column hmem)
    (formSize_lt hplain hmem) (hplain.bits column hmem)
  rw [scanLine_tform_card hindex hlength, if_pos (length_le_two hindex (by omega)),
    shownText_eq hlayout.2.1, hsize]
  split_ifs <;> rfl

theorem scanLine_unreadable (hplain : SxsHeader.Plain f) (hfew : f.columns.length ≤ 99)
    {card : Card} (hcard : card ∈ f.cards) (hread : ¬ Readable card) (m : XMeta) :
    scanLine card.bytes m = none := by
  cases card with
  | ttype digits field => rw [scanLine_name hplain hfew hcard, if_pos (not_not.mp hread)]
  | tform digits field =>
    obtain ⟨-, column, hcolumn, -⟩ := (f.true_cards _ hcard).1
    rw [scanLine_form hplain hfew hcard hcolumn, if_pos (not_not.mp hread)]
  | _ => exact absurd trivial hread

theorem scanLine_readable (hplain : SxsHeader.Plain f) (hfew : f.columns.length ≤ 99) {card : Card}
    (hcard : card ∈ f.cards) (hread : Readable card) {m : XMeta}
    (hm : (∃ c, card.Forms c) → Allocated f.toTable m) :
    scanLine card.bytes m = some (readCard f.toTable m card) := by
  obtain ⟨htrue, hlength, -⟩ := f.true_cards card hcard
  have hlayout := hplain.cards card hcard
  have hrowSize : f.rowSize < 2147483648 := (SxsHeader.rowSize_le _).trans_lt hplain.sizes
  cases card with
  | naxis1 field =>
    rw [Card.bytes, scanLine_naxis1, hdrGetIntValue_card rfl (by decide) hlength htrue hrowSize]
    rfl
  | naxis2 field =>
    rw [Card.bytes, scanLine_naxis2, hdrGetIntValue_card rfl (by decide) hlength htrue hplain.rows]
    rfl
  | tfields field =>
    rw [Card.bytes, scanLine_tfields, hdrGetIntValue_card rfl (by decide) hlength htrue (by omega)]
    rfl
  | other bytes => exact (scanLine_other htrue hlayout m).2
  | ttype digits field => rw [scanLine_name hplain hfew hcard, if_neg hread, readCard]
  | tform digits field =>
    obtain ⟨hindex, column, hcolumn, -⟩ := htrue
    obtain ⟨l, hl, hallocated⟩ := hm ⟨decimal digits - 1, by
      have hpos := hindex.pos
      rw [Card.Forms]
      omega⟩
    have hset := setSize_allocated hl hallocated hindex
      (List.getElem?_eq_some_iff.mp hcolumn).1 (sizeRead column.form field)
    rw [scanLine_form hplain hfew hcard hcolumn, if_neg hread, readCard, hcolumn]
    simp only [hset, Option.getD_some]

theorem scanLine_many {c : ℕ} (hc : 99 ≤ c) {card : Card} (hcard : card ∈ f.cards)
    (hforms : card.Forms c) (m : XMeta) : scanLine card.bytes m = none := by
  cases card with
  | tform digits field =>
    have hindex : Index digits := (f.true_cards _ hcard).1.1
    have hdigits : decimal digits = c + 1 := hforms
    exact scanLine_tform_long hindex (length_eq_three hindex (by omega)) m
  | _ => exact hforms.elim

end Cards

end XWebQL.ZigCards
