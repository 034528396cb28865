import XWebQL.ZigCards

/-! The strings of a header line, for any line.
The value field of a line is split at its first two quotes, once by what it
says and once by `hdr_get_string_value`, which ends its last slice one character
too early. The two agree where the lost character would have been trimmed. -/

namespace XWebQL.ZigStrings

open AsciiText ZigReader ZigCards

def valueField (line : List UInt8) : List UInt8 := line.drop 10

def quotedText (field : List UInt8) : List UInt8 :=
  ((field.dropWhile (· != quote)).drop 1).takeWhile (· != quote)

def stringValue (line : List UInt8) : Option (List UInt8) :=
  if (valueField line).count quote < 2 then none else some (trim (quotedText (valueField line)))

section Fields

variable {field first rest text tail : List UInt8}

theorem bne_quote (h : quote ∉ text) : ∀ c ∈ text, (c != quote) = true :=
  fun _ hc => bne_iff_ne.mpr fun heq => h (heq ▸ hc)

theorem quotedText_eq (hfirst : quote ∉ first) (htext : quote ∉ text) (tail : List UInt8) :
    quotedText (first ++ quote :: (text ++ quote :: tail)) = text := by
  have hstop : ∀ rest : List UInt8, ∀ c ∈ (quote :: rest).head?, (c != quote) = false := by
    intro rest c hc
    rw [← Option.some.inj hc, bne_self_eq_false]
  rw [quotedText, dropWhile_run (bne_quote hfirst) (hstop _), List.drop_succ_cons, List.drop_zero,
    takeWhile_run (bne_quote htext) (hstop _)]

theorem count_quote (hfirst : quote ∉ first) (rest : List UInt8) :
    (first ++ quote :: rest).count quote = rest.count quote + 1 := by
  rw [List.count_append, List.count_eq_zero.mpr hfirst, List.count_cons_self, zero_add]

theorem field_cases (field : List UInt8) :
    quote ∉ field ∨
      (∃ first rest, field = first ++ quote :: rest ∧ quote ∉ first ∧ quote ∉ rest) ∨
      ∃ first text tail, field = first ++ quote :: (text ++ quote :: tail) ∧ quote ∉ first ∧
        quote ∉ text := by
  by_cases hfield : quote ∈ field
  · obtain ⟨first, rest, heq, hfirst⟩ := List.eq_append_cons_of_mem hfield
    by_cases hrest : quote ∈ rest
    · obtain ⟨text, tail, hsplit, htext⟩ := List.eq_append_cons_of_mem hrest
      exact .inr (.inr ⟨first, text, tail, by rw [heq, hsplit], hfirst, htext⟩)
    · exact .inr (.inl ⟨first, rest, heq, hfirst, hrest⟩)
  · exact .inl hfield

end Fields

section Lines

variable {line : List UInt8}

theorem slice_valueField (hline : line.length = 80) :
    slice line 10 FITS_LINE_LENGTH = some (valueField line) := by
  rw [slice, if_pos ⟨by decide, by rw [hline]; decide⟩, FITS_LINE_LENGTH, ← hline,
    List.take_length, valueField]

theorem hdrGetStringValue_no_quote (hline : line.length = 80) (h : quote ∉ valueField line) :
    hdrGetStringValue line = some none := by
  simp only [hdrGetStringValue, slice_valueField hline, indexOf_none h, Option.bind_eq_bind,
    Option.bind_some]

theorem hdrGetStringValue_one_quote (hline : line.length = 80) {first rest : List UInt8}
    (hfield : valueField line = first ++ quote :: rest) (hfirst : quote ∉ first)
    (hrest : quote ∉ rest) : hdrGetStringValue line = some none := by
  have hopen : indexOf (first ++ quote :: rest) quote = some first.length :=
    indexOf_append hfirst rfl
  have hsplit : first ++ quote :: rest = (first ++ [quote]) ++ rest := by
    rw [List.append_assoc, List.singleton_append]
  have hslice : slice (first ++ quote :: rest) (first.length + 1)
      (first ++ quote :: rest).length = some rest := by
    have h := slice_append (first ++ [quote]) rest []
    rw [List.append_nil, ← List.length_append, ← hsplit, List.length_append,
      List.length_singleton] at h
    exact h
  simp only [hdrGetStringValue, slice_valueField hline, hfield, hopen, hslice, indexOf_none hrest,
    Option.bind_eq_bind, Option.bind_some]

/-- The text lost its last character unless that is one to be trimmed. -/
theorem trim_dropLast_eq_iff (text : List UInt8) :
    (if text = [] then none else some (some (trim text.dropLast))) = some (some (trim text)) ↔
      ∃ c, text.getLast? = some c ∧ isTrimmed c = true := by
  cases text using List.reverseRecOn with
  | nil => simp
  | append_singleton text c =>
    rw [if_neg (by simp), List.dropLast_concat, List.getLast?_concat]
    by_cases hc : isTrimmed c = true
    · rw [trim_concat_of_isTrimmed text hc]
      exact iff_of_true rfl ⟨c, rfl, hc⟩
    · refine iff_of_false ?_ ?_
      · intro heq
        have hlength : (trim text).length = (text.dropWhile isTrimmed ++ [c]).length := by
          rw [← trim_concat_of_kept text (Bool.not_eq_true _ ▸ hc), ← Option.some.inj
            (Option.some.inj heq)]
        have hle : (trim text).length ≤ (text.dropWhile isTrimmed).length :=
          (List.rdropWhile_prefix _ _).length_le
        rw [List.length_append, List.length_singleton] at hlength
        omega
      · rintro ⟨d, hd, htrimmed⟩
        exact hc (Option.some.inj hd ▸ htrimmed)

/-- The string of a line is read as it is written exactly when there is none, or
when the character before the closing quote is one to be trimmed. -/
theorem hdrGetStringValue_eq_iff (hline : line.length = 80) :
    hdrGetStringValue line = some (stringValue line) ↔
      (valueField line).count quote < 2 ∨
        ∃ c, (quotedText (valueField line)).getLast? = some c ∧ isTrimmed c = true := by
  rcases field_cases (valueField line) with hnone | ⟨first, rest, hfield, hfirst, hrest⟩ |
    ⟨first, text, tail, hfield, hfirst, htext⟩
  · have hcount : (valueField line).count quote < 2 := by
      rw [List.count_eq_zero.mpr hnone]
      exact two_pos
    rw [hdrGetStringValue_no_quote hline hnone, stringValue, if_pos hcount]
    exact iff_of_true rfl (.inl hcount)
  · have hcount : (valueField line).count quote < 2 := by
      rw [hfield, count_quote hfirst, List.count_eq_zero.mpr hrest]
      exact one_lt_two
    rw [hdrGetStringValue_one_quote hline hfield hfirst hrest, stringValue, if_pos hcount]
    exact iff_of_true rfl (.inl hcount)
  · have hcount : ¬(valueField line).count quote < 2 := by
      rw [hfield, count_quote hfirst, count_quote htext]
      omega
    have hkeyword : (line.take 10).length = 10 := by
      rw [List.length_take, hline]
      rfl
    have hwhole : line.take 10 ++ (first ++ quote :: (text ++ quote :: tail)) = line := by
      rw [← hfield]
      exact List.take_append_drop 10 line
    have hread := hdrGetStringValue_quoted hkeyword (hwhole.symm ▸ hline) hfirst htext
    rw [hwhole] at hread
    rw [hread, stringValue, if_neg hcount, hfield, quotedText_eq hfirst htext, trim_dropLast_eq_iff,
      ← hfield]
    exact ⟨.inr, fun h => h.resolve_left hcount⟩

end Lines

def padded (text : String) : List UInt8 :=
  ascii text ++ List.replicate (80 - text.length) blank

theorem hdrGetStringValue_eq_iff_padded :
    hdrGetStringValue (padded "TTYPE3  = 'PI      '") =
      some (stringValue (padded "TTYPE3  = 'PI      '")) :=
  (hdrGetStringValue_eq_iff (by decide)).mpr (.inr ⟨blank, by decide, by decide⟩)

/-- A name that fills its quotes is read without its last character. -/
theorem hdrGetStringValue_filled :
    ¬∀ line : List UInt8, line.length = 80 →
      hdrGetStringValue line = some (stringValue line) := by
  intro h
  exact absurd (h (padded "TTYPE3  = 'PI'") (by decide)) (by decide)

/-- With no character between the quotes the slice ends before it begins. -/
example : hdrGetStringValue (padded "TUNIT3  = ''") = none ∧
    stringValue (padded "TUNIT3  = ''") = some [] := by
  decide

end XWebQL.ZigStrings
