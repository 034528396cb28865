import XWebQL.SxsEvents
import XWebQL.ZigCards

/-! The widths of the columns, as both readers compute them.
`get_type_size` and `get_column_size` take the largest of 1 and the repeat count,
which is right where the count is left out and wrong where it is written as 0.
Beside that, sizes and offsets are right as far as they are of type `int`. -/

namespace XWebQL.ColumnSizes

open AsciiText FitsTable SxsHeader
open SxsReader (getTypeSize getColumnOffset)
open ZigReader (getColumnSize)
open SxsEvents (formSize_eq_width width_lt_formSize getColumnOffset_sum)

/-- The column is not empty and its width is of type `int`. -/
@[mk_iff] structure Measured (form : Form) : Prop where
  count_ne : form.count ≠ 0
  width_lt : form.width < 2147483648
  bits_lt : form.type = .X → form.count + 7 < 2147483648

section Forms

variable {form : Form}

theorem formSize_eq_width_iff : formSize form = form.width ↔ form.count ≠ 0 := by
  constructor
  · intro h hcount
    exact absurd h (width_lt_formSize hcount).ne'
  · exact formSize_eq_width

theorem decimal_lt_of_measured (h : Measured form) : decimal form.digits < 2147483648 :=
  decimal_lt_of_formSize (formSize_eq_width h.count_ne ▸ h.width_lt) h.bits_lt

theorem large_count (h : 2147483648 ≤ decimal form.digits) :
    form.count = decimal form.digits ∧ 16 < form.width := by
  have hne : form.digits ≠ [] := by
    intro hnil
    rw [hnil] at h
    exact absurd h (by decide)
  have hcount : form.count = decimal form.digits := if_neg hne
  refine ⟨hcount, ?_⟩
  rw [Form.width, hcount]
  cases form.type <;> simp only [ColumnType.bytes] <;> omega

theorem bytes_one_le (type : ColumnType) : type.bytes 1 ≤ 16 := by
  cases type <;> decide

theorem typedSize_eq_width_iff (hfits : decimal form.digits < 2147483648) :
    typedSize (decimal form.digits) form.type = some (form.width : ℤ) ↔ Measured form := by
  have hmax := max_one_decimal form
  have hbits : decimal form.digits + 7 < 2147483648 ↔ form.count + 7 < 2147483648 := by omega
  rw [typedSize_eq_some_iff hfits, hmax, ← formSize, measured_iff, ← formSize_eq_width_iff, hbits,
    Nat.cast_inj]
  constructor
  · rintro ⟨hx, hlt, heq⟩
    exact ⟨heq.symm, heq ▸ hlt, hx⟩
  · rintro ⟨heq, hlt, hx⟩
    exact ⟨hx, heq ▸ hlt, heq.symm⟩

theorem getTypeSize_eq_width_iff (hextra : form.extra = []) :
    getTypeSize form.text = some (form.width : ℤ) ↔ Measured form := by
  rw [getTypeSize_eq_typedSize hextra]
  by_cases hfits : decimal form.digits < 2147483648
  · rw [int_natCast hfits, Option.bind_some, typedSize_eq_width_iff hfits]
  · refine iff_of_false ?_ fun h => hfits (decimal_lt_of_measured h)
    have hint : SxsReader.int (decimal form.digits) = none := by
      rw [SxsReader.int, if_neg]
      omega
    rw [hint, Option.bind_none]
    exact Option.some_ne_none _ ∘ Eq.symm

theorem getColumnSize_eq_width_iff (hextra : form.extra = []) :
    getColumnSize form.text = some (form.width : ℤ) ↔ Measured form := by
  rw [ZigCards.getColumnSize_eq_typedSize hextra]
  by_cases hfits : decimal form.digits < 2147483648
  · rw [if_pos hfits, typedSize_eq_width_iff hfits]
  · refine iff_of_false ?_ fun h => hfits (decimal_lt_of_measured h)
    intro h
    have hwidth := (large_count (not_lt.mp hfits)).2
    have hone := bytes_one_le form.type
    rw [if_neg hfits, ← Nat.cast_zero, typedSize_eq_some_iff (by decide), max_eq_left (by decide)] at h
    omega

end Forms

/-! The columns of a row. -/

/-- What `get_type_size` and `get_column_size` give for the columns. -/
def typeSizes (forms : List Form) : List (Option ℤ) := forms.map fun form => getTypeSize form.text

def columnSizes (forms : List Form) : List (Option ℤ) :=
  forms.map fun form => getColumnSize form.text

/-- The bytes before column `k`, and in all of the row for the number of columns. -/
def widthsBefore (forms : List Form) (k : ℕ) : ℕ := ((forms.take k).map Form.width).sum

structure SizesRight (forms : List Form) : Prop where
  typeSize : ∀ form ∈ forms, getTypeSize form.text = some (form.width : ℤ)
  columnSize : ∀ form ∈ forms, getColumnSize form.text = some (form.width : ℤ)
  typeOffset : ∀ k ≤ forms.length,
    getColumnOffset (typeSizes forms) k = some (widthsBefore forms k : ℤ)
  columnOffset : ∀ k ≤ forms.length,
    getColumnOffset (columnSizes forms) k = some (widthsBefore forms k : ℤ)

theorem offsets_of_sizes {forms : List Form} {read : Form → Option ℤ}
    (hread : ∀ form ∈ forms, read form = some (form.width : ℤ))
    (hsum : widthsBefore forms forms.length < 2147483648) {k : ℕ} (hk : k ≤ forms.length) :
    getColumnOffset (forms.map read) k = some (widthsBefore forms k : ℤ) := by
  rw [widthsBefore, List.take_length] at hsum
  have hsizes : ∀ (c n : ℕ), (forms.map Form.width)[c]? = some n →
      (forms.map read)[c]? = some (some (n : ℤ)) := by
    intro c n hn
    rw [List.getElem?_map, Option.map_eq_some_iff] at hn
    obtain ⟨form, hform, rfl⟩ := hn
    rw [List.getElem?_map, hform, Option.map_some, hread form (List.mem_of_getElem? hform)]
  rw [getColumnOffset_sum hsizes hsum (by rwa [List.length_map]), ← List.map_take]
  rfl

theorem getColumnOffset_lt {columns : List (Option ℤ)} {k : ℕ} {offset : ℤ}
    (h : getColumnOffset columns k = some offset) : offset < 2147483648 := by
  cases k with
  | zero =>
    rw [← Option.some.inj h]
    decide
  | succ k =>
    rw [getColumnOffset] at h
    obtain ⟨before, -, h⟩ := Option.bind_eq_some_iff.mp h
    obtain ⟨size, -, h⟩ := Option.bind_eq_some_iff.mp h
    have hle := SxsReader.le_of_int h
    omega

/-- Widths and offsets of a table are right in both readers exactly when no
column is empty and everything is of type `int`. -/
theorem sizesRight_iff {forms : List Form} (hextra : ∀ form ∈ forms, form.extra = []) :
    SizesRight forms ↔
      (∀ form ∈ forms, Measured form) ∧ widthsBefore forms forms.length < 2147483648 := by
  constructor
  · intro h
    refine ⟨fun form hform => ?_, ?_⟩
    · exact (getTypeSize_eq_width_iff (hextra form hform)).mp (h.typeSize form hform)
    · exact_mod_cast getColumnOffset_lt (h.typeOffset forms.length le_rfl)
  · rintro ⟨hmeasured, hsum⟩
    have htype := fun form hform =>
      (getTypeSize_eq_width_iff (hextra form hform)).mpr (hmeasured form hform)
    have hcolumn := fun form hform =>
      (getColumnSize_eq_width_iff (hextra form hform)).mpr (hmeasured form hform)
    exact ⟨htype, hcolumn, fun k hk => offsets_of_sizes htype hsum hk,
      fun k hk => offsets_of_sizes hcolumn hsum hk⟩

def sampleForms : List Form := [⟨ascii "3", .E, [], by decide⟩, ⟨ascii "12", .X, [], by decide⟩]

theorem sizesRight_iff_sample : SizesRight sampleForms :=
  (sizesRight_iff (by decide)).mpr
    ⟨by simp only [sampleForms, List.forall_mem_cons, measured_iff]; decide, by decide⟩

/-- The form `0A` of an empty column is given one byte by both readers. -/
def emptyForm : Form := ⟨ascii "0", .A, [], by decide⟩

theorem sizes_empty_column :
    ¬∀ form : Form, form.extra = [] →
      getTypeSize form.text = some (form.width : ℤ) ∧
        getColumnSize form.text = some (form.width : ℤ) := by
  intro h
  exact absurd (h emptyForm rfl).1 (by decide)

end XWebQL.ColumnSizes
