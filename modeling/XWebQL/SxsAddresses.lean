import XWebQL.SxsEvents
import XWebQL.SxsSafety

/-! The 32-bit arithmetic of `read_sxs_events`.
The sum of the sizes and the offset of a row are computed in `int`, the length of
the file is tested in `size_t`. Here an `int` that overflows goes on with what the
machine leaves in it, so that a file can stand the tests with a wrong sum. -/

namespace XWebQL.SxsAddresses

open SxsReader SxsLines
open SxsSafety (sizes sizesBefore rowSize)

/-- What the machine leaves in an `int`. -/
def int32 (v : ℤ) : ℤ := Int.bmod v 4294967296

/-- `sum` after the first columns -/
def sumSizes (columns : List (Option ℤ)) : ℕ → Option ℤ
  | 0 => some 0
  | i + 1 => do
    let sum ← sumSizes columns i
    let size ← columns[i]?.join
    some (int32 (sum + size))

/-- The header has been read up to the block before `data`, and the file stands the tests of the
row size and of the file size. -/
structure Passes (sxs : List UInt8) (m : Meta) (data : ℕ) : Prop where
  header : ∃ offset block, findTable sxs 0 = some offset ∧
    readHeader sxs offset .start = some (block, m) ∧ data = block + FITS_CHUNK_LENGTH
  sum : sumSizes (m.columns.getD []) m.tfields.toNat = some m.naxis1
  length : (data + size m.naxis2 * size m.naxis1) % 18446744073709551616 ≤ sxs.length

/-- The sum of the sizes does not overflow, and neither does the offset of a row. -/
structure AddressesRight (m : Meta) : Prop where
  sum : (getColumnOffset (m.columns.getD []) m.tfields.toNat).isSome
  rows : ∀ i : ℤ, 0 ≤ i → i < m.naxis2 → int32 (i * m.naxis1) = i * m.naxis1

def rowWidth (m : Meta) : ℤ := ((m.columns.getD []).map fun size => size.getD 0).sum

theorem int32_eq_self_iff {v : ℤ} : int32 v = v ↔ -2147483648 ≤ v ∧ v < 2147483648 := by
  rw [int32, Int.bmod_def]
  omega

theorem int32_add (v w : ℤ) : int32 (int32 v + w) = int32 (v + w) := Int.bmod_add_bmod

section Header

variable {sxs : List UInt8} {m : Meta} {data : ℕ} {lines : List (List UInt8)}

theorem Passes.scanned (h : Passes sxs m data) :
    ∃ lines, Scanned lines m ∧ data ≤ sxs.length + FITS_CHUNK_LENGTH := by
  obtain ⟨offset, block, hfind, hread, rfl⟩ := h.header
  rw [readHeader_eq, Option.map_eq_some_iff] at hread
  obtain ⟨m', hscan, heq⟩ := hread
  obtain ⟨rfl, rfl⟩ := Prod.mk.inj heq
  have hinside := (SxsSafety.findTable_iff.mp hfind).inside
  have hle : (headerLines sxs offset).length ≤
      36 * ((sxs.length - offset) / FITS_CHUNK_LENGTH) :=
    (List.takeWhile_sublist _).length_le.trans_eq (length_linesOf _ _)
  refine ⟨headerLines sxs offset, scanned_scanAll hscan, ?_⟩
  unfold FITS_CHUNK_LENGTH at *
  omega

theorem rowWidth_eq (h : Scanned lines m) : rowWidth m = rowSize lines := by
  rw [rowWidth, SxsSafety.columns_of_scanned h, sizes, List.map_map]
  rfl

theorem sumSizes_eq {i : ℕ} {sum : ℤ} (h : sumSizes (sizes lines) i = some sum) :
    (∀ c < i, (columnSize lines c).isSome) ∧ sum = int32 (sizesBefore lines i) := by
  induction i generalizing sum with
  | zero =>
    obtain rfl := Option.some.inj h
    exact ⟨fun _ hc => absurd hc (Nat.not_lt_zero _), rfl⟩
  | succ i ih =>
    obtain ⟨before, hbefore, h⟩ := Option.bind_eq_some_iff.mp h
    obtain ⟨size, hsize, h⟩ := Option.bind_eq_some_iff.mp h
    obtain rfl := Option.some.inj h
    obtain ⟨hset, rfl⟩ := ih hbefore
    rw [SxsSafety.sizes_getElem, Option.ite_none_right_eq_some] at hsize
    constructor
    · intro c hc
      rcases Nat.lt_succ_iff_lt_or_eq.mp hc with hlt | rfl
      · exact hset c hlt
      · rw [hsize.2]
        rfl
    · rw [int32_add, SxsSafety.sizesBefore_succ, hsize.2, Option.getD_some]

theorem Passes.naxis1 (h : Passes sxs m data) (hscanned : Scanned lines m) :
    (∀ c < (axis "TFIELDS = " lines).toNat, (columnSize lines c).isSome) ∧
      m.naxis1 = int32 (rowSize lines) := by
  have hsum := h.sum
  rw [SxsSafety.columns_of_scanned hscanned, hscanned.tfields] at hsum
  exact sumSizes_eq hsum

theorem Passes.naxis1_eq (h : Passes sxs m data) (hwidth : rowWidth m < 2147483648) :
    m.naxis1 = rowWidth m ∧ 0 ≤ m.naxis1 := by
  obtain ⟨lines, hscanned, -⟩ := h.scanned
  have hnonneg : 0 ≤ rowSize lines := SxsSafety.sizesBefore_nonneg _
  rw [rowWidth_eq hscanned] at *
  have hself : int32 (rowSize lines) = rowSize lines :=
    int32_eq_self_iff.mpr ⟨by omega, hwidth⟩
  have heq : m.naxis1 = rowSize lines := (h.naxis1 hscanned).2.trans hself
  exact ⟨heq, heq ▸ hnonneg⟩

theorem Passes.sum_iff (h : Passes sxs m data) :
    (getColumnOffset (m.columns.getD []) m.tfields.toNat).isSome ↔ rowWidth m < 2147483648 := by
  obtain ⟨lines, hscanned, -⟩ := h.scanned
  have hset := (h.naxis1 hscanned).1
  rw [rowWidth_eq hscanned, SxsSafety.columns_of_scanned hscanned, hscanned.tfields,
    Option.isSome_iff_exists]
  constructor
  · rintro ⟨sum, hsum⟩
    exact (SxsSafety.getColumnOffset_eq_some_iff.mp hsum).2.2.1
  · intro hlt
    exact ⟨_, SxsSafety.getColumnOffset_eq_some_iff.mpr ⟨le_rfl, hset, hlt, rfl⟩⟩

theorem rows_iff (hnonneg : 0 ≤ m.naxis1) :
    (∀ i : ℤ, 0 ≤ i → i < m.naxis2 → int32 (i * m.naxis1) = i * m.naxis1) ↔
      (m.naxis2 - 1) * m.naxis1 < 2147483648 := by
  constructor
  · intro h
    by_cases hrows : 0 < m.naxis2
    · exact (int32_eq_self_iff.mp (h (m.naxis2 - 1) (by omega) (by omega))).2
    · have hle : (m.naxis2 - 1) * m.naxis1 ≤ 0 :=
        Int.mul_nonpos_of_nonpos_of_nonneg (by omega) hnonneg
      omega
  · intro h i hi hlt
    have hlow : 0 ≤ i * m.naxis1 := Int.mul_nonneg hi hnonneg
    have hhigh : i * m.naxis1 ≤ (m.naxis2 - 1) * m.naxis1 :=
      Int.mul_le_mul_of_nonneg_right (by omega) hnonneg
    exact int32_eq_self_iff.mpr ⟨by omega, by omega⟩

/-- A file that stands the tests is addressed without an overflow exactly when
the sizes of its columns and the offset of its last row are of type `int`. -/
theorem addressesRight_iff (h : Passes sxs m data) :
    AddressesRight m ↔
      rowWidth m < 2147483648 ∧ (m.naxis2 - 1) * m.naxis1 < 2147483648 := by
  constructor
  · intro hright
    have hwidth := h.sum_iff.mp hright.sum
    exact ⟨hwidth, (rows_iff (h.naxis1_eq hwidth).2).mp hright.rows⟩
  · rintro ⟨hwidth, hrows⟩
    exact ⟨h.sum_iff.mpr hwidth, (rows_iff (h.naxis1_eq hwidth).2).mpr hrows⟩

/-- The two ways to compute agree on every file below 2 GiB. -/
theorem addressesRight_of_short (h : Passes sxs m data) (hwidth : rowWidth m < 2147483648)
    (hshort : sxs.length < 2147483648) : AddressesRight m := by
  obtain ⟨lines, hscanned, hdata⟩ := h.scanned
  obtain ⟨heq, hnonneg⟩ := h.naxis1_eq hwidth
  refine (addressesRight_iff h).mpr ⟨hwidth, ?_⟩
  by_cases hrows : 0 < m.naxis2
  · have hnaxis2 : m.naxis2 < 2147483648 := by
      rw [hscanned.naxis2]
      exact Int.lt_of_le_of_lt (axis_le _ _) (by norm_num)
    obtain ⟨n, hn⟩ := Int.eq_ofNat_of_zero_le hrows.le
    obtain ⟨w, hw⟩ := Int.eq_ofNat_of_zero_le hnonneg
    have hlength := h.length
    have hproduct : n * w < 2147483648 * 2147483648 :=
      Nat.mul_lt_mul'' (by omega) (by omega)
    rw [hn, hw, SxsEvents.size_natCast (by omega), SxsEvents.size_natCast (by omega),
      Nat.mod_eq_of_lt (by unfold FITS_CHUNK_LENGTH at hdata; omega)] at hlength
    have hle : (m.naxis2 - 1) * m.naxis1 ≤ (n * w : ℕ) := by
      rw [hn, hw, Nat.cast_mul]
      exact Int.mul_le_mul_of_nonneg_right (by omega) (Int.natCast_nonneg w)
    omega
  · have hle : (m.naxis2 - 1) * m.naxis1 ≤ 0 :=
      Int.mul_nonpos_of_nonpos_of_nonneg (by omega) hnonneg
    omega

end Header

section Files

open AsciiText FitsTable SxsHeader SxsEvents

theorem sumSizes_of_getColumnOffset {columns : List (Option ℤ)} {k : ℕ} {sum : ℤ}
    (h : getColumnOffset columns k = some sum) : sumSizes columns k = some sum := by
  induction k generalizing sum with
  | zero => exact h
  | succ k ih =>
    obtain ⟨before, hbefore, h⟩ := Option.bind_eq_some_iff.mp h
    obtain ⟨size, hsize, h⟩ := Option.bind_eq_some_iff.mp h
    rw [int, Option.ite_none_right_eq_some, Option.some_inj] at h
    obtain ⟨hfits, rfl⟩ := h
    have hself : int32 (before + size) = before + size := int32_eq_self_iff.mpr (by omega)
    rw [sumSizes, ih hbefore, hsize]
    exact congrArg some hself

theorem passes_final {f : EventFile} (hread : Understood f) (hfull : NoEmptyColumn f.toTable) :
    Passes f.bytes (final f) f.data where
  header := by
    refine ⟨_, _, findTable_start f, readHeader_final hread, ?_⟩
    rw [EventFile.data, Nat.mul_add, Nat.mul_one, Nat.add_assoc]
    rfl
  sum := by
    obtain ⟨htfields, l, hl, hsized⟩ := columns_final f
    have hsum := getColumnOffset_sized hsized hread.sizes le_rfl
    rw [SxsEvents.sizes_eq_widths hfull, List.take_of_length_le (by rw [Table.widths,
      List.length_map])] at hsum
    rw [htfields, hl, naxis1_final]
    exact sumSizes_of_getColumnOffset hsum
  length := by
    rw [naxis1_final, naxis2_final]
    exact rows_inside ((SxsHeader.rowSize_le _).trans_lt hread.sizes) hread.rows

theorem addressesRight_iff_sampleFile : AddressesRight (final (sampleFile 0 5)) :=
  (addressesRight_iff (passes_final (understood_sampleFile 0 5) (sample_noEmptyColumn 0 5))).mpr
    (by decide +kernel)

/-! The sample with more rows. -/

def longLeading (naxis2 : IntField) : List Card :=
  [textCard "BITPIX  =                    8", textCard "NAXIS   =                    2",
    .naxis1 (fixedInt "6"), .naxis2 naxis2, textCard "PCOUNT  =                    0",
    textCard "GCOUNT  =                    1"]

def longTable (n : ℕ) : Table :=
  { sampleTable 0 5 with rows := List.replicate n [0, 100, 0, 200, 0, 5] }

variable {n : ℕ} {naxis2 : IntField}

def countsRows : Card → Bool
  | .naxis2 _ => true
  | _ => false

theorem ne_naxis2 {card : Card} (h : countsRows card = false) :
    ∀ field, card ≠ .naxis2 field := by
  rintro field rfl
  cases h

theorem longLeading_cases {card : Card} (h : card ∈ longLeading naxis2) :
    card = .naxis2 naxis2 ∨ card ∈ sampleLeading ∧ ∀ field, card ≠ .naxis2 field := by
  revert card
  simp only [longLeading, List.forall_mem_cons]
  refine ⟨.inr ⟨?_, ne_naxis2 rfl⟩, .inr ⟨?_, ne_naxis2 rfl⟩, .inr ⟨?_, ne_naxis2 rfl⟩,
    .inl trivial, .inr ⟨?_, ne_naxis2 rfl⟩, .inr ⟨?_, ne_naxis2 rfl⟩, List.forall_mem_nil _⟩
  · exact .head _
  · exact .tail _ (.head _)
  · exact .tail _ (.tail _ (.head _))
  · exact .tail _ (.tail _ (.tail _ (.tail _ (.head _))))
  · exact .tail _ (.tail _ (.tail _ (.tail _ (.tail _ (.head _)))))

theorem longCards_cases {card : Card}
    (h : card ∈ Card.other (tableMark ++ List.replicate 60 blank) :: longLeading naxis2 ++
      .tfields (fixedInt "3") :: sampleTrailing) :
    card = .naxis2 naxis2 ∨ card ∈ sampleCards ∧ ∀ field, card ≠ .naxis2 field := by
  rw [List.cons_append, List.mem_cons, List.mem_append] at h
  rcases h with rfl | hleading | htrailing
  · exact .inr ⟨.head _, ne_naxis2 rfl⟩
  · rcases longLeading_cases hleading with heq | ⟨hmem, hother⟩
    · exact .inl heq
    · exact .inr ⟨.tail _ (List.mem_append_left _ hmem), hother⟩
  · have hothers : ∀ card ∈ Card.tfields (fixedInt "3") :: sampleTrailing,
        ∀ field, card ≠ .naxis2 field := by
      simp only [sampleTrailing, List.forall_mem_cons]
      exact ⟨ne_naxis2 rfl, ne_naxis2 rfl, ne_naxis2 rfl, ne_naxis2 rfl, ne_naxis2 rfl,
        ne_naxis2 rfl, ne_naxis2 rfl, List.forall_mem_nil _⟩
    exact .inr ⟨.tail _ (List.mem_append_right _ htrailing), hothers _ htrailing⟩

theorem says_longTable {card : Card} (h : card.Says (sampleTable 0 5))
    (hother : ∀ field, card ≠ .naxis2 field) : card.Says (longTable n) := by
  cases card with
  | naxis2 field => exact absurd rfl (hother field)
  | _ => exact h

theorem says_naxis2 (h : naxis2.Says n) : Card.Says (longTable n) (.naxis2 naxis2) := by
  have hcount : (longTable n).rows.length = n := List.length_replicate
  rwa [Card.Says, hcount]

def longFile (n : ℕ) (naxis2 : IntField) (hcount : naxis2.Says n)
    (hlayout : (Card.naxis2 naxis2).bytes.length = 80 ∧ Printable (Card.naxis2 naxis2).bytes) :
    EventFile where
  toTable := longTable n
  before := [primaryBlock]
  xtension := List.replicate 60 blank
  leading := longLeading naxis2
  tfields := fixedInt "3"
  trailing := sampleTrailing
  after := []
  holds_x := (sampleFile 0 5).holds_x
  holds_y := (sampleFile 0 5).holds_y
  holds_pi := (sampleFile 0 5).holds_pi
  length_row := by
    intro row hrow
    rw [List.eq_of_mem_replicate hrow]
    rfl
  length_before := (sampleFile 0 5).length_before
  first_table := (sampleFile 0 5).first_table
  true_cards := by
    intro card hcard
    rcases longCards_cases hcard with rfl | ⟨hmem, hother⟩
    · exact ⟨says_naxis2 hcount, hlayout⟩
    · exact ⟨says_longTable (sampleCards_true 0 5 card hmem) hother, sampleCards_layout card hmem⟩
  naxis1 := ⟨_, .tail _ (.tail _ (.head _))⟩
  naxis2 := ⟨_, .tail _ (.tail _ (.tail _ (.head _)))⟩
  tfields_once := by
    rw [List.forall_mem_append]
    refine ⟨?_, by decide⟩
    simp only [longLeading, List.forall_mem_cons]
    exact ⟨rfl, rfl, rfl, rfl, rfl, rfl, List.forall_mem_nil _⟩
  tform_leading := by
    simp only [longLeading, List.forall_mem_cons]
    exact ⟨fun _ h => h, fun _ h => h, fun _ h => h, fun _ h => h, fun _ h => h,
      fun _ h => h, List.forall_mem_nil _⟩
  tform_trailing := (sampleFile 0 5).tform_trailing
  named := by
    intro c hc
    have hcases : c = 0 ∨ c = 1 ∨ c = 2 := by simpa [longTable, sampleTable] using hc
    rcases hcases with rfl | rfl | rfl
    · exact ⟨_, List.mem_append_right _ (.head _), rfl⟩
    · exact ⟨_, List.mem_append_right _ (.tail _ (.tail _ (.head _))), rfl⟩
    · exact ⟨_, List.mem_append_right _ (.tail _ (.tail _ (.tail _ (.tail _ (.head _))))), rfl⟩

theorem understood_longFile (hcount : naxis2.Says n)
    (hlayout : (Card.naxis2 naxis2).bytes.length = 80 ∧ Printable (Card.naxis2 naxis2).bytes)
    (hpos : 0 < n) (hrows : n < 2147483648) : Understood (longFile n naxis2 hcount hlayout) := by
  have hsample := plain_sampleFile 0 5
  have hzero : 0 ∈ (List.replicate n [0, 100, 0, 200, 0, (5 : UInt8)]).flatten ++ [] :=
    List.mem_append_left _ (List.mem_flatten.mpr
      ⟨_, List.mem_replicate.mpr ⟨hpos.ne', rfl⟩, List.mem_cons_self⟩)
  refine understood_of_plain ⟨hzero, fun card hcard => ?_, hsample.names, hsample.forms, hsample.bits,
    hsample.sizes, ?_⟩
  · rcases longCards_cases hcard with rfl | ⟨hmem, -⟩
    · exact trivial
    · exact hsample.cards card hmem
  · exact (List.length_replicate (n := n)).trans_lt hrows

/-- The last of 357913943 rows of six bytes begins 4 bytes behind what an `int` can count. -/
theorem addresses_overflow :
    ¬∀ (sxs : List UInt8) (m : Meta) (data : ℕ), Passes sxs m data → AddressesRight m := by
  intro h
  have hcount : (fixedInt "357913943").Says 357913943 :=
    fixedInt_says (by decide) (by decide) (by decide)
  have hread := understood_longFile hcount (by decide) (by norm_num) (by norm_num)
  have hpasses := passes_final hread (sample_noEmptyColumn 0 5)
  have hrows := ((addressesRight_iff hpasses).mp (h _ _ _ hpasses)).2
  rw [naxis1_final, naxis2_final] at hrows
  have hlength : (longFile 357913943 (fixedInt "357913943") hcount (by decide)).rows.length =
      357913943 := List.length_replicate
  rw [hlength] at hrows
  have hsize : (longFile 357913943 (fixedInt "357913943") hcount (by decide)).rowSize = 6 := rfl
  rw [hsize] at hrows
  norm_num at hrows

end Files

end XWebQL.SxsAddresses
