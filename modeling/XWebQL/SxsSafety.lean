import XWebQL.SxsLines

/-! The files that `read_sxs_events` reads with no access outside of its data,
and without taking a table for one with columns that it does not have. -/

namespace XWebQL.SxsSafety

open AsciiText SxsReader SxsLines
open DataView (subarray)
open SingleFloat (toSingle)

structure TableAt (sxs : List UInt8) (offset : ℕ) : Prop where
  block : FITS_CHUNK_LENGTH ∣ offset
  inside : offset + FITS_CHUNK_LENGTH ≤ sxs.length
  marked : hasTableExtension (sxs.drop offset) = true
  first : ∀ earlier < offset, FITS_CHUNK_LENGTH ∣ earlier →
    hasTableExtension (sxs.drop earlier) = false

/-- The entries of `column_sizes` when the header has been read. -/
def sizes (lines : List (List UInt8)) : List (Option ℤ) :=
  (List.range (axis "TFIELDS = " lines).toNat).map (columnSize lines)

/-- The bytes of a row before column `k`. -/
def sizesBefore (lines : List (List UInt8)) (k : ℕ) : ℤ :=
  ((List.range k).map fun c => (columnSize lines c).getD 0).sum

def rowSize (lines : List (List UInt8)) : ℤ :=
  sizesBefore lines (axis "TFIELDS = " lines).toNat

def columnStart (lines : List (List UInt8)) (name : String) : ℤ :=
  sizesBefore lines (position name lines - 1).toNat

def HasColumns (lines : List (List UInt8)) : Prop :=
  ∀ name ∈ ["X", "Y", "PI"], 1 ≤ position name lines ∧
    position name lines ≤ axis "TFIELDS = " lines

/-- The file does not stand the tests before the rows: the sizes of the columns, the length of the
file, the number of rows. -/
def Refused (sxs : List UInt8) (lines : List (List UInt8)) (data : ℕ) : Prop :=
  rowSize lines ≠ axis "NAXIS1  = " lines ∨
  sxs.length < (data + size (axis "NAXIS2  = " lines) * size (axis "NAXIS1  = " lines)) %
    18446744073709551616 ∨
  axis "NAXIS2  = " lines < 0

/-- The offset of row `i` is of type `int`, and what is read of the row is in the file: two bytes
of the columns X and Y, two or four bytes of the column PI if that is its size. -/
@[mk_iff]
structure RowInside (sxs : List UInt8) (lines : List (List UInt8)) (data : ℕ) (i : ℤ) : Prop where
  offset : i * axis "NAXIS1  = " lines < 2147483648
  words : ∀ name ∈ ["X", "Y"],
    data + i * axis "NAXIS1  = " lines + columnStart lines name + 2 ≤ sxs.length
  energy : ∀ width ∈ [2, 4], columnSize lines (position "PI" lines - 1).toNat = some width →
    data + i * axis "NAXIS1  = " lines + columnStart lines "PI" + width ≤ sxs.length

/-- Every column has a size, and their sum is of type `int`. -/
structure Sized (lines : List (List UInt8)) : Prop where
  each : ∀ c < (axis "TFIELDS = " lines).toNat, (columnSize lines c).isSome
  sum : rowSize lines < 2147483648

structure Sound (sxs : List UInt8) (lines : List (List UInt8)) (data : ℕ) : Prop where
  readable : ∀ line ∈ lines, Readable line
  sized : Sized lines
  used : Refused sxs lines data ∨ HasColumns lines ∧
    (0 < axis "NAXIS2  = " lines → RowInside sxs lines data (axis "NAXIS2  = " lines - 1))

/-- The function ends without an access outside of its data, and returns events only of a table that
has the three columns. -/
def Safe (sxs : List UInt8) : Prop :=
  ∃ result, readSxsEvents sxs = some result ∧
    (result.events.isSome → ∀ offset, TableAt sxs offset → HasColumns (headerLines sxs offset))

section Table

variable {sxs : List UInt8} {offset : ℕ}

theorem findTable_eq_some_iff {start : ℕ} (hstart : FITS_CHUNK_LENGTH ∣ start) :
    findTable sxs start = some offset ↔
      start ≤ offset ∧ FITS_CHUNK_LENGTH ∣ offset ∧ offset + FITS_CHUNK_LENGTH ≤ sxs.length ∧
        hasTableExtension (sxs.drop offset) = true ∧
        ∀ earlier, start ≤ earlier → earlier < offset → FITS_CHUNK_LENGTH ∣ earlier →
          hasTableExtension (sxs.drop earlier) = false := by
  fun_induction findTable sxs start with
  | case1 start hinside hmark =>
    rw [Option.some.injEq]
    constructor
    · rintro rfl
      exact ⟨le_rfl, hstart, hinside, hmark, fun earlier h₁ h₂ => absurd h₂ (not_lt.mpr h₁)⟩
    · rintro ⟨hle, -, -, -, hfirst⟩
      by_contra hne
      have hother := hfirst start le_rfl (lt_of_le_of_ne hle hne) hstart
      rw [hmark] at hother
      cases hother
  | case2 start hinside hmark ih =>
    rw [Bool.not_eq_true] at hmark
    have hnext : ∀ later, start ≤ later → FITS_CHUNK_LENGTH ∣ later → later ≠ start →
        start + FITS_CHUNK_LENGTH ≤ later := by
      rintro later hle ⟨b, rfl⟩ hne
      obtain ⟨a, rfl⟩ := hstart
      unfold FITS_CHUNK_LENGTH at *
      omega
    rw [ih (Nat.dvd_add hstart (Nat.dvd_refl _))]
    constructor
    · rintro ⟨hle, hblock, hin, hmarked, hfirst⟩
      refine ⟨(Nat.le_add_right _ _).trans hle, hblock, hin, hmarked, ?_⟩
      intro earlier hge hlt hdvd
      by_cases heq : earlier = start
      · rw [heq, hmark]
      · exact hfirst earlier (hnext earlier hge hdvd heq) hlt hdvd
    · rintro ⟨hle, hblock, hin, hmarked, hfirst⟩
      refine ⟨hnext offset hle hblock ?_, hblock, hin, hmarked, ?_⟩
      · rintro rfl
        rw [hmark] at hmarked
        cases hmarked
      · intro earlier hge
        exact hfirst earlier ((Nat.le_add_right _ _).trans hge)
  | case3 start hinside =>
    constructor
    · intro h
      cases h
    · intro h
      exact absurd ((Nat.add_le_add_right h.1 _).trans h.2.2.1) hinside

theorem findTable_iff : findTable sxs 0 = some offset ↔ TableAt sxs offset := by
  rw [findTable_eq_some_iff (dvd_zero _)]
  exact ⟨fun h => ⟨h.2.1, h.2.2.1, h.2.2.2.1, fun earlier => h.2.2.2.2 earlier (Nat.zero_le _)⟩,
    fun h => ⟨Nat.zero_le _, h.block, h.inside, h.marked, fun earlier _ => h.first earlier⟩⟩

theorem TableAt.unique {other : ℕ} (h : TableAt sxs offset) (hother : TableAt sxs other) :
    other = offset :=
  Option.some.inj ((findTable_iff.mpr hother).symm.trans (findTable_iff.mpr h))

end Table

section Columns

variable {lines : List (List UInt8)}

theorem sizesBefore_succ (k : ℕ) :
    sizesBefore lines (k + 1) = sizesBefore lines k + (columnSize lines k).getD 0 :=
  sumBefore_succ k

theorem getD_columnSize_nonneg (k : ℕ) : 0 ≤ (columnSize lines k).getD 0 := by
  cases hsize : columnSize lines k with
  | none => exact le_rfl
  | some size => exact columnSize_nonneg hsize

theorem sizesBefore_mono {j k : ℕ} (h : j ≤ k) : sizesBefore lines j ≤ sizesBefore lines k :=
  sumBefore_mono getD_columnSize_nonneg h

theorem sizesBefore_nonneg (k : ℕ) : 0 ≤ sizesBefore lines k :=
  sumBefore_nonneg getD_columnSize_nonneg k

theorem columnStart_nonneg (name : String) : 0 ≤ columnStart lines name :=
  sizesBefore_nonneg _

theorem sizes_getElem {k : ℕ} : (sizes lines)[k]?.join =
    if k < (axis "TFIELDS = " lines).toNat then columnSize lines k else none :=
  SxsReader.sizes_getElem k

theorem getColumnOffset_eq_some_iff {k : ℕ} {v : ℤ} :
    getColumnOffset (sizes lines) k = some v ↔
      k ≤ (axis "TFIELDS = " lines).toNat ∧ (∀ c < k, (columnSize lines c).isSome) ∧
        sizesBefore lines k < 2147483648 ∧ v = sizesBefore lines k :=
  SxsReader.getColumnOffset_eq_some_iff getD_columnSize_nonneg

theorem positionOffset_eq {position : ℤ}
    (hposition : 1 ≤ position ∧ position ≤ axis "TFIELDS = " lines) (hsized : Sized lines) :
    positionOffset (sizes lines) position = some (sizesBefore lines (position - 1).toNat) := by
  have hle := axis_le "TFIELDS = " lines
  have hindex : (position - 1).toNat ≤ (axis "TFIELDS = " lines).toNat := by omega
  rw [positionOffset, int_eq_some (by omega) (by omega)]
  exact getColumnOffset_eq_some_iff.mpr ⟨hindex, fun c hc => hsized.each c (by omega),
    (sizesBefore_mono hindex).trans_lt hsized.sum, rfl⟩

end Columns

section Rows

variable {sxs : List UInt8} {lines : List (List UInt8)} {data : ℕ}

theorem load_isSome_iff {width : ℕ} {address : ℤ} (hnonneg : 0 ≤ address) :
    (load sxs width address).isSome ↔ address + width ≤ sxs.length := by
  rw [load, if_neg (by omega), Option.isSome_map, subarray]
  split
  · exact ⟨fun _ => by omega, fun _ => rfl⟩
  · exact iff_of_false Bool.false_ne_true (by omega)

theorem isSome_bind_iff {α β : Type} {a : Option α} {g : α → Option β} {p : Prop}
    (h : ∀ v, (g v).isSome ↔ p) : (a.bind g).isSome ↔ a.isSome ∧ p := by
  cases a with
  | none => exact ⟨nofun, fun h => absurd h.1 nofun⟩
  | some v => exact (h v).trans ⟨fun hp => ⟨rfl, hp⟩, And.right⟩

theorem readRow_isSome_iff {naxis1 x_offset y_offset pi_offset pi_size : ℤ} {i : ℕ}
    (hnaxis1 : 0 ≤ naxis1) (hx : 0 ≤ x_offset) (hy : 0 ≤ y_offset) (hpi : 0 ≤ pi_offset) :
    (readRow sxs data naxis1 x_offset y_offset pi_offset pi_size i).isSome ↔
      i * naxis1 < 2147483648 ∧ data + i * naxis1 + x_offset + 2 ≤ sxs.length ∧
        data + i * naxis1 + y_offset + 2 ≤ sxs.length ∧
          ∀ width ∈ [2, 4], pi_size = width →
            data + i * naxis1 + pi_offset + width ≤ sxs.length := by
  have hstep : 0 ≤ i * naxis1 := Int.mul_nonneg (Int.natCast_nonneg i) hnaxis1
  by_cases hoffset : i * naxis1 < 2147483648
  · have hloads : ∀ (offset : ℤ) (width : ℕ), 0 ≤ offset →
        ((load sxs width (data + i * naxis1 + offset)).isSome ↔
          data + i * naxis1 + offset + width ≤ sxs.length) :=
      fun offset width h => load_isSome_iff (by omega)
    have hwidths : (∀ width ∈ [2, 4], pi_size = width →
        data + i * naxis1 + pi_offset + width ≤ sxs.length) ↔
          (pi_size = 2 → data + i * naxis1 + pi_offset + 2 ≤ sxs.length) ∧
            (pi_size = 4 → data + i * naxis1 + pi_offset + 4 ≤ sxs.length) := by simp
    have hdone : ∀ event : Event, (some event).isSome ↔ True := fun _ => iff_of_true rfl trivial
    have hx := hloads x_offset 2 hx
    have hy := hloads y_offset 2 hy
    have htwo := hloads pi_offset 2 hpi
    have hfour := hloads pi_offset 4 hpi
    rw [readRow, int_eq_some hstep hoffset, hwidths]
    simp only [Option.bind_eq_bind, Option.bind_some]
    by_cases hsize2 : pi_size = 2
    · simp only [if_pos hsize2]
      refine Iff.trans (isSome_bind_iff fun x => isSome_bind_iff fun y =>
        isSome_bind_iff fun energy => hdone _) ?_
      rw [Option.isSome_map, hx, hy, htwo]
      simp [hoffset, hsize2]
    · by_cases hsize4 : pi_size = 4
      · simp only [if_neg hsize2, if_pos hsize4]
        refine Iff.trans (isSome_bind_iff fun x => isSome_bind_iff fun y =>
          isSome_bind_iff fun energy => hdone _) ?_
        rw [Option.isSome_map, hx, hy, hfour]
        simp [hoffset, hsize4]
      · simp only [if_neg hsize2, if_neg hsize4]
        refine Iff.trans (isSome_bind_iff fun x => isSome_bind_iff fun y => hdone _) ?_
        rw [hx, hy]
        simp [hoffset, hsize2, hsize4]
  · have hint : int (i * naxis1) = none := by
      rw [int, if_neg (by omega)]
    rw [readRow, hint]
    exact iff_of_false Bool.false_ne_true fun h => hoffset h.1

theorem RowInside.mono {i j : ℤ} (hnaxis1 : 0 ≤ axis "NAXIS1  = " lines) (hij : i ≤ j)
    (h : RowInside sxs lines data j) : RowInside sxs lines data i := by
  have hle : i * axis "NAXIS1  = " lines ≤ j * axis "NAXIS1  = " lines :=
    Int.mul_le_mul_of_nonneg_right hij hnaxis1
  refine ⟨hle.trans_lt h.offset, fun name hname => ?_, fun width hwidth hsize => ?_⟩
  · have hword := h.words name hname
    omega
  · have henergy := h.energy width hwidth hsize
    omega

theorem rowsInside_iff (hnaxis1 : 0 ≤ axis "NAXIS1  = " lines) :
    (∀ i ∈ List.range (axis "NAXIS2  = " lines).toNat, RowInside sxs lines data i) ↔
      (0 < axis "NAXIS2  = " lines →
        RowInside sxs lines data (axis "NAXIS2  = " lines - 1)) := by
  constructor
  · intro h hpos
    have hlast := h (axis "NAXIS2  = " lines - 1).toNat (List.mem_range.mpr (by omega))
    rwa [Int.toNat_of_nonneg (by omega)] at hlast
  · intro h i hi
    rw [List.mem_range] at hi
    exact (h (by omega)).mono hnaxis1 (by omega)

variable {m : Meta}

theorem columns_of_scanned (hm : Scanned lines m) : m.columns.getD [] = sizes lines := by
  rw [hm.columns, hm.tfields]
  rfl

theorem getColumnOffset_sizes (hsized : Sized lines) :
    getColumnOffset (sizes lines) (axis "TFIELDS = " lines).toNat = some (rowSize lines) :=
  getColumnOffset_eq_some_iff.mpr ⟨le_rfl, hsized.each, hsized.sum, rfl⟩

theorem sized_of_readRows (hm : Scanned lines m) {result : Result}
    (h : readRows sxs data m = some result) : Sized lines := by
  obtain ⟨sum, hsum, -⟩ := Option.bind_eq_some_iff.mp h
  rw [columns_of_scanned hm, hm.tfields] at hsum
  obtain ⟨-, hsized, hrow, -⟩ := getColumnOffset_eq_some_iff.mp hsum
  exact ⟨hsized, hrow⟩

theorem readRows_of_refused (hm : Scanned lines m) (hsized : Sized lines)
    (h : Refused sxs lines data) : readRows sxs data m = some ⟨0, none⟩ := by
  rw [readRows, columns_of_scanned hm, hm.tfields, getColumnOffset_sizes hsized, hm.naxis1,
    hm.naxis2]
  simp only [Option.bind_eq_bind, Option.bind_some]
  by_cases hsum : rowSize lines ≠ axis "NAXIS1  = " lines
  · rw [if_pos hsum]
  · rw [if_neg hsum]
    split
    · rfl
    · rename_i hlength
      rw [if_pos ((h.resolve_left hsum).resolve_left hlength)]

theorem readRows_of_admitted (hm : Scanned lines m) (hsized : Sized lines)
    (h : ¬ Refused sxs lines data) :
    readRows sxs data m = (do
      let x_offset ← positionOffset (sizes lines) (position "X" lines)
      let y_offset ← positionOffset (sizes lines) (position "Y" lines)
      let pi_offset ← positionOffset (sizes lines) (position "PI" lines)
      let pi_size ← if position "PI" lines < 1 then none
        else (sizes lines)[(position "PI" lines - 1).toNat]?.join
      let events ← (List.range (axis "NAXIS2  = " lines).toNat).mapM
        (readRow sxs data (axis "NAXIS1  = " lines) x_offset y_offset pi_offset pi_size)
      some ⟨axis "NAXIS2  = " lines, some events⟩) := by
  rw [Refused, not_or, not_or] at h
  rw [readRows, columns_of_scanned hm, hm.tfields, getColumnOffset_sizes hsized, hm.naxis1,
    hm.naxis2, hm.posx, hm.posy, hm.pospi]
  simp only [Option.bind_eq_bind, Option.bind_some, if_neg h.1, if_neg h.2.1, if_neg h.2.2]

theorem readRows_isSome_iff (hm : Scanned lines m) (hsized : Sized lines)
    (h : ¬ Refused sxs lines data) (hcolumns : HasColumns lines) :
    (readRows sxs data m).isSome ↔
      (0 < axis "NAXIS2  = " lines →
        RowInside sxs lines data (axis "NAXIS2  = " lines - 1)) := by
  have hx := hcolumns "X" (by decide)
  have hy := hcolumns "Y" (by decide)
  have hpi := hcolumns "PI" (by decide)
  obtain ⟨width, hwidth⟩ := Option.isSome_iff_exists.mp
    (hsized.each (position "PI" lines - 1).toNat (by omega))
  have hentry : (sizes lines)[(position "PI" lines - 1).toNat]?.join = some width := by
    rw [sizes_getElem, if_pos (by omega), hwidth]
  have hnotFirst : ¬ position "PI" lines < 1 := by omega
  rw [readRows_of_admitted hm hsized h, positionOffset_eq hx hsized, positionOffset_eq hy hsized,
    positionOffset_eq hpi hsized]
  simp only [Option.bind_eq_bind, Option.bind_some, if_neg hnotFirst, hentry]
  have hsum : rowSize lines = axis "NAXIS1  = " lines := by
    by_contra hne
    exact h (.inl hne)
  have hnaxis1 : 0 ≤ axis "NAXIS1  = " lines := hsum ▸ sizesBefore_nonneg _
  have hrow : ∀ i : ℕ, (readRow sxs data (axis "NAXIS1  = " lines) (columnStart lines "X")
      (columnStart lines "Y") (columnStart lines "PI") width i).isSome ↔
        RowInside sxs lines data i := by
    intro i
    rw [readRow_isSome_iff hnaxis1 (columnStart_nonneg "X") (columnStart_nonneg "Y")
      (columnStart_nonneg "PI"), rowInside_iff, hwidth]
    simp [and_assoc]
  rw [← rowsInside_iff hnaxis1]
  refine Iff.trans (isSome_bind_iff (p := True) fun events => iff_of_true rfl trivial) ?_
  rw [and_true, mapM_isSome_iff]
  exact forall₂_congr fun i _ => hrow i

theorem readRows_safe_iff (hm : Scanned lines m) :
    (∃ result, readRows sxs data m = some result ∧
      (result.events.isSome → HasColumns lines)) ↔
      Sized lines ∧ (Refused sxs lines data ∨ HasColumns lines ∧
        (0 < axis "NAXIS2  = " lines →
          RowInside sxs lines data (axis "NAXIS2  = " lines - 1))) := by
  constructor
  · rintro ⟨result, hresult, hevents⟩
    have hsized := sized_of_readRows hm hresult
    refine ⟨hsized, or_iff_not_imp_left.mpr fun hadmitted => ?_⟩
    have hcolumns : HasColumns lines := by
      refine hevents ?_
      rw [readRows_of_admitted hm hsized hadmitted] at hresult
      obtain ⟨x_offset, -, hresult⟩ := Option.bind_eq_some_iff.mp hresult
      obtain ⟨y_offset, -, hresult⟩ := Option.bind_eq_some_iff.mp hresult
      obtain ⟨pi_offset, -, hresult⟩ := Option.bind_eq_some_iff.mp hresult
      split at hresult
      · cases hresult
      · obtain ⟨pi_size, -, hresult⟩ := Option.bind_eq_some_iff.mp hresult
        obtain ⟨events, -, hresult⟩ := Option.bind_eq_some_iff.mp hresult
        cases hresult
        rfl
    exact ⟨hcolumns, (readRows_isSome_iff hm hsized hadmitted hcolumns).mp
      (Option.isSome_iff_exists.mpr ⟨result, hresult⟩)⟩
  · rintro ⟨hsized, hused⟩
    by_cases hrefused : Refused sxs lines data
    · exact ⟨⟨0, none⟩, readRows_of_refused hm hsized hrefused, nofun⟩
    · obtain ⟨hcolumns, hrows⟩ := hused.resolve_left hrefused
      obtain ⟨result, hresult⟩ := Option.isSome_iff_exists.mp
        ((readRows_isSome_iff hm hsized hrefused hcolumns).mpr hrows)
      exact ⟨result, hresult, fun _ => hcolumns⟩

end Rows

/-- A file is read without an access outside of the data exactly if its first table is sound, where
it has one. -/
theorem sxsSafe_iff (sxs : List UInt8) :
    Safe sxs ↔ ∀ offset, TableAt sxs offset →
      Sound sxs (headerLines sxs offset) (dataStart sxs offset) := by
  cases hfind : findTable sxs 0 with
  | none =>
    have hnone : ∀ offset, ¬ TableAt sxs offset := by
      intro offset h
      rw [← findTable_iff, hfind] at h
      cases h
    refine iff_of_true ?_ fun offset h => absurd h (hnone offset)
    rw [Safe, readSxsEvents, hfind]
    split
    · exact ⟨_, rfl, nofun⟩
    · exact ⟨_, rfl, nofun⟩
  | some offset =>
    have htable := findTable_iff.mp hfind
    have hone : ∀ {p : ℕ → Prop}, (∀ other, TableAt sxs other → p other) ↔ p offset :=
      ⟨fun h => h offset htable, fun h other hother => htable.unique hother ▸ h⟩
    have hlong : ¬ sxs.length < FITS_CHUNK_LENGTH := by
      have hinside := htable.inside
      omega
    simp only [Safe, hone]
    rw [readSxsEvents, if_neg hlong, hfind]
    simp only [readHeader_eq]
    cases hscan : scanAll (headerLines sxs offset) .start with
    | none =>
      have hunreadable : ¬ ∀ line ∈ headerLines sxs offset, Readable line := by
        rw [← scanAll_isSome_iff _ .start, hscan]
        nofun
      exact ⟨nofun, fun h => absurd h.readable hunreadable⟩
    | some m =>
      have hreadable : ∀ line ∈ headerLines sxs offset, Readable line := by
        rw [← scanAll_isSome_iff _ .start, hscan]
        rfl
      have hdata : offset + FITS_CHUNK_LENGTH * ((headerLines sxs offset).length / 36) +
          FITS_CHUNK_LENGTH = dataStart sxs offset := by
        rw [dataStart, mul_add, mul_one, add_assoc]
      simp only [Option.map_some, Option.bind_eq_bind, Option.bind_some, hdata]
      refine (readRows_safe_iff (scanned_scanAll hscan)).trans ?_
      exact ⟨fun h => ⟨hreadable, h.1, h.2⟩, fun h => ⟨h.sized, h.used⟩⟩

def bareTable : List UInt8 :=
  ascii "XTENSION= 'BINTABLE'" ++ List.replicate 60 blank ++ ascii "END" ++
    List.replicate 2797 blank

/-- The size of the column PI is read in front of an array that is not there. -/
theorem bareTable_not_safe : ¬ Safe bareTable := by
  have hlength : bareTable.length = FITS_CHUNK_LENGTH := by decide +kernel
  have hmark : hasTableExtension (bareTable.drop 0) = true := by decide +kernel
  have hheader : scanTableHeader (bareTable.drop 0) .start = some (true, .start) := by rfl
  have hrows : readRows bareTable (0 + FITS_CHUNK_LENGTH) .start = none := by decide +kernel
  have hread : readSxsEvents bareTable = none := by
    rw [readSxsEvents, if_neg (by omega), findTable, if_pos (by omega), if_pos hmark]
    simp only
    rw [readHeader, if_pos (by omega), hheader]
    simp only [Option.bind_eq_bind, Option.bind_some, if_true]
    exact hrows
  rintro ⟨result, hresult, -⟩
  rw [hread] at hresult
  cases hresult

end XWebQL.SxsSafety
