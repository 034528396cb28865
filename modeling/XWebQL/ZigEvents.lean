import XWebQL.SxsEvents
import XWebQL.ZigThreads

/-! The events that `read_events` returns for a well-formed file, and when they
are the events of `read_sxs_events`. -/

namespace XWebQL.ZigEvents

open FitsTable ZigReader ZigCards ZigHeader ZigThreads
open SingleFloat (toSingle)
open SxsEvents (NoEmptyColumn RowsInRange NonnegativePi trueEvent sizes getColumnOffset_sum
  sizes_eq_widths short_of_holds width_pi)
open SxsHeader (Plain formSize rowSize_le int_natCast)
open SxsReader (Event getColumnOffset readSxsEvents)

section Sizes

variable {f : EventFile}

/-- Where the reader takes column `c` to begin. -/
def offsetRead (f : EventFile) (c : ℕ) : ℕ := ((sizesRead f).take c).sum

theorem length_sizesRead (f : EventFile) : (sizesRead f).length = f.columns.length := by
  rw [sizesRead, List.length_map, List.length_zipIdx]

theorem sizes_zipIdx (t : Table) : sizes t = t.columns.zipIdx.map fun p => formSize p.1.form := by
  have h := List.zipIdx_map_fst 0 t.columns
  rw [sizes]
  nth_rewrite 1 [← h]
  rw [List.map_map]
  rfl

theorem formRead_le (column : Column) (c : ℕ) (cards : List Card) :
    (cards.filterMap (formRead column c)).getLast?.getD 0 ≤ formSize column.form := by
  cases hlast : (cards.filterMap (formRead column c)).getLast? with
  | none => exact Nat.zero_le _
  | some size =>
    obtain ⟨card, -, hcard⟩ := List.mem_filterMap.mp (List.mem_of_getLast? hlast)
    rw [Option.getD_some]
    cases card with
    | tform digits field =>
      rw [formRead] at hcard
      split_ifs at hcard
      rw [← Option.some.inj hcard, sizeRead]
      split_ifs
      · exact le_rfl
      · exact Nat.zero_le _
    | _ => cases hcard

theorem sum_sizesRead_le (f : EventFile) : (sizesRead f).sum ≤ (sizes f.toTable).sum := by
  rw [sizes_zipIdx]
  exact List.sum_le_sum fun p _ => formRead_le p.1 p.2 f.cards

theorem sizesRead_eq (h : (sizesRead f).sum = (sizes f.toTable).sum) :
    sizesRead f = sizes f.toTable := by
  rw [sizes_zipIdx] at *
  refine List.map_congr_left fun p hp => ?_
  by_contra hne
  have hlt := List.sum_lt_sum (l := f.columns.zipIdx)
    (fun p => (f.cards.filterMap (formRead p.1 p.2)).getLast?.getD 0)
    (fun p => formSize p.1.form) (fun p _ => formRead_le p.1 p.2 f.cards)
    ⟨p, hp, lt_of_le_of_ne (formRead_le p.1 p.2 f.cards) hne⟩
  exact hlt.ne h

theorem offsetRead_add_le (f : EventFile) (c : ℕ) :
    offsetRead f c + (sizesRead f).getD c 0 ≤ (sizesRead f).sum := by
  have hle : ((sizesRead f).take (c + 1)).sum ≤ (sizesRead f).sum :=
    (List.take_sublist _ _).sum_le_sum fun _ _ => Nat.zero_le _
  rw [List.take_add_one, List.sum_append] at hle
  rw [offsetRead, List.getD_eq_getElem?_getD]
  cases hsize : (sizesRead f)[c]? with
  | none =>
    rw [Option.getD_none]
    omega
  | some size =>
    rw [hsize, Option.toList_some, List.sum_singleton] at hle
    exact hle

end Sizes

/-- The reader comes to its arrays: the columns have numbers of at most two digits, every string
can be read, the sizes that are read add up to a row, a blank follows the names of the three
columns, and the two bytes of a coordinate are within the row. -/
structure Reads (f : EventFile) : Prop where
  columns : f.columns.length ≤ 99
  strings : ∀ card ∈ f.cards, Readable card
  sizes : (sizesRead f).sum = f.rowSize
  names : ∀ c ∈ [f.x, f.y, f.pi], Named f c
  rows : f.rows = [] ∨ ∀ c ∈ [f.x, f.y], offsetRead f c + 2 ≤ f.rowSize

def numberRead (row : List UInt8) (offset width : ℕ) : ℤ :=
  twosComplement ((row.drop offset).take width)

def eventRead (f : EventFile) (row : List UInt8) : Event :=
  ⟨numberRead row (offsetRead f f.x) 2, numberRead row (offsetRead f f.y) 2,
    if (sizesRead f).getD f.pi 0 = 2 then toSingle (numberRead row (offsetRead f f.pi) 2)
    else if (sizesRead f).getD f.pi 0 = 4 then toSingle (numberRead row (offsetRead f f.pi) 4)
    else 0⟩

def readAt (f : EventFile) (offset : ℕ) : Option Event :=
  readRow f.rows.flatten offset (offsetRead f f.x) (offsetRead f f.y) (offsetRead f f.pi)
    ((sizesRead f).getD f.pi 0 : ℕ)

section Rows

variable {f : EventFile} {i o w : ℕ} {row : List UInt8}

theorem readInt_row (hi : f.rows[i]? = some row) (hw : o + w ≤ f.rowSize) :
    readInt f.rows.flatten (i * f.rowSize + o) w = some (numberRead row o w) := by
  have hrow := f.length_row row (List.mem_of_getElem? hi)
  obtain ⟨before, after, hflatten, hbefore⟩ := EventFile.split_flatten f.length_row hi
  have hslice := slice_append (before ++ row.take o) ((row.drop o).take w)
    ((row.drop o).drop w ++ after)
  have hfirst : (before ++ row.take o).length = i * f.rowSize + o := by
    rw [List.length_append, hbefore, List.length_take, hrow, min_eq_left (by omega)]
  have hwidth : ((row.drop o).take w).length = w := by
    rw [List.length_take, List.length_drop, hrow, min_eq_left (by omega)]
  have hwhole : (before ++ row.take o) ++ ((row.drop o).take w ++ ((row.drop o).drop w ++ after)) =
      f.rows.flatten := by
    rw [← List.append_assoc ((row.drop o).take w), List.take_append_drop, List.append_assoc,
      ← List.append_assoc (row.take o), List.take_append_drop, hflatten]
  rw [hwhole, hfirst, hwidth] at hslice
  rw [readInt, hslice]
  rfl

theorem readInt_none (hw : f.rowSize < o + w) (hrows : f.rows ≠ []) :
    readInt f.rows.flatten ((f.rows.length - 1) * f.rowSize + o) w = none := by
  have hlength := f.length_flatten_rows
  have hpos := List.length_pos_iff.mpr hrows
  have hlast : f.rowSize * f.rows.length = (f.rows.length - 1) * f.rowSize + f.rowSize := by
    obtain ⟨n, hn⟩ : ∃ n, f.rows.length = n + 1 := ⟨f.rows.length - 1, by omega⟩
    rw [hn, Nat.add_sub_cancel]
    ring
  rw [readInt, slice, if_neg]
  · rfl
  · omega

theorem readAt_row (hsum : (sizesRead f).sum = f.rowSize)
    (hcoordinates : ∀ c ∈ [f.x, f.y], offsetRead f c + 2 ≤ f.rowSize)
    (hi : f.rows[i]? = some row) : readAt f (i * f.rowSize) = some (eventRead f row) := by
  have hpi := offsetRead_add_le f f.pi
  have hx := readInt_row hi (hcoordinates f.x (by simp))
  have hy := readInt_row hi (hcoordinates f.y (by simp))
  simp only [readAt, readRow, hx, hy, Option.bind_eq_bind, Option.bind_some, eventRead]
  generalize (sizesRead f).getD f.pi 0 = size at *
  by_cases htwo : size = 2
  · rw [if_pos (by rw [htwo]; rfl), if_pos htwo, readInt_row hi (by omega)]
    rfl
  · rw [if_neg (by omega), if_neg htwo]
    by_cases hfour : size = 4
    · rw [if_pos (by rw [hfour]; rfl), if_pos hfour, readInt_row hi (by omega)]
      rfl
    · rw [if_neg (by omega), if_neg hfour]

variable {cpu_count : ℕ} {schedule : List (ℕ × ℕ) → List (ℕ × ℕ)}

theorem numThreads_pos (cpu_count : ℕ) : 0 < min 16 (getNumCores cpu_count) := by
  rw [getNumCores]
  omega

theorem positions_some (hplain : Plain f) (hapart : NamesApart f)
    (hnames : ∀ c ∈ [f.x, f.y, f.pi], Named f c) :
    (final f).ix = some (f.x + 1 : ℤ) ∧ (final f).iy = some (f.y + 1 : ℤ) ∧
      (final f).ipi = some (f.pi + 1 : ℤ) := by
  simp only [List.forall_mem_cons] at hnames
  refine ⟨?_, ?_, ?_⟩
  · exact position_some hplain hapart (by simp) f.holds_x setName_ix
      (fun m card h => ((readCard_others _ m card).2.2 h).1) hnames.1
  · exact position_some hplain hapart (by simp) f.holds_y setName_iy
      (fun m card h => ((readCard_others _ m card).2.2 h).2.1) hnames.2.1
  · exact position_some hplain hapart (by simp) f.holds_pi setName_ipi
      (fun m card h => ((readCard_others _ m card).2.2 h).2.2) hnames.2.2.1

theorem positions_none (hplain : Plain f) (hapart : NamesApart f)
    (hnames : ¬ ∀ c ∈ [f.x, f.y, f.pi], Named f c) :
    (final f).ix = none ∨ (final f).iy = none ∨ (final f).ipi = none := by
  by_cases hx : Named f f.x
  · by_cases hy : Named f f.y
    · have hpi : ¬ Named f f.pi := fun hpi => hnames (by simp [hx, hy, hpi])
      exact .inr (.inr (position_none hplain hapart (by simp) f.holds_pi setName_ipi
        (fun m card h => ((readCard_others _ m card).2.2 h).2.2) rfl hpi))
    · exact .inr (.inl (position_none hplain hapart (by simp) f.holds_y setName_iy
        (fun m card h => ((readCard_others _ m card).2.2 h).2.1) rfl hy))
  · exact .inl (position_none hplain hapart (by simp) f.holds_x setName_ix
      (fun m card h => ((readCard_others _ m card).2.2 h).1) rfl hx)

theorem offsets_final (hplain : Plain f) : ∃ l, (final f).columns = some l ∧
    getColumnOffset l l.length = some ((sizesRead f).sum : ℤ) ∧
      ∀ c < f.columns.length, positionOffset l (c + 1) = some (offsetRead f c) ∧
        l[c]?.join = some ((sizesRead f).getD c 0 : ℤ) := by
  obtain ⟨l, hl, hlength, hentry⟩ := columns_final f
  have hsum : (sizesRead f).sum < 2147483648 := (sum_sizesRead_le f).trans_lt hplain.sizes
  have hoffset : ∀ {k : ℕ}, k ≤ f.columns.length →
      getColumnOffset l k = some (((sizesRead f).take k).sum : ℤ) := fun hk =>
    getColumnOffset_sum hentry hsum (by rwa [length_sizesRead])
  refine ⟨l, hl, ?_, ?_⟩
  · rw [hlength, hoffset le_rfl, List.take_of_length_le (length_sizesRead f).le]
  · intro c hc
    have hlt := f.length_columns_lt
    have hsize := List.getElem?_eq_getElem ((length_sizesRead f).symm ▸ hc)
    constructor
    · rw [positionOffset, Int.add_sub_cancel, int_natCast (by omega)]
      simp only [Option.bind_eq_bind, Option.bind_some, Int.toNat_natCast, hoffset hc.le]
      rw [if_neg (by omega), offsetRead]
    · rw [hentry c _ hsize, List.getD_eq_getElem?_getD, hsize, Option.getD_some]
      rfl

theorem readRows_sum (hplain : Plain f) (h : (sizesRead f).sum ≠ f.rowSize) (num_cores : ℕ) :
    readRows num_cores schedule f.bytes f.data (final f) = none := by
  obtain ⟨l, hl, hsum, -⟩ := offsets_final hplain
  have hne : ((sizesRead f).sum : ℤ) ≠ f.rowSize := by exact_mod_cast h
  rw [readRows, hl, naxis1_final, naxis2_final]
  change Option.bind (getColumnOffset l l.length) _ = none
  rw [hsum, Option.bind_some, if_pos hne]

theorem readRows_unnamed {m : XMeta} (h : m.ix = none ∨ m.iy = none ∨ m.ipi = none)
    (num_cores data : ℕ) : readRows num_cores schedule f.bytes data m = none := by
  refine Option.eq_none_iff_forall_not_mem.mpr fun events hevents => ?_
  rw [Option.mem_def, readRows] at hevents
  obtain ⟨columns, -, hevents⟩ := Option.bind_eq_some_iff.mp hevents
  obtain ⟨naxis1, -, hevents⟩ := Option.bind_eq_some_iff.mp hevents
  obtain ⟨naxis2, -, hevents⟩ := Option.bind_eq_some_iff.mp hevents
  obtain ⟨sum, -, hevents⟩ := Option.bind_eq_some_iff.mp hevents
  by_cases hsum : sum ≠ (naxis1 : ℤ)
  · rw [if_pos hsum] at hevents
    cases hevents
  · rw [if_neg hsum] at hevents
    obtain ⟨ix, hix, hevents⟩ := Option.bind_eq_some_iff.mp hevents
    obtain ⟨iy, hiy, hevents⟩ := Option.bind_eq_some_iff.mp hevents
    obtain ⟨ipi, hipi, -⟩ := Option.bind_eq_some_iff.mp hevents
    simp [hix, hiy, hipi] at h

theorem readRows_threads (hplain : Plain f) (hapart : NamesApart f)
    (hsum : (sizesRead f).sum = f.rowSize) (hnames : ∀ c ∈ [f.x, f.y, f.pi], Named f c)
    (num_cores : ℕ) :
    readRows num_cores schedule f.bytes f.data (final f) =
      (runThreads (min 16 num_cores) f.rows.length f.rowSize (readAt f) schedule).map
        fun events => ⟨f.rows.length, events⟩ := by
  obtain ⟨l, hl, hall, hcolumn⟩ := offsets_final hplain
  obtain ⟨hix, hiy, hipi⟩ := positions_some hplain hapart hnames
  have hx := hcolumn f.x (short_of_holds f.holds_x).1
  have hy := hcolumn f.y (short_of_holds f.holds_y).1
  have hpi := hcolumn f.pi (width_pi f).1
  have hdata : slice f.bytes f.data (f.data + f.rows.length * f.rowSize) =
      some f.rows.flatten := by
    have h := slice_append (f.before.flatten ++ f.header) f.rows.flatten f.after
    rw [List.append_assoc, List.length_append, f.length_flatten_before, f.length_header,
      f.length_flatten_rows, Nat.mul_comm f.rowSize] at h
    exact h
  have hpos : ¬ ((f.pi : ℤ) + 1 < 1) := by omega
  rw [hsum] at hall
  rw [readRows, hl, naxis1_final, naxis2_final, hix, hiy, hipi]
  change Option.bind (getColumnOffset l l.length) _ = _
  rw [hall, Option.bind_some, if_neg (not_not.mpr rfl)]
  change Option.bind (positionOffset l (f.x + 1)) _ = _
  rw [hx.1]
  change Option.bind (positionOffset l (f.y + 1)) _ = _
  rw [hy.1]
  change Option.bind (positionOffset l (f.pi + 1)) _ = _
  rw [hpi.1, Option.bind_some, if_neg hpos, Int.add_sub_cancel, Int.toNat_natCast, hpi.2]
  change Option.bind (slice f.bytes f.data (f.data + f.rows.length * f.rowSize)) _ = _
  rw [hdata, runThreads]
  change Option.bind ((schedule (rounds (min 16 num_cores) f.rows.length)).foldlM
    (runRound (min 16 num_cores) f.rows.length f.rowSize (readAt f))
      (List.replicate f.rows.length none)) _ = _
  cases (schedule (rounds (min 16 num_cores) f.rows.length)).foldlM
    (runRound (min 16 num_cores) f.rows.length f.rowSize (readAt f))
      (List.replicate f.rows.length none) with
  | none => rfl
  | some arrays =>
    rw [Option.bind_some, Option.bind_some]
    cases arrays.mapM id <;> rfl

theorem readAt_none (h : f.rowSize < offsetRead f f.x + 2 ∨ f.rowSize < offsetRead f f.y + 2)
    (hrows : f.rows ≠ []) : readAt f ((f.rows.length - 1) * f.rowSize) = none := by
  rw [readAt, readRow]
  cases h with
  | inl h =>
    rw [readInt_none h hrows]
    rfl
  | inr h =>
    rw [readInt_none h hrows]
    cases readInt f.rows.flatten ((f.rows.length - 1) * f.rowSize + offsetRead f f.x) 2 <;> rfl

theorem readEvents_of_reads (hplain : Plain f) (hapart : NamesApart f)
    (hperm : ∀ l, (schedule l).Perm l) (hreads : Reads f) :
    readEvents cpu_count schedule f.bytes =
      some ⟨f.rows.length, f.rows.map (eventRead f)⟩ := by
  have hrow : ∀ (i : ℕ) (event : Event), (f.rows.map (eventRead f))[i]? = some event →
      readAt f (i * f.rowSize) = some event := by
    intro i event hi
    rw [List.getElem?_map, Option.map_eq_some_iff] at hi
    obtain ⟨row, hi, hevent⟩ := hi
    cases hreads.rows with
    | inl hempty => simp [hempty] at hi
    | inr hcoordinates => rw [readAt_row hreads.sizes hcoordinates hi, hevent]
  have hrun := runThreads_some (numThreads_pos cpu_count) hperm hrow
  rw [List.length_map] at hrun
  rw [readEvents_header f, scanCards_final hplain hreads.columns hreads.strings,
    Option.bind_some, readRows_threads hplain hapart hreads.sizes hreads.names, hrun,
    Option.map_some]

theorem readEvents_of_not_reads (hplain : Plain f) (hapart : NamesApart f)
    (hperm : ∀ l, (schedule l).Perm l) (hreads : ¬ Reads f) :
    readEvents cpu_count schedule f.bytes = none := by
  rw [readEvents_header f]
  by_cases hstrings : f.columns.length ≤ 99 ∧ ∀ card ∈ f.cards, Readable card
  · rw [scanCards_final hplain hstrings.1 hstrings.2, Option.bind_some]
    by_cases hsum : (sizesRead f).sum = f.rowSize
    · by_cases hnames : ∀ c ∈ [f.x, f.y, f.pi], Named f c
      · have hrows : ¬ (f.rows = [] ∨ ∀ c ∈ [f.x, f.y], offsetRead f c + 2 ≤ f.rowSize) :=
          fun hrows => hreads ⟨hstrings.1, hstrings.2, hsum, hnames, hrows⟩
        rw [not_or] at hrows
        have hfar : f.rowSize < offsetRead f f.x + 2 ∨ f.rowSize < offsetRead f f.y + 2 := by
          have h := hrows.2
          simp only [List.forall_mem_cons, List.not_mem_nil, false_implies, implies_true,
            and_true] at h
          omega
        have hlast : f.rows.length - 1 < f.rows.length := by
          have hpos := List.length_pos_iff.mpr hrows.1
          omega
        rw [readRows_threads hplain hapart hsum hnames,
          runThreads_none (numThreads_pos cpu_count) hperm hlast (readAt_none hfar hrows.1),
          Option.map_none]
      · exact readRows_unnamed (positions_none hplain hapart hnames) _ _
    · exact readRows_sum hplain hsum _
  · rw [scanCards_none hplain hstrings, Option.bind_none]

end Rows

section Padded

variable {f : EventFile}

def PaddedCard : Card → Prop
  | .ttype _ field => Padded field
  | .tform _ field => Padded field
  | _ => True

instance : DecidablePred PaddedCard
  | .ttype _ field => inferInstanceAs (Decidable (Padded field))
  | .tform _ field => inferInstanceAs (Decidable (Padded field))
  | .naxis1 _ | .naxis2 _ | .tfields _ | .other _ => instDecidableTrue

theorem namesApart_of_padded (hpad : ∀ card ∈ f.cards, PaddedCard card) : NamesApart f :=
  fun _ _ hcard hunpadded => absurd (hpad _ hcard) hunpadded

theorem sizesRead_of_padded (hpad : ∀ card ∈ f.cards, PaddedCard card) :
    sizesRead f = sizes f.toTable := by
  rw [sizes_zipIdx, sizesRead]
  refine List.map_congr_left fun p hp => ?_
  obtain ⟨column, c⟩ := p
  have hcolumn : f.columns[c]? = some column := List.mem_zipIdx_iff_getElem?.mp hp
  obtain ⟨card, hcard, hforms⟩ := f.tform_trailing c (List.getElem?_eq_some_iff.mp hcolumn).1
  have hsize : ∀ card ∈ f.cards, ∀ size, formRead column c card = some size →
      size = formSize column.form := by
    intro card hcard size hsize
    cases card with
    | tform digits field =>
      rw [formRead] at hsize
      split_ifs at hsize
      have hfield : Padded field := hpad _ hcard
      rw [← Option.some.inj hsize, sizeRead, if_pos hfield]
    | _ => cases hsize
  cases hlast : (f.cards.filterMap (formRead column c)).getLast? with
  | none =>
    rw [List.getLast?_eq_none_iff, List.filterMap_eq_nil_iff] at hlast
    exact absurd (hlast card (f.trailing_subset hcard)) (formRead_ne_none hforms)
  | some size =>
    obtain ⟨other, hother, hread⟩ := List.mem_filterMap.mp (List.mem_of_getLast? hlast)
    exact hsize other hother size hread

theorem reads_of_padded (hplain : Plain f) (hfew : f.columns.length ≤ 99)
    (hfull : NoEmptyColumn f.toTable) (hpad : ∀ card ∈ f.cards, PaddedCard card) : Reads f := by
  have hwidths : sizesRead f = f.widths := by
    rw [sizesRead_of_padded hpad, sizes_eq_widths hfull]
  refine ⟨hfew, ?_, by rw [hwidths, Table.rowSize], ?_, .inr ?_⟩
  · intro card hcard
    have hlayout := hplain.cards card hcard
    have hstring := hpad card hcard
    cases card with
    | ttype digits field =>
      intro htext
      rw [PaddedCard, Padded, htext] at hstring
      cases hstring
    | tform digits field =>
      obtain ⟨-, column, hcolumn, hform⟩ := (f.true_cards _ hcard).1
      have hextra := hplain.forms column (List.mem_of_getElem? hcolumn)
      rw [Readable, readText_form hform hlayout.2.1 hextra hstring]
      exact form_ne_nil column.form
    | _ => trivial
  · intro c hc
    obtain ⟨card, hcard, hnames⟩ := f.named c hc
    have hmem := f.mem_cards hcard
    cases card with
    | ttype digits field => exact ⟨digits, field, hmem, hnames, hpad _ hmem⟩
    | _ => exact hnames.elim
  · intro c hc
    have htwo : c < f.columns.length ∧ f.widths.getD c 0 = 2 := by
      cases List.mem_pair.mp hc with
      | inl h => exact h ▸ short_of_holds f.holds_x
      | inr h => exact h ▸ short_of_holds f.holds_y
    have hle := Table.offset_add_width_le htwo.1
    rw [offsetRead, hwidths]
    rw [htwo.2] at hle
    exact hle

end Padded

section Agreement

variable {f : EventFile} {cpu_count : ℕ} {schedule : List (ℕ × ℕ) → List (ℕ × ℕ)}

/-- Where one of the readers returns arrays, the other returns the same. -/
def Agree (cpu_count : ℕ) (schedule : List (ℕ × ℕ) → List (ℕ × ℕ)) (f : EventFile) : Prop :=
  ∀ (n : ℕ) (events : List Event),
    readSxsEvents f.bytes = some ⟨n, some events⟩ ↔
      readEvents cpu_count schedule f.bytes = some ⟨n, events⟩

theorem sizesRead_of_full (hfull : NoEmptyColumn f.toTable)
    (hsum : (sizesRead f).sum = f.rowSize) : sizesRead f = f.widths := by
  have hwidths := sizes_eq_widths hfull
  rw [← hwidths]
  exact sizesRead_eq (by rw [hsum, hwidths, Table.rowSize])

theorem eventRead_of_full (hfull : NoEmptyColumn f.toTable)
    (hsum : (sizesRead f).sum = f.rowSize) (row : List UInt8) :
    eventRead f row = trueEvent f.toTable row := by
  have hwidths := sizesRead_of_full hfull hsum
  have hvalue : ∀ c, numberRead row (offsetRead f c) (f.widths.getD c 0) = f.value row c := by
    intro c
    rw [numberRead, offsetRead, hwidths]
    rfl
  have hx := hvalue f.x
  have hy := hvalue f.y
  have hpi := hvalue f.pi
  rw [(short_of_holds f.holds_x).2] at hx
  rw [(short_of_holds f.holds_y).2] at hy
  rw [eventRead, trueEvent, hx, hy, hwidths, ← hpi]
  cases (width_pi f).2 with
  | inl hsize => rw [hsize, if_pos rfl]
  | inr hsize => rw [hsize, if_neg (by decide), if_pos rfl]

theorem readSxsEvents_noArrays (hplain : Plain f)
    (h : ¬ (NoEmptyColumn f.toTable ∧ RowsInRange f.toTable)) (n : ℕ) (events : List Event) :
    readSxsEvents f.bytes ≠ some ⟨n, some events⟩ := by
  have hread := SxsHeader.understood_of_plain hplain
  by_cases hfull : NoEmptyColumn f.toTable
  · have hrange : ¬ RowsInRange f.toTable := fun hrange => h ⟨hfull, hrange⟩
    rw [SxsEvents.readSxsEvents_overflow hread hfull hrange]
    exact (Option.some_ne_none _).symm
  · rw [SxsEvents.readSxsEvents_empty hread hfull]
    simp

/-- Where both return arrays, only the sign of `PI` can differ. -/
theorem agree_iff_nonnegativePi (hplain : Plain f) (hapart : NamesApart f)
    (hperm : ∀ l, (schedule l).Perm l) (hfull : NoEmptyColumn f.toTable)
    (hrange : RowsInRange f.toTable) (hreads : Reads f) :
    Agree cpu_count schedule f ↔ NonnegativePi f.toTable := by
  have hread := SxsHeader.understood_of_plain hplain
  have hmap : f.rows.map (eventRead f) = f.rows.map (trueEvent f.toTable) :=
    List.map_congr_left fun row _ => eventRead_of_full hfull hreads.sizes row
  have hagree : Agree cpu_count schedule f ↔
      f.rows.map (SxsEvents.readEvent f.toTable) = f.rows.map (trueEvent f.toTable) := by
    rw [Agree, SxsEvents.readSxsEvents_inRange hread hfull hrange,
      readEvents_of_reads hplain hapart hperm hreads, hmap]
    constructor
    · intro h
      have h := (h f.rows.length _).mp rfl
      simpa using h.symm
    · intro h n events
      simp [h]
  rw [hagree, List.map_inj_left]
  exact forall₂_congr fun row _ => SxsEvents.readEvent_eq_iff f.toTable row

theorem agree_iff_of_plain (hplain : Plain f) (hapart : NamesApart f)
    (hperm : ∀ l, (schedule l).Perm l) :
    Agree cpu_count schedule f ↔
      (NoEmptyColumn f.toTable ∧ RowsInRange f.toTable ∧ Reads f ∧ NonnegativePi f.toTable) ∨
        ¬ (NoEmptyColumn f.toTable ∧ RowsInRange f.toTable) ∧ ¬ Reads f := by
  have hsome : Reads f → readEvents cpu_count schedule f.bytes = _ :=
    readEvents_of_reads hplain hapart hperm
  have hnone : ¬ Reads f → readEvents cpu_count schedule f.bytes = none :=
    readEvents_of_not_reads hplain hapart hperm
  by_cases harrays : NoEmptyColumn f.toTable ∧ RowsInRange f.toTable
  · obtain ⟨hfull, hrange⟩ := harrays
    by_cases hreads : Reads f
    · rw [agree_iff_nonnegativePi hplain hapart hperm hfull hrange hreads]
      constructor
      · exact fun h => .inl ⟨hfull, hrange, hreads, h⟩
      · intro h
        cases h with
        | inl h => exact h.2.2.2
        | inr h => exact absurd hreads h.2
    · constructor
      · intro h
        have hsxs := SxsEvents.readSxsEvents_inRange (SxsHeader.understood_of_plain hplain) hfull
          hrange
        have h := (h f.rows.length _).mp hsxs
        rw [hnone hreads] at h
        cases h
      · intro h
        cases h with
        | inl h => exact absurd h.2.2.1 hreads
        | inr h => exact absurd ⟨hfull, hrange⟩ h.1
  · have hsxs := readSxsEvents_noArrays hplain harrays
    constructor
    · intro h
      refine .inr ⟨harrays, fun hreads => ?_⟩
      exact hsxs _ _ ((h _ _).mpr (hsome hreads))
    · intro h n events
      cases h with
      | inl h => exact absurd ⟨h.1, h.2.1⟩ harrays
      | inr h =>
        rw [hnone h.2]
        exact ⟨fun h => absurd h (hsxs n events), fun h => by cases h⟩

theorem padded_sampleFile (high low : UInt8) :
    ∀ card ∈ (SxsEvents.sampleFile high low).cards, PaddedCard card :=
  (by decide : ∀ card ∈ SxsEvents.sampleCards, PaddedCard card)

theorem reads_sampleFile (high low : UInt8) : Reads (SxsEvents.sampleFile high low) :=
  reads_of_padded (SxsEvents.plain_sampleFile high low) (by decide : 3 ≤ 99)
    (SxsEvents.sample_noEmptyColumn high low) (padded_sampleFile high low)

end Agreement

end XWebQL.ZigEvents
