import XWebQL.SxsHeader

/-! The events that `read_sxs_events` returns for a well-formed file. -/

namespace XWebQL.SxsEvents

open AsciiText FitsTable SxsReader SxsHeader
open SingleFloat (toSingle)

section Header

variable {f : EventFile}

def final (f : EventFile) : Meta := f.cards.foldl (readCard f.toTable) .start

theorem position_final {get : Meta → ℤ} {name : String} {c : ℕ} {types : List ColumnType}
    (hholds : f.Holds c name types)
    (hget : ∀ m i w, get (m.setName i w) = if w = ascii name then i else get m)
    (hother : ∀ m card, (∀ digits field, card ≠ .ttype digits field) →
      get (readCard f.toTable m card) = get m)
    (hcard : ∃ card ∈ f.leading ++ f.trailing, card.Names c) : get (final f) = c + 1 := by
  obtain ⟨card, hcard, hnames⟩ := hcard
  obtain ⟨column, hcolumn, hcalled, -, -, hunique⟩ := hholds
  refine foldl_set (g := get) (f.mem_cards hcard) ?_ ?_ .start
  · intro m
    cases card with
    | ttype digits field =>
      have hdigits : decimal digits = c + 1 := hnames
      rw [readCard, hdigits, Nat.add_sub_cancel, hcolumn]
      simp only [hget, hcalled, if_true]
      push_cast
      rfl
    | _ => exact hnames.elim
  · intro m card hcard
    cases card with
    | ttype digits field =>
      obtain ⟨hindex, other, hcolumn, -⟩ := (f.true_cards _ hcard).1
      rw [readCard, hcolumn]
      simp only [hget]
      split_ifs with hname
      · left
        have hc := hunique _ other hcolumn hname
        have hpos := hindex.pos
        omega
      · exact .inr rfl
    | _ => exact .inr (hother m _ fun _ _ h => by cases h)

theorem readCard_others (t : Table) (m : Meta) (card : Card) :
    ((∀ field, card ≠ .naxis1 field) → (readCard t m card).naxis1 = m.naxis1) ∧
    ((∀ field, card ≠ .naxis2 field) → (readCard t m card).naxis2 = m.naxis2) ∧
    ((∀ field, card ≠ .tfields field) → (readCard t m card).tfields = m.tfields) ∧
    ((∀ digits field, card ≠ .ttype digits field) →
      (readCard t m card).posx = m.posx ∧ (readCard t m card).posy = m.posy ∧
        (readCard t m card).pospi = m.pospi) := by
  cases card <;> grind [readCard, Meta.setName, Meta.setSize, Meta.setTfields]

theorem naxis1_final (f : EventFile) : (final f).naxis1 = f.rowSize := by
  obtain ⟨field, hcard⟩ := f.naxis1
  refine foldl_set (g := Meta.naxis1) (f.mem_cards hcard) (fun _ => rfl) ?_ .start
  intro m card _
  cases card with
  | naxis1 => exact .inl rfl
  | _ => exact .inr ((readCard_others _ m _).1 fun _ h => by cases h)

theorem naxis2_final (f : EventFile) : (final f).naxis2 = f.rows.length := by
  obtain ⟨field, hcard⟩ := f.naxis2
  refine foldl_set (g := Meta.naxis2) (f.mem_cards hcard) (fun _ => rfl) ?_ .start
  intro m card _
  cases card with
  | naxis2 => exact .inl rfl
  | _ => exact .inr ((readCard_others _ m _).2.1 fun _ h => by cases h)

theorem posx_final (f : EventFile) : (final f).posx = f.x + 1 :=
  position_final f.holds_x setName_posx (fun m card h => ((readCard_others _ m card).2.2.2 h).1)
    (f.named f.x (by simp))

theorem posy_final (f : EventFile) : (final f).posy = f.y + 1 :=
  position_final f.holds_y setName_posy (fun m card h => ((readCard_others _ m card).2.2.2 h).2.1)
    (f.named f.y (by simp))

theorem pospi_final (f : EventFile) : (final f).pospi = f.pi + 1 :=
  position_final f.holds_pi setName_pospi
    (fun m card h => ((readCard_others _ m card).2.2.2 h).2.2) (f.named f.pi (by simp))

/-- The entries of `columns` are the sizes. -/
def Sized (t : Table) (l : List (Option ℤ)) : Prop :=
  ∀ (c : ℕ) (column : Column), t.columns[c]? = some column →
    l[c]? = some (some (formSize column.form : ℤ))

/-- `TFIELDS` has been read. -/
def Allocated (t : Table) (m : Meta) : Prop :=
  m.tfields = t.columns.length ∧ ∃ l, m.columns = some l ∧ l.length = t.columns.length

theorem allocated_readCard {t : Table} {m : Meta} {card : Card} (hcard : card.isTfields = false)
    (hm : Allocated t m) : Allocated t (readCard t m card) := by
  obtain ⟨htfields, l, hl, hlength⟩ := hm
  cases card with
  | tfields => cases hcard
  | ttype digits field =>
    rw [readCard]
    split
    · exact ⟨htfields, l, hl, hlength⟩
    · rename_i column _
      have h := setName_columns m (decimal digits) column.name
      exact ⟨h.2.trans htfields, l, h.1.trans hl, hlength⟩
  | tform digits field =>
    rw [readCard]
    split
    · exact ⟨htfields, l, hl, hlength⟩
    · rename_i column _
      have h := setSize_columns hl (decimal digits) (formSize column.form)
      refine ⟨h.2.trans htfields, _, h.1, ?_⟩
      split_ifs
      · rw [List.length_set, hlength]
      · exact hlength
  | _ => exact ⟨htfields, l, hl, hlength⟩

/-- Entry `c` of `columns` is set. -/
def SizedAt (m : Meta) (c : ℕ) (form : Form) : Prop :=
  ∃ l, m.columns = some l ∧ l[c]? = some (some (formSize form : ℤ))

theorem sizedAt_set {t : Table} {m : Meta} {card : Card} {c : ℕ} {column : Column}
    (hcolumn : t.columns[c]? = some column) (hcard : card.Forms c) (hm : Allocated t m) :
    SizedAt (readCard t m card) c column.form := by
  obtain ⟨htfields, l, hl, hlength⟩ := hm
  have hc := (List.getElem?_eq_some_iff.mp hcolumn).1
  cases card with
  | tform digits field =>
    have hdigits : decimal digits = c + 1 := hcard
    rw [readCard, hdigits, Nat.add_sub_cancel, hcolumn]
    refine ⟨_, (setSize_columns hl _ _).1, ?_⟩
    rw [if_pos (by omega), Int.toNat_natCast, Nat.add_sub_cancel]
    exact List.getElem?_set_self (by omega)
  | _ => exact hcard.elim

theorem sizedAt_keep {t : Table} {m : Meta} {card : Card} {c : ℕ} {column : Column}
    (hcolumn : t.columns[c]? = some column) (htrue : card.Says t) (hcard : card.isTfields = false)
    (hm : SizedAt m c column.form) : SizedAt (readCard t m card) c column.form := by
  obtain ⟨l, hl, hsize⟩ := hm
  cases card with
  | tfields => cases hcard
  | ttype digits field =>
    obtain ⟨-, other, hother, -⟩ := htrue
    rw [readCard, hother]
    exact ⟨l, (setName_columns m _ _).1.trans hl, hsize⟩
  | tform digits field =>
    obtain ⟨hindex, other, hother, -⟩ := htrue
    rw [readCard, hother]
    refine ⟨_, (setSize_columns hl _ _).1, ?_⟩
    split_ifs
    · rw [Int.toNat_natCast, List.getElem?_set]
      split_ifs with hsame hlt
      · rw [hsame, hcolumn] at hother
        rw [Option.some.inj hother]
      · rw [hsame] at hlt
        exact absurd (List.getElem?_eq_some_iff.mp hsize).1 hlt
      · exact hsize
    · exact hsize
  | _ => exact ⟨l, hl, hsize⟩

theorem columns_final (f : EventFile) :
    (final f).tfields = f.columns.length ∧ ∃ l, (final f).columns = some l ∧ Sized f.toTable l := by
  have honce : ∀ card ∈ f.trailing, card.isTfields = false := fun card hcard =>
    f.tfields_once card (List.mem_append_right _ hcard)
  -- after `TFIELDS` the entries are there, and every `TFORMn` is still to come
  obtain ⟨m, hm, hfinal⟩ : ∃ m, Allocated f.toTable m ∧
      final f = f.trailing.foldl (readCard f.toTable) m := by
    refine ⟨_, ?_, by rw [final, EventFile.cards, List.foldl_append, List.foldl_cons]⟩
    have hcount : ¬ ((f.columns.length : ℤ) < 0) := by omega
    refine ⟨rfl, List.replicate f.columns.length none, ?_, List.length_replicate⟩
    simp only [readCard, Meta.setTfields, if_neg hcount, Int.toNat_natCast]
  rw [hfinal]
  obtain ⟨htfields, l, hl, -⟩ : Allocated f.toTable (f.trailing.foldl (readCard f.toTable) m) :=
    foldl_keeps (fun m d hd => allocated_readCard (honce d hd)) hm
  refine ⟨htfields, l, hl, ?_⟩
  intro c column hcolumn
  obtain ⟨card, hcard, hforms⟩ :=
    f.tform_trailing c (List.getElem?_eq_some_iff.mp hcolumn).1
  obtain ⟨l', hl', hsize⟩ := foldl_established (P := fun m => SizedAt m c column.form)
    (Q := Allocated f.toTable) hcard
    (fun m d hd => allocated_readCard (honce d hd))
    (fun m hm => sizedAt_set hcolumn hforms hm)
    (fun m d hd _ => sizedAt_keep hcolumn (f.true_cards d (f.trailing_subset hd)).1 (honce d hd)) hm
  rw [hl] at hl'
  rw [Option.some.inj hl']
  exact hsize

theorem findTable_start (f : EventFile) : findTable f.bytes 0 = some f.start := by
  have h : findTable f.bytes 0 = some (0 + 2880 * f.before.length) :=
    findTable_blocks f.length_before f.first_table rfl
      (f.tableMark_prefix_header.trans (List.prefix_append _ _)) (by
        rw [List.length_append, f.length_header]
        omega)
  rw [h, Nat.zero_add, EventFile.start]

theorem readHeader_final (hread : Understood f) :
    readHeader f.bytes f.start .start =
      some (f.start + 2880 * (f.cards.length / 36), final f) := by
  have hlength := f.length_bytes
  rw [EventFile.data] at hlength
  have hheader : f.bytes.drop f.start =
      f.cards.flatMap Card.bytes ++ (endCard ++ (f.fill ++ (f.rows.flatten ++ f.after))) := by
    rw [f.drop_start, EventFile.header]
    simp only [List.append_assoc]
  exact readHeader_cards hread (List.Subset.refl _) (List.mem_append_right _ hread.ends) .start
    hheader (by omega)

theorem readSxsEvents_header (hread : Understood f) :
    readSxsEvents f.bytes = readRows f.bytes f.data (final f) := by
  have hlength := f.length_bytes
  rw [EventFile.data] at hlength
  have hlong : ¬ f.bytes.length < FITS_CHUNK_LENGTH := by
    unfold FITS_CHUNK_LENGTH
    omega
  rw [readSxsEvents, if_neg hlong, findTable_start]
  simp only [readHeader_final hread, Option.bind_eq_bind, Option.bind_some]
  unfold FITS_CHUNK_LENGTH
  rw [EventFile.data, Nat.mul_add, Nat.mul_one, Nat.add_assoc]

end Header

section Sizes

variable {t : Table} {l : List (Option ℤ)}

def sizes (t : Table) : List ℕ := t.columns.map fun column => formSize column.form

theorem getColumnOffset_sum {ns : List ℕ}
    (hl : ∀ (c n : ℕ), ns[c]? = some n → l[c]? = some (some (n : ℤ)))
    (hsum : ns.sum < 2147483648) {k : ℕ} (hk : k ≤ ns.length) :
    getColumnOffset l k = some ((ns.take k).sum : ℤ) := by
  induction k with
  | zero => rfl
  | succ k ih =>
    have hsize := List.getElem?_eq_getElem hk
    have htake : (ns.take (k + 1)).sum = (ns.take k).sum + ns[k] := by
      rw [List.take_add_one, List.sum_append, hsize, Option.toList_some, List.sum_singleton]
    have hle : (ns.take (k + 1)).sum ≤ ns.sum :=
      (List.take_sublist _ _).sum_le_sum fun _ _ => Nat.zero_le _
    rw [getColumnOffset, ih (by omega), hl k _ hsize]
    simp only [Option.bind_eq_bind, Option.bind_some, Option.join_some]
    rw [← Nat.cast_add, ← htake, int_natCast (by omega)]

theorem getColumnOffset_sized (hl : Sized t l) (hsum : (sizes t).sum < 2147483648) {k : ℕ}
    (hk : k ≤ t.columns.length) : getColumnOffset l k = some (((sizes t).take k).sum : ℤ) := by
  refine getColumnOffset_sum ?_ hsum (by rwa [sizes, List.length_map])
  intro c n hn
  rw [sizes, List.getElem?_map, Option.map_eq_some_iff] at hn
  obtain ⟨column, hcolumn, hsize⟩ := hn
  rw [hl c column hcolumn, hsize]

theorem formSize_eq_width {form : Form} (h : form.count ≠ 0) : formSize form = form.width := by
  have hmax : max 1 form.count = form.count := by omega
  rw [formSize, Form.width, hmax]

theorem width_lt_formSize {form : Form} (h : form.count = 0) : form.width < formSize form := by
  unfold Form.width formSize
  rw [h]
  cases form.type <;> decide

theorem sizes_eq_widths (h : ∀ column ∈ t.columns, column.form.count ≠ 0) :
    sizes t = t.widths :=
  List.map_congr_left fun column hcolumn => formSize_eq_width (h column hcolumn)

theorem rowSize_lt (h : ∃ column ∈ t.columns, column.form.count = 0) :
    t.rowSize < (sizes t).sum := by
  obtain ⟨column, hcolumn, hcount⟩ := h
  exact List.sum_lt_sum _ _ (fun c _ => width_le_formSize c.form)
    ⟨column, hcolumn, width_lt_formSize hcount⟩

end Sizes

theorem size_natCast {n : ℕ} (hn : n < 18446744073709551616) : size n = n := by
  rw [size, Int.emod_eq_of_lt (by omega) (by omega), Int.toNat_natCast]

section Rows

theorem bswap16_word {a b : ℕ} (ha : a < 256) :
    bswap16 (a + 256 * b) = 256 * a + b := by
  unfold bswap16
  omega

theorem bswap16_fromLittleEndian {bytes : List UInt8} (h : bytes.length = 2) :
    bswap16 (DataView.fromLittleEndian bytes) = fromBigEndian bytes := by
  obtain ⟨a, b, rfl⟩ := List.length_eq_two.mp h
  have hswap := bswap16_word (b := b.toNat) a.toNat_lt
  simpa [DataView.fromLittleEndian, fromBigEndian] using hswap

theorem bswap32_fromLittleEndian {bytes : List UInt8} (h : bytes.length = 4) :
    bswap32 (DataView.fromLittleEndian bytes) = fromBigEndian bytes := by
  obtain ⟨a, b, c, d, rfl⟩ := List.length_eq_four.mp h
  have ha := a.toNat_lt
  have hb := b.toNat_lt
  simp only [DataView.fromLittleEndian, fromBigEndian, List.foldl_cons, List.foldl_nil]
  have hlow : (a.toNat + 256 * (b.toNat + 256 * (c.toNat + 256 * (d.toNat + 256 * 0)))) % 65536 =
      a.toNat + 256 * b.toNat := by omega
  have hhigh : (a.toNat + 256 * (b.toNat + 256 * (c.toNat + 256 * (d.toNat + 256 * 0)))) / 65536 =
      c.toNat + 256 * d.toNat := by omega
  rw [bswap32, hlow, hhigh, bswap16_word ha, bswap16_word c.toNat_lt]
  ring

variable {f : EventFile} {i c : ℕ} {row : List UInt8}

theorem load_cell (hi : f.rows[i]? = some row) (hc : c < f.columns.length) :
    load f.bytes (f.widths.getD c 0) ((f.data + (i * f.rowSize : ℕ) + f.offset c : ℤ)) =
      some (DataView.fromLittleEndian (f.cell row c)) := by
  obtain ⟨hle, hcell⟩ := f.cell_in_bytes hi hc
  have haddress : (f.data + (i * f.rowSize : ℕ) + f.offset c : ℤ) =
      ((f.data + i * f.rowSize + f.offset c : ℕ) : ℤ) := by
    push_cast
    rfl
  rw [haddress, load, if_neg (by omega), Int.toNat_natCast, DataView.subarray, if_pos hle, hcell,
    Option.map_some]

theorem short_of_holds {t : Table} {name : String} (h : t.Holds c name [.I]) :
    c < t.columns.length ∧ t.widths.getD c 0 = 2 := by
  obtain ⟨hc, type, htype, hwidth⟩ := h.width
  rw [List.mem_singleton.mp htype] at hwidth
  exact ⟨hc, hwidth⟩

theorem width_pi (f : EventFile) :
    f.pi < f.columns.length ∧ (f.widths.getD f.pi 0 = 2 ∨ f.widths.getD f.pi 0 = 4) := by
  obtain ⟨hc, type, htype, hwidth⟩ := f.holds_pi.width
  refine ⟨hc, ?_⟩
  cases List.mem_pair.mp htype with
  | inl htype => exact .inl (by rw [hwidth, htype]; rfl)
  | inr htype => exact .inr (by rw [hwidth, htype]; rfl)

/-- What the reader makes of a row: the two coordinates are signed, the energy is not. -/
def readEvent (t : Table) (row : List UInt8) : Event :=
  ⟨t.value row t.x, t.value row t.y, toSingle (fromBigEndian (t.cell row t.pi))⟩

theorem readRow_row (hi : f.rows[i]? = some row) (hlt : i * f.rowSize < 2147483648) :
    readRow f.bytes f.data f.rowSize (f.offset f.x) (f.offset f.y) (f.offset f.pi)
      (f.widths.getD f.pi 0 : ℕ) i = some (readEvent f.toTable row) := by
  have hrow := f.length_row row (List.mem_of_getElem? hi)
  obtain ⟨hx, hwx⟩ := short_of_holds f.holds_x
  obtain ⟨hy, hwy⟩ := short_of_holds f.holds_y
  obtain ⟨hpi, hwpi⟩ := width_pi f
  have hlength : ∀ {c : ℕ}, c < f.columns.length → (f.cell row c).length = f.widths.getD c 0 :=
    fun hc => Table.length_cell hc hrow
  have hshort : ∀ {c : ℕ}, c < f.columns.length → f.widths.getD c 0 = 2 →
      Int.bmod (bswap16 (DataView.fromLittleEndian (f.cell row c))) 65536 = f.value row c := by
    intro c hc hwidth
    have htwo := (hlength hc).trans hwidth
    rw [bswap16_fromLittleEndian htwo, Table.value, twosComplement, htwo]
    rfl
  have hloadx := load_cell hi hx
  have hloady := load_cell hi hy
  have hloadpi := load_cell hi hpi
  have hstep : int (i * (f.rowSize : ℤ)) = some ((i * f.rowSize : ℕ) : ℤ) :=
    int_natCast (n := i * f.rowSize) hlt
  have hcell := hlength hpi
  rw [hwx] at hloadx
  rw [hwy] at hloady
  simp only [readRow, hstep, Option.bind_eq_bind, Option.bind_some, hloadx, hloady,
    hshort hx hwx, hshort hy hwy, readEvent]
  cases hwpi with
  | inl hwpi =>
    rw [hwpi] at hloadpi hcell ⊢
    rw [if_pos Nat.cast_ofNat, hloadpi, Option.map_some, Option.bind_some,
      bswap16_fromLittleEndian hcell]
  | inr hwpi =>
    rw [hwpi] at hloadpi hcell ⊢
    rw [if_neg (by norm_num), if_pos Nat.cast_ofNat, hloadpi, Option.map_some, Option.bind_some,
      bswap32_fromLittleEndian hcell]

theorem mapM_range {α β : Type} {l : List α} {g : ℕ → Option β} {h : α → β}
    (hg : ∀ i a, l[i]? = some a → g i = some (h a)) :
    (List.range l.length).mapM g = some (l.map h) := by
  induction l using List.reverseRecOn with
  | nil => rfl
  | append_singleton l a ih =>
    have hfirst := ih fun i b hb => hg i b (by
      rw [List.getElem?_append_left (List.getElem?_eq_some_iff.mp hb).1, hb])
    have hlast : g l.length = some (h a) := hg l.length a (by simp)
    rw [List.length_append, List.length_singleton, List.range_succ, List.mapM_append, hfirst]
    simp [hlast]

theorem readRows_of_empty (hread : Understood f) (h : ∃ column ∈ f.columns, column.form.count = 0) :
    readRows f.bytes f.data (final f) = some ⟨0, none⟩ := by
  obtain ⟨htfields, l, hl, hsized⟩ := columns_final f
  have hsum := getColumnOffset_sized hsized hread.sizes le_rfl
  have hall : (sizes f.toTable).take f.columns.length = sizes f.toTable :=
    List.take_of_length_le (by rw [sizes, List.length_map])
  have hne : ((sizes f.toTable).sum : ℤ) ≠ f.rowSize := by
    have hlt := rowSize_lt h
    omega
  rw [hall] at hsum
  simp only [readRows, htfields, hl, Option.getD_some, Int.toNat_natCast, hsum,
    Option.bind_eq_bind, Option.bind_some, naxis1_final, if_pos hne]

/-- The test of the length is passed, even where its sum wraps around. -/
theorem rows_inside (hrowSize : f.rowSize < 2147483648) (hrows : f.rows.length < 2147483648) :
    (f.data + size f.rows.length * size f.rowSize) % 18446744073709551616 ≤ f.bytes.length := by
  have hlength := f.length_bytes
  have hmod := Nat.mod_le (f.data + f.rows.length * f.rowSize) 18446744073709551616
  rw [f.length_flatten_rows, Nat.mul_comm f.rowSize] at hlength
  rw [size_natCast (by omega), size_natCast (by omega)]
  omega

theorem readRows_of_full (hread : Understood f) (h : ∀ column ∈ f.columns, column.form.count ≠ 0) :
    readRows f.bytes f.data (final f) =
      ((List.range f.rows.length).mapM (readRow f.bytes f.data f.rowSize (f.offset f.x)
        (f.offset f.y) (f.offset f.pi) (f.widths.getD f.pi 0 : ℕ))).map
          fun events => ⟨f.rows.length, some events⟩ := by
  obtain ⟨htfields, l, hl, hsized⟩ := columns_final f
  have hoffset : ∀ {k : ℕ}, k ≤ f.columns.length →
      getColumnOffset l k = some ((f.offset k : ℕ) : ℤ) := by
    intro k hk
    rw [getColumnOffset_sized hsized hread.sizes hk, sizes_eq_widths h, Table.offset]
  have hposition : ∀ {c : ℕ}, c < f.columns.length →
      positionOffset l (c + 1) = some ((f.offset c : ℕ) : ℤ) := by
    intro c hc
    have hlt := f.length_columns_lt
    rw [positionOffset, Int.add_sub_cancel, int_natCast (by omega)]
    simp only [Option.bind_eq_bind, Option.bind_some, Int.toNat_natCast]
    exact hoffset hc.le
  have hall : f.offset f.columns.length = f.rowSize := by
    rw [Table.offset, List.take_of_length_le (by rw [Table.widths, List.length_map]), Table.rowSize]
  obtain ⟨hx, -⟩ := short_of_holds f.holds_x
  obtain ⟨hy, -⟩ := short_of_holds f.holds_y
  obtain ⟨hpi, -⟩ := width_pi f
  have hpisize : l[f.pi]?.join = some ((f.widths.getD f.pi 0 : ℕ) : ℤ) := by
    have hcolumn := List.getElem?_eq_getElem hpi
    rw [hsized f.pi _ hcolumn, Option.join_some, Table.widths, List.getD_eq_getElem?_getD,
      List.getElem?_map, hcolumn, formSize_eq_width (h _ (List.getElem_mem hpi))]
    rfl
  have hfits := Nat.not_lt.mpr (rows_inside ((rowSize_le _).trans_lt hread.sizes) hread.rows)
  have hcount : ¬ ((f.rows.length : ℤ) < 0) := by omega
  have hpospi : ¬ ((f.pi : ℤ) + 1 < 1) := by omega
  simp only [readRows, htfields, hl, Option.getD_some, Int.toNat_natCast, hoffset le_rfl, hall,
    Option.bind_eq_bind, Option.bind_some, naxis1_final, naxis2_final, posx_final, posy_final,
    pospi_final, hposition hx, hposition hy, hposition hpi, hpisize,
    ne_eq, not_true_eq_false, if_false, if_neg hfits, if_neg hcount, if_neg hpospi,
    Int.add_sub_cancel]
  cases (List.range f.rows.length).mapM (readRow f.bytes f.data f.rowSize (f.offset f.x)
    (f.offset f.y) (f.offset f.pi) (f.widths.getD f.pi 0 : ℕ)) <;> rfl

end Rows

section Columns

def trueEvent (t : Table) (row : List UInt8) : Event :=
  ⟨t.value row t.x, t.value row t.y, toSingle (t.value row t.pi)⟩

theorem trueEvent_energy (t : Table) (row : List UInt8) :
    SingleFloat.IsSingle (trueEvent t row).energy ∧ ∀ z, SingleFloat.IsSingle z →
      |(trueEvent t row).energy - t.value row t.pi| ≤ |z - t.value row t.pi| :=
  ⟨SingleFloat.isSingle_toSingle _, SingleFloat.toSingle_near _⟩

/-- The reader returns `NAXIS2`, and for each row what its columns hold. -/
def ReadsColumns (f : EventFile) : Prop :=
  ∃ r, readSxsEvents f.bytes = some r ∧ r.num_events = f.rows.length ∧
    ∀ (i : ℕ) (row : List UInt8), f.rows[i]? = some row →
      ∃ events, r.events = some events ∧ events[i]? = some (trueEvent f.toTable row)

def NoEmptyColumn (t : Table) : Prop := ∀ column ∈ t.columns, column.form.count ≠ 0

/-- The offset of the last row is of type `int`. -/
def RowsInRange (t : Table) : Prop := (t.rows.length - 1) * t.rowSize < 2147483648

/-- No value in the column `PI` is negative. -/
def NonnegativePi (t : Table) : Prop := ∀ row ∈ t.rows, 0 ≤ t.value row t.pi

theorem readEvent_eq_iff (t : Table) (row : List UInt8) :
    readEvent t row = trueEvent t row ↔ 0 ≤ t.value row t.pi := by
  have henergy : readEvent t row = trueEvent t row ↔
      toSingle (fromBigEndian (t.cell row t.pi)) = toSingle (t.value row t.pi) := by
    rw [readEvent, trueEvent, Event.mk.injEq]
    simp only [true_and]
  rw [henergy]
  cases twosComplement_cases (t.cell row t.pi) with
  | inl heq =>
    rw [Table.value, heq]
    exact ⟨fun _ => by omega, fun _ => rfl⟩
  | inr hneg =>
    -- a negative number goes to a negative float, the bytes without sign to a positive one
    have hpos := SingleFloat.toSingle_pos (z := fromBigEndian (t.cell row t.pi)) (by omega)
    have hother := SingleFloat.toSingle_pos (z := -t.value row t.pi) (by
      rw [Table.value]
      omega)
    rw [SingleFloat.toSingle_neg] at hother
    rw [Table.value] at *
    constructor <;> omega

variable {f : EventFile}

theorem readSxsEvents_inRange (hread : Understood f) (hfull : NoEmptyColumn f.toTable)
    (hrange : RowsInRange f.toTable) :
    readSxsEvents f.bytes = some ⟨f.rows.length, some (f.rows.map (readEvent f.toTable))⟩ := by
  rw [readSxsEvents_header hread, readRows_of_full hread hfull, mapM_range, Option.map_some]
  intro i row hi
  have hlt := (List.getElem?_eq_some_iff.mp hi).1
  refine readRow_row hi (lt_of_le_of_lt ?_ hrange)
  exact Nat.mul_le_mul_right _ (by omega)

theorem readSxsEvents_overflow (hread : Understood f) (hfull : NoEmptyColumn f.toTable)
    (hrange : ¬ RowsInRange f.toTable) : readSxsEvents f.bytes = none := by
  have hne : 0 < f.rows.length := by
    by_contra h
    have hzero : f.rows.length = 0 := by omega
    exact hrange (by rw [RowsInRange, hzero]; norm_num)
  have hint : int (((f.rows.length - 1 : ℕ) : ℤ) * (f.rowSize : ℤ)) = none := by
    rw [← Nat.cast_mul, int, if_neg]
    unfold RowsInRange at hrange
    omega
  have hlast : readRow f.bytes f.data f.rowSize (f.offset f.x) (f.offset f.y) (f.offset f.pi)
      (f.widths.getD f.pi 0 : ℕ) (f.rows.length - 1) = none := by
    rw [readRow, hint]
    rfl
  rw [readSxsEvents_header hread, readRows_of_full hread hfull, Option.map_eq_none_iff,
    ← Option.not_isSome_iff_eq_none, mapM_isSome_iff]
  intro hall
  have hsome := hall (f.rows.length - 1) (List.mem_range.mpr (by omega))
  rw [hlast] at hsome
  cases hsome

theorem readSxsEvents_empty (hread : Understood f) (hempty : ¬ NoEmptyColumn f.toTable) :
    readSxsEvents f.bytes = some ⟨0, none⟩ := by
  rw [readSxsEvents_header hread]
  refine readRows_of_empty hread ?_
  simpa [NoEmptyColumn] using hempty

theorem nonnegativePi_of_readsColumns (hread : Understood f) (hfull : NoEmptyColumn f.toTable)
    (hrange : RowsInRange f.toTable) (h : ReadsColumns f) : NonnegativePi f.toTable := by
  obtain ⟨r, hr, -, hevents⟩ := h
  rw [readSxsEvents_inRange hread hfull hrange, Option.some.injEq] at hr
  intro row hrow
  obtain ⟨i, hi⟩ := List.mem_iff_getElem?.mp hrow
  obtain ⟨events, hsome, hevent⟩ := hevents i row hi
  rw [← hr, Option.some.injEq] at hsome
  rw [← hsome, List.getElem?_map, hi, Option.map_some, Option.some.injEq] at hevent
  exact (readEvent_eq_iff _ _).mp hevent

/-- A file whose header the reader understands is read right exactly when there is nothing to read,
or no column is empty, no row offset overflows and no `PI` is negative. -/
theorem readsColumns_iff (hread : Understood f) :
    ReadsColumns f ↔ f.rows = [] ∨
      NoEmptyColumn f.toTable ∧ RowsInRange f.toTable ∧ NonnegativePi f.toTable := by
  constructor
  · intro ⟨r, hr, hcount, hevents⟩
    by_cases hrows : f.rows = []
    · exact .inl hrows
    have hpos := List.length_pos_iff.mpr hrows
    have hfull : NoEmptyColumn f.toTable := by
      by_contra hempty
      rw [readSxsEvents_empty hread hempty, Option.some.injEq] at hr
      rw [← hr] at hcount
      have hzero : (0 : ℤ) = f.rows.length := hcount
      omega
    have hrange : RowsInRange f.toTable := by
      by_contra hrange
      rw [readSxsEvents_overflow hread hfull hrange] at hr
      cases hr
    exact .inr ⟨hfull, hrange,
      nonnegativePi_of_readsColumns hread hfull hrange ⟨r, hr, hcount, hevents⟩⟩
  · intro h
    by_cases hfull : NoEmptyColumn f.toTable
    · have hrange : RowsInRange f.toTable := by
        cases h with
        | inl hrows =>
          rw [RowsInRange, hrows]
          norm_num
        | inr h => exact h.2.1
      refine ⟨_, readSxsEvents_inRange hread hfull hrange, rfl, ?_⟩
      intro i row hi
      have hrow := List.mem_of_getElem? hi
      have hpi : 0 ≤ f.value row f.pi := by
        cases h with
        | inl hrows =>
          rw [hrows] at hrow
          cases hrow
        | inr h => exact h.2.2 row hrow
      refine ⟨_, rfl, ?_⟩
      rw [List.getElem?_map, hi, Option.map_some, (readEvent_eq_iff _ _).mpr hpi]
    · cases h with
      | inr h => exact absurd h.1 hfull
      | inl hrows =>
        refine ⟨_, readSxsEvents_empty hread hfull, by rw [hrows]; rfl, ?_⟩
        intro i row hi
        rw [hrows] at hi
        cases hi

def textCard (text : String) : Card :=
  .other (ascii text ++ List.replicate (80 - text.length) blank)

def fixedInt (digits : String) : IntField :=
  ⟨20 - digits.length, false, ascii digits, List.replicate 50 blank⟩

def fixedString (text : String) : StringField :=
  ⟨0, ascii text ++ List.replicate (8 - text.length) blank,
    List.replicate (68 - max 8 text.length) blank⟩

def shortColumn (name : String) : Column := ⟨ascii name, ⟨ascii "1", .I, [], by decide⟩⟩

def sampleColumns : List Column := [shortColumn "X", shortColumn "Y", shortColumn "PI"]

/-- One event with `X` 100, `Y` 200 and the two bytes of `PI` as given. -/
def sampleTable (high low : UInt8) : Table where
  columns := sampleColumns
  x := 0
  y := 1
  pi := 2
  rows := [[0, 100, 0, 200, high, low]]

def sampleLeading : List Card :=
  [textCard "BITPIX  =                    8", textCard "NAXIS   =                    2",
    .naxis1 (fixedInt "6"), .naxis2 (fixedInt "1"), textCard "PCOUNT  =                    0",
    textCard "GCOUNT  =                    1"]

def sampleTrailing : List Card :=
  [.ttype (ascii "1") (fixedString "X"), .tform (ascii "1") (fixedString "1I"),
    .ttype (ascii "2") (fixedString "Y"), .tform (ascii "2") (fixedString "1I"),
    .ttype (ascii "3") (fixedString "PI"), .tform (ascii "3") (fixedString "1I")]

def sampleCards : List Card :=
  .other (tableMark ++ List.replicate 60 blank) :: sampleLeading ++
    .tfields (fixedInt "3") :: sampleTrailing

def primaryBlock : List UInt8 :=
  (textCard "SIMPLE  =                    T").bytes ++
    (textCard "BITPIX  =                    8").bytes ++
      (textCard "NAXIS   =                    0").bytes ++ endCard ++ List.replicate 2560 blank

theorem length_primaryBlock : primaryBlock.length = 2880 := by
  have hcards : ∀ text ∈ ["SIMPLE  =                    T", "BITPIX  =                    8",
      "NAXIS   =                    0"], (textCard text).bytes.length = 80 := by decide
  have hend : endCard.length = 80 := rfl
  simp only [List.forall_mem_cons] at hcards
  simp only [primaryBlock, List.length_append, List.length_replicate, hcards, hend]

theorem comment_blanks (k : ℕ) : Comment (List.replicate k blank) :=
  ⟨k, [], (List.append_nil _).symm, nofun⟩

theorem fixedInt_says {digits : String} {n : ℕ} (hne : ascii digits ≠ [])
    (hdigits : ∀ c ∈ ascii digits, isDigit c = true) (hn : decimal (ascii digits) = n) :
    (fixedInt digits).Says n :=
  ⟨hne, hdigits, hn, List.cons_ne_nil _ _, comment_blanks 50⟩

theorem fixedString_says {text : String} (h : quote ∉ ascii text) :
    (fixedString text).Says (ascii text) := by
  refine ⟨⟨8 - text.length, ?_⟩, comment_blanks _⟩
  rw [StringField.escape_of_not_mem h]
  rfl

theorem index_of_digit {digits : List UInt8}
    (h : digits ∈ [ascii "1", ascii "2", ascii "3"]) : Index digits := by
  simp only [List.mem_cons, List.not_mem_nil, or_false] at h
  rcases h with rfl | rfl | rfl <;> exact ⟨by decide, by decide, by decide, by decide⟩

theorem sampleCards_true (high low : UInt8) :
    ∀ card ∈ sampleCards, card.Says (sampleTable high low) := by
  simp only [sampleCards, sampleLeading, sampleTrailing, List.cons_append, List.nil_append,
    List.forall_mem_cons]
  refine ⟨not_reserved (by decide), not_reserved (by decide), not_reserved (by decide),
    fixedInt_says (by decide) (by decide) rfl, fixedInt_says (by decide) (by decide) rfl,
    not_reserved (by decide), not_reserved (by decide),
    fixedInt_says (by decide) (by decide) rfl, ?_⟩
  refine ⟨⟨index_of_digit (by decide), _, rfl, fixedString_says (by decide)⟩,
    ⟨index_of_digit (by decide), _, rfl, fixedString_says (by decide)⟩,
    ⟨index_of_digit (by decide), _, rfl, fixedString_says (by decide)⟩,
    ⟨index_of_digit (by decide), _, rfl, fixedString_says (by decide)⟩,
    ⟨index_of_digit (by decide), _, rfl, fixedString_says (by decide)⟩,
    ⟨index_of_digit (by decide), _, rfl, fixedString_says (by decide)⟩, nofun⟩

theorem sampleCards_layout : ∀ card ∈ sampleCards, card.bytes.length = 80 ∧ Printable card.bytes := by
  decide

theorem sample_unique {high low : UInt8} {c d : ℕ} {name : List UInt8} {other : Column}
    (hc : [ascii "X", ascii "Y", ascii "PI"][c]? = some name)
    (hd : (sampleTable high low).columns[d]? = some other) (hname : other.name = name) : d = c := by
  have hnodup : [ascii "X", ascii "Y", ascii "PI"].Nodup := by decide
  have hother : [ascii "X", ascii "Y", ascii "PI"][d]? = some other.name := by
    have h := congrArg (Option.map Column.name) hd
    rwa [← List.getElem?_map] at h
  have hlt := (List.getElem?_eq_some_iff.mp hother).1
  exact (List.getElem?_inj hlt hnodup).mp (by rw [hother, hc, hname])

def sampleFile (high low : UInt8) : EventFile where
  toTable := sampleTable high low
  before := [primaryBlock]
  xtension := List.replicate 60 blank
  leading := sampleLeading
  tfields := fixedInt "3"
  trailing := sampleTrailing
  after := List.replicate 2874 0
  holds_x := ⟨_, rfl, rfl, rfl, .head _, fun _ _ => sample_unique rfl⟩
  holds_y := ⟨_, rfl, rfl, rfl, .head _, fun _ _ => sample_unique rfl⟩
  holds_pi := ⟨_, rfl, rfl, rfl, .head _, fun _ _ => sample_unique rfl⟩
  length_row := by
    intro row hrow
    rw [List.mem_singleton.mp hrow]
    rfl
  length_before := by
    intro block hblock
    rw [List.mem_singleton.mp hblock]
    exact length_primaryBlock
  first_table := by
    intro block hblock
    rw [List.mem_singleton.mp hblock]
    decide
  true_cards := fun card hcard => ⟨sampleCards_true high low card hcard,
    sampleCards_layout card hcard⟩
  naxis1 := ⟨_, .tail _ (.tail _ (.head _))⟩
  naxis2 := ⟨_, .tail _ (.tail _ (.tail _ (.head _)))⟩
  tfields_once := by decide
  tform_leading := by
    simp only [sampleLeading, List.forall_mem_cons]
    exact ⟨fun _ h => h, fun _ h => h, fun _ h => h, fun _ h => h, fun _ h => h, fun _ h => h, nofun⟩
  tform_trailing := by
    intro c hc
    have hcases : c = 0 ∨ c = 1 ∨ c = 2 := by
      have hlt : c < 3 := hc
      omega
    rcases hcases with rfl | rfl | rfl
    · exact ⟨_, .tail _ (.head _), rfl⟩
    · exact ⟨_, .tail _ (.tail _ (.tail _ (.head _))), rfl⟩
    · exact ⟨_, .tail _ (.tail _ (.tail _ (.tail _ (.tail _ (.head _))))), rfl⟩
  named := by
    intro c hc
    have hcases : c = 0 ∨ c = 1 ∨ c = 2 := by simpa [sampleTable] using hc
    rcases hcases with rfl | rfl | rfl
    · exact ⟨_, List.mem_append_right _ (.head _), rfl⟩
    · exact ⟨_, List.mem_append_right _ (.tail _ (.tail _ (.head _))), rfl⟩
    · exact ⟨_, List.mem_append_right _ (.tail _ (.tail _ (.tail _ (.tail _ (.head _))))), rfl⟩

theorem plain_sampleFile (high low : UInt8) : Plain (sampleFile high low) where
  ends := List.mem_append_right _ (List.mem_replicate.mpr ⟨by decide, rfl⟩)
  cards := (by decide : ∀ card ∈ sampleCards, PlainCard card)
  names := (by decide : ∀ column ∈ sampleColumns, ∀ name ∈ ["X", "Y", "PI"],
    firstWord column.name = ascii name → column.name = ascii name)
  forms := (by decide : ∀ column ∈ sampleColumns, column.form.extra = [])
  bits := (by decide : ∀ column ∈ sampleColumns,
    column.form.type = .X → column.form.count + 7 < 2147483648)
  sizes := (by decide :
    (sampleColumns.map fun column => formSize column.form).sum < 2147483648)
  rows := (by decide : 1 < 2147483648)

theorem understood_sampleFile (high low : UInt8) : Understood (sampleFile high low) :=
  understood_of_plain (plain_sampleFile high low)

theorem sample_noEmptyColumn (high low : UInt8) : NoEmptyColumn (sampleTable high low) :=
  (by decide : ∀ column ∈ sampleColumns, column.form.count ≠ 0)

theorem sample_rowsInRange (high low : UInt8) : RowsInRange (sampleTable high low) :=
  (by decide : (1 - 1) * 6 < 2147483648)

theorem sample_value : (sampleTable 0 5).value [0, 100, 0, 200, 0, 5] 2 = 5 ∧
    (sampleTable 255 255).value [0, 100, 0, 200, 255, 255] 2 = -1 := by
  decide

theorem sample_nonnegativePi : NonnegativePi (sampleTable 0 5) := by
  intro row hrow
  rw [List.mem_singleton.mp hrow]
  exact sample_value.1.symm ▸ (by decide : (0 : ℤ) ≤ 5)

theorem sample_negativePi : ¬ NonnegativePi (sampleTable 255 255) := by
  intro h
  have hpi : (0 : ℤ) ≤ (sampleTable 255 255).value [0, 100, 0, 200, 255, 255] 2 := h _ (.head _)
  rw [sample_value.2] at hpi
  exact absurd hpi (by decide)

end Columns

end XWebQL.SxsEvents
