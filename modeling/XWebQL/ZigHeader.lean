import XWebQL.OptionFold
import XWebQL.ZigCards

/-! What `read_events` knows when it has read a well-formed header. -/

namespace XWebQL.ZigHeader

open AsciiText FitsTable OptionFold ZigReader ZigCards
open SxsHeader (Plain formSize)
open SxsReader (startsWith)

variable {f : EventFile}

section Blocks

def scanCards (cards : List Card) (m : XMeta) : Option XMeta :=
  cards.foldlM (fun m card => scanLine card.bytes m) m

theorem not_endCard {card : Card}
    (hother : ∀ bytes, card = .other bytes → startsWith bytes "END       " = false) :
    startsWith card.bytes "END       " = false := by
  cases card with
  | other bytes => exact hother bytes rfl
  | ttype digits field => rw [Card.bytes, indexed_append]; rfl
  | tform digits field => rw [Card.bytes, indexed_append]; rfl
  | _ => rfl

def Inner (cards : List Card) : Prop :=
  ∀ card ∈ cards, card.bytes.length = 80 ∧ startsWith card.bytes "END       " = false

theorem inner_cards (f : EventFile) : Inner f.cards := by
  intro card hcard
  obtain ⟨htrue, hlength, -⟩ := f.true_cards card hcard
  refine ⟨hlength, not_endCard ?_⟩
  rintro bytes rfl
  exact startsWith_of_not_prefix fun h => htrue (.inl ⟨_, List.mem_cons_self, h⟩)

theorem Inner.length {cards : List Card} (h : Inner cards) :
    ∀ card ∈ cards, card.bytes.length = 80 := fun card hcard => (h card hcard).1

theorem scanLines_cards {cards : List Card} (hcards : Inner cards) (k : ℕ)
    (rest : List UInt8) (m : XMeta) :
    scanLines (cards.length + k) (cards.flatMap Card.bytes ++ rest) m =
      (scanCards cards m).bind (scanLines k rest) := by
  induction cards generalizing m with
  | nil => rw [List.length_nil, Nat.zero_add]; rfl
  | cons card cards ih =>
    obtain ⟨hlength, hend⟩ := hcards card List.mem_cons_self
    have htake : (card.bytes ++ (cards.flatMap Card.bytes ++ rest)).take FITS_LINE_LENGTH =
        card.bytes := List.take_left' hlength
    have hdrop : (card.bytes ++ (cards.flatMap Card.bytes ++ rest)).drop FITS_LINE_LENGTH =
        cards.flatMap Card.bytes ++ rest := List.drop_left' hlength
    rw [List.length_cons, Nat.add_right_comm, List.flatMap_cons, List.append_assoc, scanLines,
      htake, hdrop, hend, scanCards, List.foldlM_cons]
    cases scanLine card.bytes m with
    | none => rfl
    | some m' => exact ih (fun c hc => hcards c (List.mem_cons_of_mem _ hc)) m'

theorem slice_block {sxs block rest : List UInt8} {offset : ℕ} (hblock : block.length = 2880)
    (hdrop : sxs.drop offset = block ++ rest) :
    offset < sxs.length ∧ slice sxs offset (offset + FITS_CHUNK_LENGTH) = some block := by
  have hlength := congrArg List.length hdrop
  rw [List.length_drop, List.length_append, hblock] at hlength
  refine ⟨by omega, ?_⟩
  unfold FITS_CHUNK_LENGTH
  rw [slice, if_pos ⟨by omega, by omega⟩, List.drop_take, Nat.add_sub_cancel_left, hdrop,
    List.take_left' hblock]

theorem readHeader_block {sxs block rest : List UInt8} {offset : ℕ} (hblock : block.length = 2880)
    (hdrop : sxs.drop offset = block ++ rest) (m : XMeta) :
    readHeader sxs offset m = (scanTableHeader block m).bind fun result =>
      if result.1 then some (offset + FITS_CHUNK_LENGTH, result.2)
      else readHeader sxs (offset + FITS_CHUNK_LENGTH) result.2 := by
  obtain ⟨hlt, hslice⟩ := slice_block hblock hdrop
  rw [readHeader, if_pos hlt, hslice]
  rfl

theorem readHeader_cards {sxs rest : List UInt8} {cards : List Card} (hcards : Inner cards)
    {offset : ℕ} (m : XMeta)
    (hdrop : sxs.drop offset = cards.flatMap Card.bytes ++ (endCard ++ rest))
    (hlength : offset + 2880 * (cards.length / 36) + 2880 ≤ sxs.length) :
    readHeader sxs offset m =
      (scanCards cards m).map fun m => (offset + 2880 * (cards.length / 36) + 2880, m) := by
  have hend : endCard.length = 80 := rfl
  have hrounds : ∀ block : List UInt8, block.length = 2880 → block.length / FITS_LINE_LENGTH = 36 :=
    fun block hblock => by rw [hblock]; rfl
  induction hblocks : cards.length / 36 generalizing cards offset m with
  | zero =>
    have hwhole := congrArg List.length hdrop
    rw [List.length_drop, List.length_append, List.length_append, hend,
      length_flatMap_bytes hcards.length] at hwhole
    -- the block ends within the blanks after the `END` card
    obtain ⟨block, hcut⟩ : ∃ block, block = cards.flatMap Card.bytes ++
        (endCard ++ rest.take (2800 - 80 * cards.length)) := ⟨_, rfl⟩
    have hblock : block.length = 2880 := by
      rw [hcut, List.length_append, List.length_append, hend,
        length_flatMap_bytes hcards.length, List.length_take]
      omega
    have hsplit : sxs.drop offset = block ++ rest.drop (2800 - 80 * cards.length) := by
      rw [hdrop, hcut, List.append_assoc, List.append_assoc, List.take_append_drop]
    have hscan : scanTableHeader block m = (scanCards cards m).map fun m => (true, m) := by
      have hcount : 36 = cards.length + (35 - cards.length + 1) := by omega
      rw [scanTableHeader, hrounds block hblock, hcut, hcount, scanLines_cards hcards]
      cases scanCards cards m <;> rfl
    rw [readHeader_block hblock hsplit, hscan]
    cases scanCards cards m <;> rfl
  | succ blocks ih =>
    have htake : Inner (cards.take 36) := fun c hc => hcards c (List.mem_of_mem_take hc)
    obtain ⟨hsplit, hblock⟩ := split_block hcards.length (by omega)
    rw [hsplit, List.append_assoc] at hdrop
    have hscan : scanTableHeader ((cards.take 36).flatMap Card.bytes) m =
        (scanCards (cards.take 36) m).map fun m => (false, m) := by
      have hcount : 36 = (cards.take 36).length + 0 := by
        rw [List.length_take, min_eq_left (by omega)]
      have hlines := scanLines_cards htake 0 [] m
      rw [List.append_nil, ← hcount] at hlines
      rw [scanTableHeader, hrounds _ hblock, hlines]
      cases scanCards (cards.take 36) m <;> rfl
    have hnext : (cards.drop 36).length / 36 = blocks := by
      rw [List.length_drop]
      omega
    have hdrop' : sxs.drop (offset + 2880) =
        (cards.drop 36).flatMap Card.bytes ++ (endCard ++ rest) := by
      rw [← List.drop_drop, hdrop]
      exact List.drop_left' hblock
    have hrest : ∀ m, readHeader sxs (offset + 2880) m = (scanCards (cards.drop 36) m).map
        fun m => (offset + 2880 + 2880 * blocks + 2880, m) := fun m =>
      ih (fun c hc => hcards c (List.mem_of_mem_drop hc)) m hdrop' (by omega) hnext
    have hcompose : scanCards cards m =
        (scanCards (cards.take 36) m).bind (scanCards (cards.drop 36)) := by
      rw [scanCards, ← List.take_append_drop 36 cards, List.foldlM_append, List.take_append_drop]
      rfl
    have hoffset : offset + 2880 + 2880 * blocks + 2880 = offset + 2880 * (blocks + 1) + 2880 := by
      ring
    rw [readHeader_block hblock hdrop, hscan, hcompose]
    cases scanCards (cards.take 36) m with
    | none => rfl
    | some m' =>
      simp only [Option.map_some, Option.bind_some, Bool.false_eq_true, if_false]
      exact hoffset ▸ hrest m'

theorem findTable_blocks {sxs header rest : List UInt8} {blocks : List (List UInt8)} {offset : ℕ}
    (hlength : ∀ block ∈ blocks, block.length = 2880)
    (hfirst : ∀ block ∈ blocks, ¬ tableMark <+: block) (hheader : header.length = 2880)
    (hmark : tableMark <+: header) (hdrop : sxs.drop offset = blocks.flatten ++ (header ++ rest)) :
    findTable sxs offset = some (offset + 2880 * blocks.length) := by
  induction blocks generalizing offset with
  | nil =>
    obtain ⟨hlt, hslice⟩ := slice_block hheader hdrop
    have hfound : hasTableExtension header = true := List.isPrefixOf_iff_prefix.mpr hmark
    rw [findTable, if_pos hlt, hslice]
    simp only [Option.bind_eq_bind, Option.bind_some, hfound, if_true, List.length_nil]
    rfl
  | cons block blocks ih =>
    have hblock := hlength block List.mem_cons_self
    rw [List.flatten_cons, List.append_assoc] at hdrop
    obtain ⟨hlt, hslice⟩ := slice_block hblock hdrop
    have hother : hasTableExtension block = false :=
      startsWith_of_not_prefix (hfirst block List.mem_cons_self)
    have hnext : sxs.drop (offset + FITS_CHUNK_LENGTH) = blocks.flatten ++ (header ++ rest) := by
      rw [← List.drop_drop, hdrop]
      exact List.drop_left' hblock
    have hrest := ih (fun b hb => hlength b (List.mem_cons_of_mem _ hb))
      (fun b hb => hfirst b (List.mem_cons_of_mem _ hb)) hnext
    rw [findTable, if_pos hlt, hslice]
    simp only [Option.bind_eq_bind, Option.bind_some, hother, Bool.false_eq_true, if_false, hrest,
      List.length_cons]
    unfold FITS_CHUNK_LENGTH
    exact congrArg some (by ring)

theorem readEvents_header (f : EventFile) (cpu_count : ℕ)
    (schedule : List (ℕ × ℕ) → List (ℕ × ℕ)) :
    readEvents cpu_count schedule f.bytes = (scanCards f.cards .undefined).bind
      fun m => readRows (getNumCores cpu_count) schedule f.bytes f.data m := by
  have hlength := f.length_header
  have hcards : f.bytes.drop f.start =
      f.cards.flatMap Card.bytes ++ (endCard ++ (f.fill ++ (f.rows.flatten ++ f.after))) := by
    rw [f.drop_start, EventFile.header]
    simp only [List.append_assoc]
  have hfirst : (f.header.take 2880).length = 2880 := by
    rw [List.length_take]
    omega
  have hblocks : f.bytes.drop 0 = f.before.flatten ++
      (f.header.take 2880 ++ (f.header.drop 2880 ++ (f.rows.flatten ++ f.after))) := by
    rw [← List.append_assoc (f.header.take 2880), List.take_append_drop]
    rfl
  have hfind := findTable_blocks f.length_before f.first_table hfirst
    (List.prefix_take_iff.mpr ⟨f.tableMark_prefix_header, by decide⟩) hblocks
  have hread := readHeader_cards (inner_cards f) .undefined hcards (by
    have hbytes := f.length_bytes
    rw [EventFile.data] at hbytes
    omega)
  have hdata : f.start + 2880 * (f.cards.length / 36) + 2880 = f.data := by
    rw [EventFile.data]
    ring
  rw [Nat.zero_add, ← EventFile.start] at hfind
  rw [readEvents, hfind, Option.bind_eq_bind, Option.bind_some, hread, hdata]
  cases scanCards f.cards .undefined <;> rfl

end Blocks

section Final

def final (f : EventFile) : XMeta := f.cards.foldl (readCard f.toTable) .undefined

theorem setName_columns (m : XMeta) (i : ℤ) (name : List UInt8) :
    (m.setName i name).columns = m.columns := by
  unfold XMeta.setName
  split_ifs <;> rfl

theorem allocated_readCard {t : Table} {m : XMeta} {card : Card} (htrue : card.Says t)
    (hm : Allocated t m) : Allocated t (readCard t m card) := by
  obtain ⟨l, hl, hlength⟩ := hm
  cases card with
  | tfields field =>
    rw [readCard, XMeta.setTfields]
    split_ifs
    · exact ⟨_, rfl, List.length_replicate⟩
    · exact ⟨l, hl, hlength⟩
  | ttype digits field => exact ⟨l, (setName_columns _ _ _).trans hl, hlength⟩
  | tform digits field =>
    obtain ⟨hindex, column, hcolumn, -⟩ := htrue
    have hset := setSize_allocated hl hlength hindex (List.getElem?_eq_some_iff.mp hcolumn).1
      (sizeRead column.form field)
    rw [readCard, hcolumn]
    simp only [hset, Option.getD_some]
    exact ⟨_, rfl, by rw [List.length_set, hlength]⟩
  | _ => exact ⟨l, hl, hlength⟩

/-- `TFIELDS` comes before every form, and from there on the entries are there. -/
theorem allocated_tfields (f : EventFile) (m : XMeta) :
    Allocated f.toTable (readCard f.toTable m (.tfields f.tfields)) := by
  have hpos : 0 < f.columns.length := Nat.zero_lt_of_lt f.holds_x.width.1
  rw [readCard, XMeta.setTfields, if_pos hpos]
  exact ⟨_, rfl, List.length_replicate⟩

theorem not_forms_first (f : EventFile) {card : Card}
    (hcard : card ∈ .other (tableMark ++ f.xtension) :: f.leading) (c : ℕ) : ¬ card.Forms c := by
  cases List.mem_cons.mp hcard with
  | inl h => rw [h]; exact fun h => h
  | inr h => exact f.tform_leading card h c

theorem scanCards_none (hplain : Plain f)
    (h : ¬ (f.columns.length ≤ 99 ∧ ∀ card ∈ f.cards, Readable card)) (m : XMeta) :
    scanCards f.cards m = none := by
  by_cases hfew : f.columns.length ≤ 99
  · obtain ⟨card, hcard, hread⟩ : ∃ card ∈ f.cards, ¬ Readable card := by
      simpa [hfew] using h
    exact foldlM_none hcard (scanLine_unreadable hplain hfew hcard hread) m
  · obtain ⟨card, hcard, hforms⟩ := f.tform_trailing 99 (by omega)
    have hmem := f.trailing_subset hcard
    exact foldlM_none hmem (scanLine_many le_rfl hmem hforms) m

theorem scanCards_final (hplain : Plain f) (hfew : f.columns.length ≤ 99)
    (hread : ∀ card ∈ f.cards, Readable card) :
    scanCards f.cards .undefined = some (final f) := by
  have hsplit : f.cards = (.other (tableMark ++ f.xtension) :: f.leading) ++
      .tfields f.tfields :: f.trailing := rfl
  have hfirst : scanCards (.other (tableMark ++ f.xtension) :: f.leading) .undefined =
      some ((.other (tableMark ++ f.xtension) :: f.leading).foldl (readCard f.toTable)
        .undefined) := by
    refine foldlM_some (Q := fun _ => True) ?_ (fun _ _ _ _ => trivial) trivial
    intro m card hcard _
    have hmem : card ∈ f.cards := List.mem_append_left _ hcard
    exact scanLine_readable hplain hfew hmem (hread card hmem) fun ⟨c, hforms⟩ =>
      absurd hforms (not_forms_first f hcard c)
  have hrest : ∀ m, scanCards (.tfields f.tfields :: f.trailing) m =
      some ((.tfields f.tfields :: f.trailing).foldl (readCard f.toTable) m) := by
    intro m
    have hline := scanLine_readable hplain hfew f.tfields_mem (hread _ f.tfields_mem) (m := m)
      fun ⟨c, hforms⟩ => hforms.elim
    rw [scanCards, List.foldlM_cons, hline, List.foldl_cons]
    refine foldlM_some (Q := Allocated f.toTable) ?_ ?_ (allocated_tfields f m)
    · intro m card hcard hm
      have hmem := f.trailing_subset hcard
      exact scanLine_readable hplain hfew hmem (hread card hmem) fun _ => hm
    · intro m card hcard hm
      exact allocated_readCard (f.true_cards card (f.trailing_subset hcard)).1 hm
  have happend : scanCards f.cards .undefined =
      (scanCards (.other (tableMark ++ f.xtension) :: f.leading) .undefined).bind
        (scanCards (.tfields f.tfields :: f.trailing)) := by
    rw [scanCards, hsplit, List.foldlM_append]
    rfl
  rw [happend, hfirst, Option.bind_some, hrest, final, hsplit, List.foldl_append]

theorem setSize_getD (m : XMeta) (i size : ℤ) :
    ((m.setSize i size).getD m).naxis1 = m.naxis1 ∧ ((m.setSize i size).getD m).naxis2 = m.naxis2 ∧
      ((m.setSize i size).getD m).ix = m.ix ∧ ((m.setSize i size).getD m).iy = m.iy ∧
        ((m.setSize i size).getD m).ipi = m.ipi := by
  unfold XMeta.setSize
  cases m.columns with
  | none => exact ⟨rfl, rfl, rfl, rfl, rfl⟩
  | some l =>
    simp only [Option.bind_eq_bind, Option.bind_some]
    split_ifs <;> exact ⟨rfl, rfl, rfl, rfl, rfl⟩

theorem readCard_others (t : Table) (m : XMeta) (card : Card) :
    ((∀ field, card ≠ .naxis1 field) → (readCard t m card).naxis1 = m.naxis1) ∧
    ((∀ field, card ≠ .naxis2 field) → (readCard t m card).naxis2 = m.naxis2) ∧
    ((∀ digits field, card ≠ .ttype digits field) →
      (readCard t m card).ix = m.ix ∧ (readCard t m card).iy = m.iy ∧
        (readCard t m card).ipi = m.ipi) := by
  cases card with
  | ttype digits field => grind [readCard, XMeta.setName]
  | tform digits field =>
    rw [readCard]
    split
    · exact ⟨fun _ => rfl, fun _ => rfl, fun _ => ⟨rfl, rfl, rfl⟩⟩
    · rename_i column _
      have h := setSize_getD m (decimal digits) (sizeRead column.form field)
      exact ⟨fun _ => h.1, fun _ => h.2.1, fun _ => h.2.2⟩
  | _ => grind [readCard, XMeta.setTfields]

theorem naxis1_final (f : EventFile) : (final f).naxis1 = some f.rowSize := by
  obtain ⟨field, hcard⟩ := f.naxis1
  refine foldl_set (g := XMeta.naxis1) (f.mem_cards hcard) (fun _ => rfl) ?_ .undefined
  intro m card _
  cases card with
  | naxis1 => exact .inl rfl
  | _ => exact .inr ((readCard_others _ m _).1 fun _ h => by cases h)

theorem naxis2_final (f : EventFile) : (final f).naxis2 = some f.rows.length := by
  obtain ⟨field, hcard⟩ := f.naxis2
  refine foldl_set (g := XMeta.naxis2) (f.mem_cards hcard) (fun _ => rfl) ?_ .undefined
  intro m card _
  cases card with
  | naxis2 => exact .inl rfl
  | _ => exact .inr ((readCard_others _ m _).2.1 fun _ h => by cases h)

theorem setName_ix (m : XMeta) (i : ℤ) (name : List UInt8) :
    (m.setName i name).ix = if name = ascii "X" then some i else m.ix := by
  unfold XMeta.setName
  split_ifs <;> rfl

theorem setName_iy (m : XMeta) (i : ℤ) (name : List UInt8) :
    (m.setName i name).iy = if name = ascii "Y" then some i else m.iy := by
  have hxy : ascii "X" ≠ ascii "Y" := by decide
  grind [XMeta.setName]

theorem setName_ipi (m : XMeta) (i : ℤ) (name : List UInt8) :
    (m.setName i name).ipi = if name = ascii "PI" then some i else m.ipi := by
  have hx : ascii "X" ≠ ascii "PI" := by decide
  have hy : ascii "Y" ≠ ascii "PI" := by decide
  grind [XMeta.setName]

/-- No name is one of the three names and one more character, with no blank after it. -/
def NamesApart (f : EventFile) : Prop :=
  ∀ digits field, Card.ttype digits field ∈ f.cards → ¬ Padded field →
    ∀ name ∈ ["X", "Y", "PI"], readText field ≠ ascii name

/-- On some card a blank follows the name of column `c`. -/
def Named (f : EventFile) (c : ℕ) : Prop :=
  ∃ digits field, Card.ttype digits field ∈ f.cards ∧ decimal digits = c + 1 ∧ Padded field

theorem readText_name_iff (hplain : Plain f) (hapart : NamesApart f) {name : String}
    (hname : name ∈ ["X", "Y", "PI"]) {c : ℕ} {types : List ColumnType}
    (hholds : f.Holds c name types) {digits : List UInt8} {field : StringField}
    (hcard : .ttype digits field ∈ f.cards) :
    readText field = ascii name ↔ decimal digits = c + 1 ∧ Padded field := by
  obtain ⟨⟨hindex, column, hcolumn, hfield⟩, hlength, hprint⟩ := f.true_cards _ hcard
  have hlayout : field.Plain := hplain.cards _ hcard
  have hpos := hindex.pos
  by_cases hpad : Padded field
  · have hclean : ∀ name ∈ ["X", "Y", "PI"], ∀ c ∈ ascii name, isTrimmed c = false := by decide
    have htext := (SxsHeader.text_of_card rfl hindex hlength hprint).1
    rw [readText_eq_iff hfield hlayout.2.1 htext hpad (hclean name hname)
      (hplain.names column (List.mem_of_getElem? hcolumn) name hname), and_iff_left hpad]
    obtain ⟨named, hnamed, hcalled, -, -, hunique⟩ := hholds
    constructor
    · intro h
      have hc := hunique _ column hcolumn h
      omega
    · intro h
      rw [h, Nat.add_sub_cancel, hnamed, Option.some.injEq] at hcolumn
      rw [← hcolumn, hcalled]
  · exact ⟨fun h => absurd h (hapart _ _ hcard hpad name hname), fun h => absurd h.2 hpad⟩

section Positions

variable {g : XMeta → Option ℤ} {name : String} {c : ℕ} {types : List ColumnType}

theorem position_some (hplain : Plain f) (hapart : NamesApart f) (hname : name ∈ ["X", "Y", "PI"])
    (hholds : f.Holds c name types)
    (hget : ∀ m i w, g (m.setName i w) = if w = ascii name then some i else g m)
    (hother : ∀ m card, (∀ digits field, card ≠ .ttype digits field) →
      g (readCard f.toTable m card) = g m)
    (hnamed : Named f c) : g (final f) = some (c + 1 : ℤ) := by
  obtain ⟨digits, field, hcard, hdigits, hpad⟩ := hnamed
  refine foldl_set (g := g) hcard ?_ ?_ .undefined
  · intro m
    have hread := (readText_name_iff hplain hapart hname hholds hcard).mpr ⟨hdigits, hpad⟩
    rw [readCard, hget, if_pos hread, hdigits]
    push_cast
    rfl
  · intro m card hcard
    cases card with
    | ttype digits field =>
      rw [readCard, hget]
      split_ifs with hread
      · left
        rw [((readText_name_iff hplain hapart hname hholds hcard).mp hread).1]
        push_cast
        rfl
      · exact .inr rfl
    | _ => exact .inr (hother m _ fun _ _ h => by cases h)

theorem position_none (hplain : Plain f) (hapart : NamesApart f) (hname : name ∈ ["X", "Y", "PI"])
    (hholds : f.Holds c name types)
    (hget : ∀ m i w, g (m.setName i w) = if w = ascii name then some i else g m)
    (hother : ∀ m card, (∀ digits field, card ≠ .ttype digits field) →
      g (readCard f.toTable m card) = g m)
    (hstart : g .undefined = none) (hnamed : ¬ Named f c) : g (final f) = none := by
  refine foldl_keeps (P := fun m => g m = none) ?_ hstart
  intro m card hcard hm
  cases card with
  | ttype digits field =>
    rw [readCard, hget, if_neg]
    · exact hm
    · intro hread
      have h := (readText_name_iff hplain hapart hname hholds hcard).mp hread
      exact hnamed ⟨digits, field, hcard, h⟩
  | _ => exact (hother m _ fun _ _ h => by cases h).trans hm

end Positions

/-- The size that a card gives column `c`. -/
def formRead (column : Column) (c : ℕ) : Card → Option ℕ
  | .tform digits field =>
    if decimal digits = c + 1 then some (sizeRead column.form field) else none
  | _ => none

theorem formRead_ne_none {column : Column} {c : ℕ} {card : Card} (h : card.Forms c) :
    formRead column c card ≠ none := by
  cases card with
  | tform digits field =>
    have hdigits : decimal digits = c + 1 := h
    rw [formRead, if_pos hdigits]
    exact Option.some_ne_none _
  | _ => exact h.elim

def sizesRead (f : EventFile) : List ℕ :=
  f.columns.zipIdx.map fun p => (f.cards.filterMap (formRead p.1 p.2)).getLast?.getD 0

/-- The entry of column `c`. -/
def entry (c : ℕ) (m : XMeta) : Option ℤ := (m.columns.getD [])[c]?.join

theorem entry_readCard {t : Table} {c : ℕ} {column : Column} (hcolumn : t.columns[c]? = some column)
    {card : Card} (htrue : card.Says t) (hcard : card.isTfields = false) {m : XMeta}
    (hm : Allocated t m) : entry c (readCard t m card) =
      ((formRead column c card).map fun n : ℕ => some (n : ℤ)).getD (entry c m) := by
  obtain ⟨l, hl, hlength⟩ := hm
  cases card with
  | tfields => cases hcard
  | ttype digits field =>
    rw [readCard, entry, setName_columns]
    rfl
  | tform digits field =>
    obtain ⟨hindex, other, hother, -⟩ := htrue
    have hlt := (List.getElem?_eq_some_iff.mp hother).1
    have hset := setSize_allocated hl hlength hindex hlt (sizeRead other.form field)
    have hpos := hindex.pos
    rw [readCard, hother]
    simp only [hset, Option.getD_some, entry, hl, formRead]
    split_ifs with hdigits
    · rw [hdigits, Nat.add_sub_cancel, hcolumn, Option.some.injEq] at hother
      rw [hdigits, Nat.add_sub_cancel, List.getElem?_set_self (by omega), hother]
      rfl
    · rw [List.getElem?_set_ne (by omega)]
      rfl
  | _ => rfl

theorem filterMap_cards (f : EventFile) (column : Column) (c : ℕ) :
    f.cards.filterMap (formRead column c) = f.trailing.filterMap (formRead column c) := by
  have hfirst : ((.other (tableMark ++ f.xtension) :: f.leading).filterMap
      (formRead column c)) = [] := by
    refine List.filterMap_eq_nil_iff.mpr fun card hcard => ?_
    have hforms := not_forms_first f hcard c
    cases card with
    | tform digits field => exact if_neg hforms
    | _ => rfl
  rw [EventFile.cards, List.filterMap_append, hfirst]
  rfl

theorem columns_final (f : EventFile) : ∃ l, (final f).columns = some l ∧
    l.length = f.columns.length ∧
      ∀ (c n : ℕ), (sizesRead f)[c]? = some n → l[c]? = some (some (n : ℤ)) := by
  have honce : ∀ card ∈ f.trailing, card.isTfields = false := fun card hcard =>
    f.tfields_once card (List.mem_append_right _ hcard)
  have htrue : ∀ card ∈ f.trailing, card.Says f.toTable := fun card hcard =>
    (f.true_cards card (f.trailing_subset hcard)).1
  obtain ⟨m, hm, hfinal⟩ : ∃ m, Allocated f.toTable m ∧
      final f = f.trailing.foldl (readCard f.toTable) m := by
    refine ⟨readCard f.toTable ((.other (tableMark ++ f.xtension) :: f.leading).foldl
      (readCard f.toTable) .undefined) (.tfields f.tfields), allocated_tfields f _, ?_⟩
    rw [final, EventFile.cards, List.foldl_append, List.foldl_cons]
  have hkeep : ∀ m, ∀ card ∈ f.trailing, Allocated f.toTable m →
      Allocated f.toTable (readCard f.toTable m card) := fun m card hcard =>
    allocated_readCard (htrue card hcard)
  obtain ⟨l, hl, hlength⟩ : Allocated f.toTable (final f) := by
    rw [hfinal]
    exact foldl_keeps hkeep hm
  refine ⟨l, hl, hlength, ?_⟩
  intro c n hn
  rw [sizesRead, List.getElem?_map, List.getElem?_zipIdx, Option.map_map,
    Option.map_eq_some_iff] at hn
  obtain ⟨column, hcolumn, hn⟩ := hn
  rw [Function.comp_apply, Nat.zero_add] at hn
  have hlast := foldl_last (g := entry c) (Q := Allocated f.toTable) hkeep
    (fun m card hcard hm => entry_readCard hcolumn (htrue card hcard) (honce card hcard) hm) hm
  obtain ⟨card, hcard, hforms⟩ :=
    f.tform_trailing c (List.getElem?_eq_some_iff.mp hcolumn).1
  rw [← hfinal, ← List.map_filterMap, List.getLast?_map, ← filterMap_cards f column c] at hlast
  cases hread : (f.cards.filterMap (formRead column c)).getLast? with
  | none =>
    rw [List.getLast?_eq_none_iff, List.filterMap_eq_nil_iff] at hread
    exact absurd (hread card (f.trailing_subset hcard)) (formRead_ne_none hforms)
  | some size =>
    rw [hread, Option.getD_some] at hn
    rw [hread, hn] at hlast
    simp only [entry, hl, Option.getD_some, Option.map_some] at hlast
    exact Option.join_eq_some_iff.mp hlast

end Final

end XWebQL.ZigHeader
