import XWebQL.EventPlaces
import XWebQL.ZigLines
import XWebQL.ZigThreads

/-! What `read_events` returns for any well-formed file.
The cards say where the reader looks for the columns, as the last card of a kind
leaves it. It returns arrays where every row can be read there. -/

namespace XWebQL.ZigColumns

open AsciiText FitsTable ZigReader ZigLines EventPlaces
open SingleFloat (toSingle)
open SxsHeader (number startsWith_card int_natCast)
open SxsReader (Event startsWith int sumBefore getColumnOffset)
open ZigHeader (scanCards entry)
open ZigTableHeader (EventColumn)

section Rows

variable {data : List UInt8}

theorem readInt_eq_some_iff {offset width : ℕ} {v : ℤ} :
    readInt data offset width = some v ↔
      offset + width ≤ data.length ∧ v = twosComplement (bytesAt data offset width) := by
  rw [readInt, slice, List.drop_take, Nat.add_sub_cancel_left]
  by_cases hin : offset + width ≤ data.length
  · rw [if_pos ⟨Nat.le_add_right _ _, hin⟩, and_iff_right hin, bytesAt, eq_comm (a := v)]
    exact Option.some_inj
  · rw [if_neg fun h => hin h.2]
    exact ⟨fun h => absurd h (by simp), fun h => absurd h.1 hin⟩

/-- What a round reads of `PI`. -/
def readEnergy (data : List UInt8) (offset : ℕ) (pi_size : ℤ) : Option ℤ :=
  if pi_size = 2 then (readInt data offset 2).map toSingle
  else if pi_size = 4 then (readInt data offset 4).map toSingle
  else some 0

theorem readEnergy_eq_some_iff {offset width : ℕ} {z : ℤ} :
    readEnergy data offset (width : ℤ) = some z ↔
      (∀ count ∈ [2, 4], width = count → offset + count ≤ data.length) ∧
        z = if width = 2 ∨ width = 4 then
          toSingle (twosComplement (bytesAt data offset width)) else 0 := by
  have hread : ∀ count : ℕ, (readInt data offset count).map toSingle = some z ↔
      offset + count ≤ data.length ∧ z = toSingle (twosComplement (bytesAt data offset count)) := by
    intro count
    simp only [Option.map_eq_some_iff, readInt_eq_some_iff]
    constructor
    · rintro ⟨v, ⟨hin, rfl⟩, rfl⟩
      exact ⟨hin, rfl⟩
    · rintro ⟨hin, rfl⟩
      exact ⟨_, ⟨hin, rfl⟩, rfl⟩
  have htwo : (width : ℤ) = 2 ↔ width = 2 := by omega
  have hfour : (width : ℤ) = 4 ↔ width = 4 := by omega
  simp only [readEnergy, htwo, hfour]
  by_cases h2 : width = 2
  · subst h2
    rw [if_pos rfl, if_pos (.inl rfl), hread]
    simp
  · by_cases h4 : width = 4
    · subst h4
      rw [if_neg (by decide), if_pos rfl, if_pos (.inr rfl), hread]
      simp
    · rw [if_neg h2, if_neg h4, if_neg (not_or.mpr ⟨h2, h4⟩)]
      simp [h2, h4, eq_comm]

theorem readRow_eq_some_iff {p : Place} {offset : ℕ} {event : Event} :
    readRow data offset p.x p.y p.pi (p.width : ℤ) = some event ↔
      p.Within data offset ∧ event = p.event twosComplement data offset := by
  have heq : readRow data offset p.x p.y p.pi (p.width : ℤ) =
      (readInt data (offset + p.x) 2).bind fun x => (readInt data (offset + p.y) 2).bind fun y =>
        (readEnergy data (offset + p.pi) p.width).bind fun energy => some ⟨x, y, energy⟩ := by
    unfold readRow readEnergy
    split_ifs <;> rfl
  simp only [heq, Option.bind_eq_some_iff, readInt_eq_some_iff, readEnergy_eq_some_iff,
    Option.some.injEq]
  constructor
  · rintro ⟨x, ⟨hx, rfl⟩, y, ⟨hy, rfl⟩, z, ⟨hpi, rfl⟩, rfl⟩
    exact ⟨⟨hx, hy, hpi⟩, rfl⟩
  · rintro ⟨⟨hx, hy, hpi⟩, rfl⟩
    exact ⟨_, ⟨hx, rfl⟩, _, ⟨hy, rfl⟩, _, ⟨hpi, rfl⟩, rfl⟩

end Rows

def position (f : EventFile) (column : EventColumn) : Option ℤ :=
  (f.cards.filterMap fun card => namedColumn column.name card.bytes).getLast?

/-- The size that the last card of column `c` gives. -/
def columnSize (f : EventFile) (c : ℕ) : Option ℤ :=
  (f.trailing.filterMap fun card => givenSize c card.bytes).getLast?

/-- The header is read to its end: no card gives a size before `TFIELDS`, or one of a column that is
not there. -/
structure HeaderRead (f : EventFile) : Prop where
  readable : ∀ card ∈ f.cards, Readable card.bytes
  early : ∀ card ∈ Card.other (tableMark ++ f.xtension) :: f.leading, lineSize card.bytes = none
  placed : ∀ card ∈ f.trailing, Placed f.columns.length card.bytes

section Cards

variable {f : EventFile} {card : Card}

theorem startsWith_tfields (hcard : card ∈ f.cards) :
    startsWith card.bytes "TFIELDS = " = card.isTfields := by
  obtain ⟨htrue, hlength, -⟩ := f.true_cards card hcard
  have hstarts := startsWith_card htrue hlength [] "TFIELDS = " (by simp)
  rw [List.append_nil] at hstarts
  rw [hstarts]
  cases card <;> rfl

theorem hdrGetIntValue_number (hcard : card ∈ f.cards) {keyword : String} {n : ℕ}
    (hnumber : number f.toTable card = some (keyword, n)) :
    hdrGetIntValue card.bytes = if n < 18446744073709551616 then some n else none := by
  obtain ⟨htrue, hlength, -⟩ := f.true_cards card hcard
  have hfield : ∀ {keyword : String} {field : IntField}, (ascii keyword).length = 10 →
      code '/' ∉ ascii keyword → (ascii keyword ++ field.bytes).length = 80 → field.Says n →
        hdrGetIntValue (ascii keyword ++ field.bytes) =
          if n < 18446744073709551616 then some n else none := by
    intro keyword field hten hslash hlength hf
    rw [ZigCards.hdrGetIntValue_digits hten hslash hlength hf.written hf.all_digits hf.comment,
      hf.value]
  cases card with
  | naxis1 field | naxis2 field | tfields field =>
    obtain ⟨-, rfl⟩ := Prod.mk.inj (Option.some.inj hnumber)
    exact hfield rfl (by decide) hlength htrue
  | _ => cases hnumber

end Cards

section Header

variable {f : EventFile} {m : XMeta}

theorem axis_final {g : XMeta → Option ℕ} {keyword : String} {n : ℕ}
    (hkeyword : keyword ∈ ["NAXIS1  = ", "NAXIS2  = ", "TFIELDS = "])
    (hkept : ∀ line m m', Kept line m m' → g m' = ((numberOf keyword line).map some).getD (g m))
    (hgiven : ∃ card ∈ f.cards, number f.toTable card = some (keyword, n))
    (hread : ∀ card ∈ f.cards, Readable card.bytes)
    (hscan : scanCards f.cards .undefined = some m) : g m = some n := by
  have hmem : keyword ∈ ["END       ", "NAXIS1  = ", "NAXIS2  = ", "TFIELDS = "] :=
    List.mem_cons_of_mem _ hkeyword
  have hnumbered : ∀ card ∈ f.cards, startsWith card.bytes keyword =
      ((number f.toTable card).map Prod.fst == some keyword) := by
    intro card hcard
    obtain ⟨htrue, hlength, -⟩ := f.true_cards card hcard
    have hstarts := startsWith_card htrue hlength [] keyword hmem
    rwa [List.append_nil] at hstarts
  obtain ⟨card, hcard, hnumber⟩ := hgiven
  have hstarts : startsWith card.bytes keyword = true := by
    rw [hnumbered card hcard, hnumber]
    exact beq_self_eq_true _
  obtain ⟨v, hv⟩ := Option.isSome_iff_exists.mp ((hread card hcard).axes keyword hkeyword hstarts)
  have hvalue : v = n := by
    rw [hdrGetIntValue_number hcard hnumber, Option.ite_none_right_eq_some] at hv
    exact (Option.some.inj hv.2).symm
  refine OptionFold.foldlM_set (fun card : Card => (numberOf keyword card.bytes).map some)
    (fun u u' card _ hline => hkept _ _ _ (Effect.of_scanLine hline).kept) hcard (v := some n)
      (by rw [numberOf, hstarts, if_pos rfl, hv, hvalue]; rfl) ?_ hscan
  intro other hother w hw
  obtain ⟨k, hk, rfl⟩ := Option.map_eq_some_iff.mp hw
  rw [numberOf, Option.ite_none_right_eq_some, hnumbered other hother] at hk
  obtain ⟨⟨keyword', j⟩, hnumber', rfl⟩ := Option.map_eq_some_iff.mp (beq_iff_eq.mp hk.1)
  rw [hdrGetIntValue_number hother hnumber', Option.ite_none_right_eq_some] at hk
  rw [← Option.some.inj hk.2.2, SxsHeader.number_unique hnumber hnumber']

theorem axes_final (hread : ∀ card ∈ f.cards, Readable card.bytes)
    (hscan : scanCards f.cards .undefined = some m) :
    m.naxis1 = some f.rowSize ∧ m.naxis2 = some f.rows.length := by
  obtain ⟨field₁, hcard₁⟩ := f.naxis1
  obtain ⟨field₂, hcard₂⟩ := f.naxis2
  exact ⟨axis_final (by simp) (fun _ _ _ h => h.naxis1) ⟨_, f.mem_cards hcard₁, rfl⟩ hread hscan,
    axis_final (by simp) (fun _ _ _ h => h.naxis2) ⟨_, f.mem_cards hcard₂, rfl⟩ hread hscan⟩

theorem index_final (hscan : scanCards f.cards .undefined = some m) (column : EventColumn) :
    column.index m = position f column := by
  have hlast := OptionFold.foldlM_last (g := column.index)
    (fun card : Card => (namedColumn column.name card.bytes).map some)
    (fun u u' card _ hline => (Effect.of_scanLine hline).kept.index column) hscan
  have hmap : f.cards.filterMap (fun card => (namedColumn column.name card.bytes).map some) =
      (f.cards.filterMap fun card => namedColumn column.name card.bytes).map some := by
    rw [List.map_filterMap]
  rw [hlast, hmap, List.getLast?_map, position]
  cases (f.cards.filterMap fun card => namedColumn column.name card.bytes).getLast? with
  | none => cases column <;> rfl
  | some i => rfl

/-- The cards before `TFIELDS` find no entries, the ones after it find one for each column. -/
theorem scanCards_split (f : EventFile) (m : XMeta) :
    scanCards f.cards m =
      (scanCards (.other (tableMark ++ f.xtension) :: f.leading) m).bind fun m =>
        (scanLine (Card.tfields f.tfields).bytes m).bind (scanCards f.trailing) := by
  rw [EventFile.cards, scanCards, List.foldlM_append]
  rfl

theorem isTfields_early {card : Card}
    (hcard : card ∈ Card.other (tableMark ++ f.xtension) :: f.leading) :
    startsWith card.bytes "TFIELDS = " = false := by
  rw [startsWith_tfields (List.mem_append_left _ hcard)]
  rcases List.mem_cons.mp hcard with rfl | hcard
  · rfl
  · exact f.tfields_once card (List.mem_append_left _ hcard)

theorem isTfields_trailing {card : Card} (hcard : card ∈ f.trailing) :
    startsWith card.bytes "TFIELDS = " = false := by
  rw [startsWith_tfields (f.trailing_subset hcard)]
  exact f.tfields_once card (List.mem_append_right _ hcard)

theorem scanLine_tfields_card (f : EventFile) (m : XMeta) :
    scanLine (Card.tfields f.tfields).bytes m =
      some { m with
        tfields := some f.columns.length
        columns := some ((List.range f.columns.length).map fun _ => none) } := by
  have hpos : 0 < f.columns.length := Nat.zero_lt_of_lt f.holds_x.width.1
  have hlt := f.length_columns_lt
  have hstarts : startsWith (Card.tfields f.tfields).bytes "TFIELDS = " = true :=
    startsWith_tfields f.tfields_mem
  rw [ZigLines.scanLine_tfields hstarts, hdrGetIntValue_number f.tfields_mem rfl,
    if_pos (by omega), Option.map_some, XMeta.setTfields, if_pos hpos, List.map_const',
    List.length_range]

theorem columns_early {card : Card}
    (hcard : card ∈ Card.other (tableMark ++ f.xtension) :: f.leading) {m m' : XMeta}
    (hnone : m.columns = none) (hline : scanLine card.bytes m = some m') : m'.columns = none := by
  obtain ⟨hsame, -⟩ | ⟨p, l, -, hl, -⟩ :=
    (Effect.of_scanLine hline).columns (isTfields_early hcard)
  · rw [hsame, hnone]
  · rw [hnone] at hl
    cases hl

theorem scanCards_early_isSome_iff (f : EventFile) :
    (scanCards (.other (tableMark ++ f.xtension) :: f.leading) .undefined).isSome ↔
      ∀ card ∈ Card.other (tableMark ++ f.xtension) :: f.leading,
        Readable card.bytes ∧ lineSize card.bytes = none := by
  refine OptionFold.foldlM_isSome_iff (Q := fun m : XMeta => m.columns = none) ?_
    (fun m m' card hcard => columns_early hcard) rfl
  intro m card hcard hnone
  rw [ZigLines.scanLine_isSome_iff, hnone, Option.eq_none_iff_forall_not_mem]
  simp

theorem allocated_trailing {card : Card} (hcard : card ∈ f.trailing) {m m' : XMeta}
    (hm : Allocated f.columns.length m) (hline : scanLine card.bytes m = some m') :
    Allocated f.columns.length m' :=
  (Effect.of_scanLine hline).allocated (isTfields_trailing hcard) hm

theorem scanCards_trailing_isSome_iff (hm : Allocated f.columns.length m) :
    (scanCards f.trailing m).isSome ↔
      ∀ card ∈ f.trailing, Readable card.bytes ∧ Placed f.columns.length card.bytes := by
  refine OptionFold.foldlM_isSome_iff (Q := Allocated f.columns.length) ?_
    (fun m m' card hcard => allocated_trailing hcard) hm
  rintro m card hcard ⟨l, hl, hlength⟩
  rw [ZigLines.scanLine_isSome_iff, Placed, hl, ← hlength]
  simp

theorem allocated_tfields (f : EventFile) (m : XMeta) :
    Allocated f.columns.length { m with
      tfields := some f.columns.length
      columns := some ((List.range f.columns.length).map fun _ => none) } :=
  ⟨_, rfl, by rw [List.length_map, List.length_range]⟩

theorem scanCards_isSome_iff (f : EventFile) :
    (scanCards f.cards .undefined).isSome ↔ HeaderRead f := by
  have hearly := scanCards_early_isSome_iff f
  have htrailing := fun m => scanCards_trailing_isSome_iff (allocated_tfields f m)
  have hreadable : Readable (Card.tfields f.tfields).bytes :=
    (ZigLines.scanLine_isSome_iff.mp
      (Option.isSome_of_eq_some (scanLine_tfields_card f .undefined))).1
  rw [scanCards_split]
  simp only [scanLine_tfields_card, Option.bind_some]
  constructor
  · intro h
    obtain ⟨m', hm'⟩ := Option.isSome_iff_exists.mp h
    obtain ⟨m, hm, htail⟩ := Option.bind_eq_some_iff.mp hm'
    have hfirst := hearly.mp (Option.isSome_of_eq_some hm)
    have hlast := (htrailing m).mp (Option.isSome_of_eq_some htail)
    refine ⟨fun card hcard => ?_, fun card hcard => (hfirst card hcard).2,
      fun card hcard => (hlast card hcard).2⟩
    rcases List.mem_append.mp hcard with hcard | hcard
    · exact (hfirst card hcard).1
    · rcases List.mem_cons.mp hcard with rfl | hcard
      · exact hreadable
      · exact (hlast card hcard).1
  · intro h
    obtain ⟨m, hm⟩ := Option.isSome_iff_exists.mp (hearly.mpr fun card hcard =>
      ⟨h.readable card (List.mem_append_left _ hcard), h.early card hcard⟩)
    rw [hm, Option.bind_some]
    exact (htrailing m).mpr fun card hcard =>
      ⟨h.readable card (f.trailing_subset hcard), h.placed card hcard⟩

theorem columns_final (hscan : scanCards f.cards .undefined = some m) :
    m.columns = some ((List.range f.columns.length).map (columnSize f)) := by
  rw [scanCards_split] at hscan
  obtain ⟨u, -, hscan⟩ := Option.bind_eq_some_iff.mp hscan
  rw [scanLine_tfields_card, Option.bind_some] at hscan
  obtain ⟨l, hl, hlength⟩ : Allocated f.columns.length m :=
    OptionFold.foldlM_keeps (fun m m' card hcard => allocated_trailing hcard)
      (allocated_tfields f u) hscan
  have hentry : ∀ c, entry c m = columnSize f c := by
    intro c
    have hlast := OptionFold.foldlM_last (g := entry c)
      (fun card : Card => (givenSize c card.bytes).map some)
      (fun u u' card hcard hline =>
        (Effect.of_scanLine hline).entry (isTfields_trailing hcard) c) hscan
    have hmap : f.trailing.filterMap (fun card => (givenSize c card.bytes).map some) =
        (f.trailing.filterMap fun card => givenSize c card.bytes).map some := by
      rw [List.map_filterMap]
    have hstart : entry c { u with
        tfields := some f.columns.length
        columns := some ((List.range f.columns.length).map fun _ => none) } = none := by
      rw [entry, Option.getD_some, SxsReader.sizes_getElem, ite_self]
    rw [hlast, hmap, List.getLast?_map, columnSize, hstart]
    cases (f.trailing.filterMap fun card => givenSize c card.bytes).getLast? <;> rfl
  rw [hl, Option.some_inj]
  refine List.ext_getElem? fun c => ?_
  by_cases hc : c < f.columns.length
  · have hget := List.getElem?_eq_getElem (hlength.symm ▸ hc)
    have hvalue := hentry c
    rw [entry, hl, Option.getD_some, hget, Option.join_some] at hvalue
    rw [hget, hvalue, List.getElem?_map, List.getElem?_range hc, Option.map_some]
  · rw [List.getElem?_eq_none (by omega), List.getElem?_eq_none (by simpa using hc)]

end Header

/-- Every one of the three names is found, the columns before `X` and `Y` can be counted, and `PI`
is a column of the table. -/
structure Located (f : EventFile) : Prop where
  counted : ∀ column : EventColumn, ∃ i, position f column = some i ∧ -2147483648 < i ∧
    (i - 1).toNat ≤ f.columns.length
  pi : ∃ i, position f .PI = some i ∧ 1 ≤ i ∧ i ≤ f.columns.length

def columnStart (f : EventFile) (column : EventColumn) : ℕ :=
  (sumBefore (columnSize f) ((position f column).getD 0 - 1).toNat).toNat

def place (f : EventFile) : Place where
  x := columnStart f .X
  y := columnStart f .Y
  pi := columnStart f .PI
  width := ((columnSize f ((position f .PI).getD 0 - 1).toNat).getD 0).toNat

/-- The reader comes to the rows, and all that it reads of them is in the rows. -/
structure Admitted (f : EventFile) : Prop where
  header : HeaderRead f
  sized : ∀ c < f.columns.length, (columnSize f c).isSome
  sum : sumBefore (columnSize f) f.columns.length = f.rowSize
  int : f.rowSize < 2147483648
  located : Located f
  within : ∀ i < f.rows.length, (place f).Within f.rows.flatten (i * f.rowSize)

/-- What stands at the place of row `i`. -/
def eventAt (f : EventFile) (i : ℕ) : Event :=
  (place f).event twosComplement f.rows.flatten (i * f.rowSize)

section Events

variable {f : EventFile} {m : XMeta} {schedule : List (ℕ × ℕ) → List (ℕ × ℕ)}

theorem columnSize_nonneg (c : ℕ) : 0 ≤ (columnSize f c).getD 0 := by
  cases hlast : columnSize f c with
  | none => exact le_rfl
  | some size =>
    obtain ⟨card, -, hgiven⟩ := List.mem_filterMap.mp (List.mem_of_getLast? hlast)
    obtain ⟨p, hp, hsize⟩ := Option.bind_eq_some_iff.mp hgiven
    obtain ⟨-, hsize⟩ := Option.ite_none_right_eq_some.mp hsize
    rw [lineSize, Option.ite_none_right_eq_some] at hp
    obtain ⟨q, -, hq⟩ := Option.bind_eq_some_iff.mp hp.2
    obtain ⟨v, hv, rfl⟩ := Option.map_eq_some_iff.mp hq
    rw [Option.getD_some, ← Option.some.inj hsize]
    exact getColumnSize_nonneg q.2 v hv

theorem getColumnOffset_iff {k : ℕ} {v : ℤ} :
    getColumnOffset ((List.range f.columns.length).map (columnSize f)) k = some v ↔
      k ≤ f.columns.length ∧ (∀ c < k, (columnSize f c).isSome) ∧
        sumBefore (columnSize f) k < 2147483648 ∧ v = sumBefore (columnSize f) k :=
  SxsReader.getColumnOffset_eq_some_iff columnSize_nonneg

theorem positionOffset_iff (hsized : ∀ c < f.columns.length, (columnSize f c).isSome)
    (hsum : sumBefore (columnSize f) f.columns.length < 2147483648) {i : ℤ} {v : ℕ} :
    positionOffset ((List.range f.columns.length).map (columnSize f)) i = some v ↔
      (-2147483648 < i ∧ (i - 1).toNat ≤ f.columns.length) ∧
        v = (sumBefore (columnSize f) (i - 1).toNat).toNat := by
  have hlt := f.length_columns_lt
  rw [positionOffset, Option.bind_eq_bind, Option.bind_eq_some_iff]
  constructor
  · rintro ⟨index, hindex, h⟩
    obtain ⟨offset, hoffset, h⟩ := Option.bind_eq_some_iff.mp h
    rw [SxsReader.int, Option.ite_none_right_eq_some, Option.some_inj] at hindex
    obtain ⟨hrange, rfl⟩ := hindex
    obtain ⟨hk, -, -, rfl⟩ := getColumnOffset_iff.mp hoffset
    rw [Option.ite_none_left_eq_some] at h
    exact ⟨⟨by omega, hk⟩, (Option.some.inj h.2).symm⟩
  · rintro ⟨⟨hlow, hk⟩, rfl⟩
    have hnonneg := @SxsReader.sumBefore_nonneg (columnSize f) columnSize_nonneg (i - 1).toNat
    refine ⟨i - 1, by rw [SxsReader.int, if_pos (by omega)],
      Option.bind_eq_some_iff.mpr ⟨_, getColumnOffset_iff.mpr ⟨hk, fun c hc => hsized c (by omega),
        (SxsReader.sumBefore_mono columnSize_nonneg hk).trans_lt hsum, rfl⟩, ?_⟩⟩
    rw [if_neg (by omega)]

theorem sum_iff : getColumnOffset ((List.range f.columns.length).map (columnSize f))
      ((List.range f.columns.length).map (columnSize f)).length = some (f.rowSize : ℤ) ↔
    (∀ c < f.columns.length, (columnSize f c).isSome) ∧
      sumBefore (columnSize f) f.columns.length = f.rowSize ∧ f.rowSize < 2147483648 := by
  rw [List.length_map, List.length_range, getColumnOffset_iff]
  constructor
  · rintro ⟨-, hsized, hlt, hsum⟩
    exact ⟨hsized, hsum.symm, by omega⟩
  · rintro ⟨hsized, hsum, hlt⟩
    exact ⟨le_rfl, hsized, by omega, hsum.symm⟩

theorem slice_rows (f : EventFile) :
    slice f.bytes f.data (f.data + f.rows.length * f.rowSize) = some f.rows.flatten := by
  have h := ZigCards.slice_append (f.before.flatten ++ f.header) f.rows.flatten f.after
  rw [List.append_assoc, List.length_append, f.length_flatten_before, f.length_header,
    f.length_flatten_rows, Nat.mul_comm f.rowSize] at h
  exact h

structure Final (f : EventFile) (m : XMeta) : Prop where
  naxis1 : m.naxis1 = some f.rowSize
  naxis2 : m.naxis2 = some f.rows.length
  ix : m.ix = position f .X
  iy : m.iy = position f .Y
  ipi : m.ipi = position f .PI
  columns : m.columns = some ((List.range f.columns.length).map (columnSize f))

theorem final_of_scanCards (hscan : scanCards f.cards .undefined = some m) : Final f m := by
  have hheader := (scanCards_isSome_iff f).mp (Option.isSome_of_eq_some hscan)
  obtain ⟨hnaxis1, hnaxis2⟩ := axes_final hheader.readable hscan
  exact ⟨hnaxis1, hnaxis2, index_final hscan .X, index_final hscan .Y, index_final hscan .PI,
    columns_final hscan⟩

theorem located_of_readRows (hm : Final f m) {num_cores : ℕ} {result : XEvents}
    (h : readRows num_cores schedule f.bytes f.data m = some result) :
    ((∀ c < f.columns.length, (columnSize f c).isSome) ∧
      sumBefore (columnSize f) f.columns.length = f.rowSize ∧ f.rowSize < 2147483648) ∧
        Located f := by
  rw [readRows] at h
  obtain ⟨columns, hcolumns, h⟩ := Option.bind_eq_some_iff.mp h
  obtain rfl := Option.some.inj (hm.columns.symm.trans hcolumns)
  obtain ⟨naxis1, hnaxis1, h⟩ := Option.bind_eq_some_iff.mp h
  obtain rfl := Option.some.inj (hm.naxis1.symm.trans hnaxis1)
  obtain ⟨naxis2, hnaxis2, h⟩ := Option.bind_eq_some_iff.mp h
  obtain rfl := Option.some.inj (hm.naxis2.symm.trans hnaxis2)
  obtain ⟨sum, hsum, h⟩ := Option.bind_eq_some_iff.mp h
  split at h
  · cases h
  · rename_i heq
    rw [not_not.mp heq] at hsum
    have hsizes := sum_iff.mp hsum
    obtain ⟨hsized, hrow, hint⟩ := hsizes
    have hlt : sumBefore (columnSize f) f.columns.length < 2147483648 := by omega
    obtain ⟨ix, hix, h⟩ := Option.bind_eq_some_iff.mp h
    obtain ⟨iy, hiy, h⟩ := Option.bind_eq_some_iff.mp h
    obtain ⟨ipi, hipi, h⟩ := Option.bind_eq_some_iff.mp h
    obtain ⟨x_offset, hx, h⟩ := Option.bind_eq_some_iff.mp h
    obtain ⟨y_offset, hy, h⟩ := Option.bind_eq_some_iff.mp h
    obtain ⟨pi_offset, hpi, h⟩ := Option.bind_eq_some_iff.mp h
    rw [hm.ix] at hix
    rw [hm.iy] at hiy
    rw [hm.ipi] at hipi
    refine ⟨⟨hsized, hrow, hint⟩, ?_, ?_⟩
    · intro column
      cases column with
      | X => exact ⟨ix, hix, ((positionOffset_iff hsized hlt).mp hx).1⟩
      | Y => exact ⟨iy, hiy, ((positionOffset_iff hsized hlt).mp hy).1⟩
      | PI => exact ⟨ipi, hipi, ((positionOffset_iff hsized hlt).mp hpi).1⟩
    · split at h
      · cases h
      · rename_i hfirst
        obtain ⟨pi_size, hsize, -⟩ := Option.bind_eq_some_iff.mp h
        rw [SxsReader.sizes_getElem, Option.ite_none_right_eq_some] at hsize
        exact ⟨ipi, hipi, by omega, by omega⟩

theorem readRows_of_located (hm : Final f m)
    (hsizes : (∀ c < f.columns.length, (columnSize f c).isSome) ∧
      sumBefore (columnSize f) f.columns.length = f.rowSize ∧ f.rowSize < 2147483648)
    (hlocated : Located f) (num_cores : ℕ) :
    readRows num_cores schedule f.bytes f.data m =
      (ZigThreads.runThreads (min 16 num_cores) f.rows.length f.rowSize
        (fun offset => readRow f.rows.flatten offset (place f).x (place f).y (place f).pi
          ((place f).width : ℕ)) schedule).map fun events => ⟨f.rows.length, events⟩ := by
  have hlt : sumBefore (columnSize f) f.columns.length < 2147483648 := by
    have hsum := hsizes.2.1
    omega
  have hoffset : ∀ column : EventColumn, ∃ i, position f column = some i ∧
      positionOffset ((List.range f.columns.length).map (columnSize f)) i =
        some (columnStart f column) := by
    intro column
    obtain ⟨i, hi, hrange⟩ := hlocated.counted column
    exact ⟨i, hi, (positionOffset_iff hsizes.1 hlt).mpr
      ⟨hrange, by rw [columnStart, hi, Option.getD_some]⟩⟩
  obtain ⟨ix, hix, hx⟩ := hoffset .X
  obtain ⟨iy, hiy, hy⟩ := hoffset .Y
  obtain ⟨ipi, hipi, hpi⟩ := hoffset .PI
  obtain ⟨i, hi, hlow, hhigh⟩ := hlocated.pi
  obtain rfl : ipi = i := Option.some.inj (hipi.symm.trans hi)
  have hsize : ((List.range f.columns.length).map (columnSize f))[(ipi - 1).toNat]?.join =
      some ((place f).width : ℤ) := by
    obtain ⟨size, hsize⟩ := Option.isSome_iff_exists.mp (hsizes.1 (ipi - 1).toNat (by omega))
    have hnonneg := columnSize_nonneg (f := f) (ipi - 1).toNat
    rw [hsize, Option.getD_some] at hnonneg
    rw [SxsReader.sizes_getElem, if_pos (by omega), place, hipi, Option.getD_some, hsize,
      Option.getD_some, Int.toNat_of_nonneg hnonneg]
  have hfirst : ¬ ipi < 1 := by omega
  rw [readRows, hm.columns, hm.naxis1, hm.naxis2, hm.ix, hm.iy, hm.ipi, hix, hiy, hipi]
  change Option.bind (getColumnOffset _ _) _ = _
  rw [sum_iff.mpr hsizes, Option.bind_some, if_neg (not_not.mpr rfl)]
  change Option.bind (positionOffset _ ix) _ = _
  rw [hx]
  change Option.bind (positionOffset _ iy) _ = _
  rw [hy]
  change Option.bind (positionOffset _ ipi) _ = _
  rw [hpi, Option.bind_some, if_neg hfirst, hsize]
  change Option.bind (slice f.bytes f.data (f.data + f.rows.length * f.rowSize)) _ = _
  rw [slice_rows, ZigThreads.runThreads]
  change Option.bind (List.foldlM (runRound _ _ _ fun offset => readRow f.rows.flatten offset
    (place f).x (place f).y (place f).pi ((place f).width : ℕ)) _ _) _ = _
  cases (schedule (rounds (min 16 num_cores) f.rows.length)).foldlM
    (runRound (min 16 num_cores) f.rows.length f.rowSize fun offset =>
      readRow f.rows.flatten offset (place f).x (place f).y (place f).pi ((place f).width : ℕ))
      (List.replicate f.rows.length none) with
  | none => rfl
  | some arrays =>
    rw [Option.bind_some, Option.bind_some]
    cases arrays.mapM id <;> rfl

/-- Arrays are returned for the admitted files only, with any number of processors and for every
order of the rounds. -/
theorem arrays_iff {cpu_count : ℕ} (hperm : ∀ l, (schedule l).Perm l) {result : XEvents} :
    readEvents cpu_count schedule f.bytes = some result ↔ Admitted f ∧
      result = ⟨f.rows.length, (List.range f.rows.length).map (eventAt f)⟩ := by
  have hpos : 0 < min 16 (getNumCores cpu_count) := by
    rw [getNumCores]
    omega
  have hthreads : ∀ events : List Event,
      ZigThreads.runThreads (min 16 (getNumCores cpu_count)) f.rows.length f.rowSize
        (fun offset => readRow f.rows.flatten offset (place f).x (place f).y (place f).pi
          ((place f).width : ℕ)) schedule = some events ↔
      (∀ i < f.rows.length, (place f).Within f.rows.flatten (i * f.rowSize)) ∧
        events = (List.range f.rows.length).map (eventAt f) := fun events =>
    ZigThreads.runThreads_eq_some_iff hpos hperm fun i _ event => readRow_eq_some_iff
  rw [ZigHeader.readEvents_header, Option.bind_eq_some_iff]
  constructor
  · rintro ⟨m, hscan, hrows⟩
    have hm := final_of_scanCards hscan
    obtain ⟨hsizes, hlocated⟩ := located_of_readRows hm hrows
    rw [readRows_of_located hm hsizes hlocated, Option.map_eq_some_iff] at hrows
    obtain ⟨events, hevents, rfl⟩ := hrows
    obtain ⟨hwithin, rfl⟩ := (hthreads events).mp hevents
    exact ⟨⟨(scanCards_isSome_iff f).mp (Option.isSome_of_eq_some hscan), hsizes.1, hsizes.2.1,
      hsizes.2.2, hlocated, hwithin⟩, rfl⟩
  · rintro ⟨h, rfl⟩
    obtain ⟨m, hscan⟩ := Option.isSome_iff_exists.mp ((scanCards_isSome_iff f).mpr h.header)
    refine ⟨m, hscan, ?_⟩
    rw [readRows_of_located (final_of_scanCards hscan) ⟨h.sized, h.sum, h.int⟩ h.located,
      Option.map_eq_some_iff]
    exact ⟨_, (hthreads _).mpr ⟨h.within, rfl⟩, rfl⟩

end Events

end XWebQL.ZigColumns
