import XWebQL.EventPlaces
import XWebQL.SxsEvents
import XWebQL.SxsSafety

/-! What `read_sxs_events` returns for any well-formed file.
The cards of the table are the lines that the reader scans. What it makes of them
says where it looks for the columns, and the file is read right where the bytes
there are the ones of the table. -/

namespace XWebQL.SxsColumns

open AsciiText FitsTable SxsReader SxsLines EventPlaces
open SxsSafety (Sized Refused sizes sizesBefore rowSize columnStart)
open SingleFloat (toSingle)
open SxsHeader (number startsWith_card)
open SxsEvents (ReadsColumns RowsInRange NoEmptyColumn NonnegativePi trueEvent)

section Rows

variable {sxs : List UInt8} {data : ℕ}

theorem load_eq_some_iff {address width n : ℕ} :
    load sxs width (address : ℤ) = some n ↔
      address + width ≤ sxs.length ∧ n = DataView.fromLittleEndian (bytesAt sxs address width) := by
  rw [load, if_neg (by omega), Int.toNat_natCast, DataView.subarray]
  split
  · rename_i hin
    rw [Option.map_some, Option.some.injEq, and_iff_right hin, bytesAt, eq_comm]
  · rename_i hout
    exact ⟨fun h => absurd h (by simp), fun h => absurd h.1 hout⟩

theorem length_bytesAt {first count : ℕ} (h : first + count ≤ sxs.length) :
    (bytesAt sxs first count).length = count := by
  rw [bytesAt, List.length_take, List.length_drop]
  omega

theorem word_eq {first : ℕ} (h : first + 2 ≤ sxs.length) :
    Int.bmod (bswap16 (DataView.fromLittleEndian (bytesAt sxs first 2))) 65536 =
      twosComplement (bytesAt sxs first 2) := by
  rw [SxsEvents.bswap16_fromLittleEndian (length_bytesAt h), twosComplement, length_bytesAt h]
  rfl

/-- What a round of the loop reads of `PI`. -/
def loadEnergy (sxs : List UInt8) (address pi_size : ℤ) : Option ℤ :=
  if pi_size = 2 then (load sxs 2 address).map fun n => toSingle (bswap16 n)
  else if pi_size = 4 then (load sxs 4 address).map fun n => toSingle (bswap32 n)
  else some 0

theorem loadEnergy_eq_some_iff {first width : ℕ} {z : ℤ} :
    loadEnergy sxs (first : ℤ) (width : ℤ) = some z ↔
      (∀ count ∈ [2, 4], width = count → first + count ≤ sxs.length) ∧
        z = if width = 2 ∨ width = 4 then
          toSingle (fromBigEndian (bytesAt sxs first width)) else 0 := by
  have htwo : (width : ℤ) = 2 ↔ width = 2 := by omega
  have hfour : (width : ℤ) = 4 ↔ width = 4 := by omega
  simp only [loadEnergy, htwo, hfour]
  by_cases h2 : width = 2
  · subst h2
    rw [if_pos rfl, if_pos (.inl rfl), Option.map_eq_some_iff]
    simp only [load_eq_some_iff]
    constructor
    · rintro ⟨n, ⟨hin, rfl⟩, rfl⟩
      rw [SxsEvents.bswap16_fromLittleEndian (length_bytesAt hin)]
      exact ⟨fun count _ heq => heq ▸ hin, rfl⟩
    · rintro ⟨hin, rfl⟩
      have hin := hin 2 (by simp) rfl
      exact ⟨_, ⟨hin, rfl⟩, by rw [SxsEvents.bswap16_fromLittleEndian (length_bytesAt hin)]⟩
  · by_cases h4 : width = 4
    · subst h4
      rw [if_neg (by decide), if_pos rfl, if_pos (.inr rfl), Option.map_eq_some_iff]
      simp only [load_eq_some_iff]
      constructor
      · rintro ⟨n, ⟨hin, rfl⟩, rfl⟩
        rw [SxsEvents.bswap32_fromLittleEndian (length_bytesAt hin)]
        exact ⟨fun count _ heq => heq ▸ hin, rfl⟩
      · rintro ⟨hin, rfl⟩
        have hin := hin 4 (by simp) rfl
        exact ⟨_, ⟨hin, rfl⟩, by rw [SxsEvents.bswap32_fromLittleEndian (length_bytesAt hin)]⟩
    · rw [if_neg h2, if_neg h4, if_neg (not_or.mpr ⟨h2, h4⟩), Option.some.injEq, eq_comm]
      refine (and_iff_right fun count hcount heq => ?_).symm
      rcases List.mem_pair.mp hcount with rfl | rfl
      · exact absurd heq h2
      · exact absurd heq h4

theorem readRow_eq (naxis1 x_offset y_offset pi_offset pi_size : ℤ) (i : ℕ) :
    readRow sxs data naxis1 x_offset y_offset pi_offset pi_size i =
      (int (i * naxis1)).bind fun step =>
        (load sxs 2 (data + step + x_offset)).bind fun x =>
          (load sxs 2 (data + step + y_offset)).bind fun y =>
            (loadEnergy sxs (data + step + pi_offset) pi_size).bind fun energy =>
              some ⟨Int.bmod (bswap16 x) 65536, Int.bmod (bswap16 y) 65536, energy⟩ := by
  unfold readRow loadEnergy
  split_ifs <;> rfl

theorem readRow_eq_some_iff {p : Place} {stride i : ℕ} {event : Event} :
    readRow sxs data stride p.x p.y p.pi p.width i = some event ↔
      (i * stride < 2147483648 ∧ p.Within sxs (data + i * stride)) ∧
        event = p.event (fun bytes => fromBigEndian bytes) sxs (data + i * stride) := by
  have hstep : int (i * (stride : ℤ)) =
      if i * stride < 2147483648 then some ((i * stride : ℕ) : ℤ) else none := by
    rw [← Nat.cast_mul]
    split
    · exact SxsHeader.int_natCast ‹_›
    · rw [int, if_neg (by omega)]
  have haddress : ∀ o : ℕ, (data : ℤ) + (i * stride : ℕ) + o = ((data + i * stride + o : ℕ) : ℤ) :=
    fun o => by push_cast; rfl
  by_cases hrange : i * stride < 2147483648
  · rw [readRow_eq, hstep, if_pos hrange]
    simp only [Option.bind_some, haddress, Option.bind_eq_some_iff, load_eq_some_iff,
      loadEnergy_eq_some_iff, Option.some.injEq, and_iff_right hrange]
    constructor
    · rintro ⟨x, ⟨hx, rfl⟩, y, ⟨hy, rfl⟩, z, ⟨hpi, rfl⟩, rfl⟩
      exact ⟨⟨hx, hy, hpi⟩, by rw [word_eq hx, word_eq hy]; rfl⟩
    · rintro ⟨⟨hx, hy, hpi⟩, rfl⟩
      exact ⟨_, ⟨hx, rfl⟩, _, ⟨hy, rfl⟩, _, ⟨hpi, rfl⟩, by rw [word_eq hx, word_eq hy]; rfl⟩
  · rw [readRow_eq, hstep, if_neg hrange]
    exact ⟨fun h => absurd h (by simp), fun h => absurd h.1.1 hrange⟩

end Rows

/-- The columns before `X` and `Y` can be counted, and `PI` is a column of the table. -/
structure Placed (lines : List (List UInt8)) : Prop where
  counted : ∀ name ∈ ["X", "Y"], -2147483648 < position name lines ∧
    (position name lines - 1).toNat ≤ (axis "TFIELDS = " lines).toNat
  pi : 1 ≤ position "PI" lines ∧ position "PI" lines ≤ axis "TFIELDS = " lines

def place (lines : List (List UInt8)) : Place where
  x := (columnStart lines "X").toNat
  y := (columnStart lines "Y").toNat
  pi := (columnStart lines "PI").toNat
  width := ((columnSize lines (position "PI" lines - 1).toNat).getD 0).toNat

section Table

variable {sxs : List UInt8} {lines : List (List UInt8)} {data : ℕ} {m : Meta}

theorem positionOffset_eq_some_iff (hsized : Sized lines) {position v : ℤ} :
    positionOffset (sizes lines) position = some v ↔
      (-2147483648 < position ∧ (position - 1).toNat ≤ (axis "TFIELDS = " lines).toNat) ∧
        v = sizesBefore lines (position - 1).toNat := by
  have hle := axis_le "TFIELDS = " lines
  rw [positionOffset, Option.bind_eq_bind, Option.bind_eq_some_iff]
  constructor
  · rintro ⟨index, hindex, hoffset⟩
    have hrange : -2147483648 ≤ position - 1 := by
      rw [int, Option.ite_none_right_eq_some] at hindex
      exact hindex.1.1
    obtain ⟨rfl, hhigh⟩ := le_of_int hindex
    obtain ⟨hk, -, -, rfl⟩ := SxsSafety.getColumnOffset_eq_some_iff.mp hoffset
    exact ⟨⟨by omega, hk⟩, rfl⟩
  · rintro ⟨⟨hlow, hk⟩, rfl⟩
    refine ⟨position - 1, by rw [int, if_pos (by omega)], ?_⟩
    exact SxsSafety.getColumnOffset_eq_some_iff.mpr ⟨hk, fun c hc => hsized.each c (by omega),
      (SxsSafety.sizesBefore_mono hk).trans_lt hsized.sum, rfl⟩

theorem natCast_columnStart (name : String) :
    ((columnStart lines name).toNat : ℤ) = columnStart lines name :=
  Int.toNat_of_nonneg (SxsSafety.columnStart_nonneg name)

theorem natCast_width (lines : List (List UInt8)) :
    ((place lines).width : ℤ) = (columnSize lines (position "PI" lines - 1).toNat).getD 0 :=
  Int.toNat_of_nonneg (SxsSafety.getD_columnSize_nonneg _)

theorem readRows_of_placed (hm : Scanned lines m) (hsized : Sized lines)
    (hadmitted : ¬ Refused sxs lines data) (hplaced : Placed lines) :
    readRows sxs data m =
      ((List.range (axis "NAXIS2  = " lines).toNat).mapM (readRow sxs data
        (axis "NAXIS1  = " lines) (place lines).x (place lines).y (place lines).pi
          (place lines).width)).map fun events => ⟨axis "NAXIS2  = " lines, some events⟩ := by
  have hpi := hplaced.pi
  have hnotFirst : ¬ position "PI" lines < 1 := by omega
  have hoffset : ∀ name : String, -2147483648 < position name lines ∧
      (position name lines - 1).toNat ≤ (axis "TFIELDS = " lines).toNat →
        positionOffset (sizes lines) (position name lines) =
          some ((columnStart lines name).toNat : ℤ) := fun name h =>
    (positionOffset_eq_some_iff hsized).mpr ⟨h, natCast_columnStart name⟩
  have hentry : (sizes lines)[(position "PI" lines - 1).toNat]?.join =
      some ((place lines).width : ℤ) := by
    obtain ⟨size, hsize⟩ := Option.isSome_iff_exists.mp
      (hsized.each (position "PI" lines - 1).toNat (by omega))
    rw [SxsSafety.sizes_getElem, if_pos (by omega), natCast_width, hsize, Option.getD_some]
  rw [SxsSafety.readRows_of_admitted hm hsized hadmitted,
    hoffset "X" (hplaced.counted "X" (by simp)), hoffset "Y" (hplaced.counted "Y" (by simp)),
    hoffset "PI" ⟨by omega, by omega⟩]
  simp only [Option.bind_eq_bind, Option.bind_some, if_neg hnotFirst, hentry]
  rw [Option.map_eq_bind]
  rfl

theorem placed_of_readRows (hm : Scanned lines m) (hsized : Sized lines)
    (hadmitted : ¬ Refused sxs lines data) {result : Result}
    (h : readRows sxs data m = some result) : Placed lines := by
  rw [SxsSafety.readRows_of_admitted hm hsized hadmitted] at h
  obtain ⟨x_offset, hx, h⟩ := Option.bind_eq_some_iff.mp h
  obtain ⟨y_offset, hy, h⟩ := Option.bind_eq_some_iff.mp h
  obtain ⟨pi_offset, hpi, h⟩ := Option.bind_eq_some_iff.mp h
  have hx := ((positionOffset_eq_some_iff hsized).mp hx).1
  have hy := ((positionOffset_eq_some_iff hsized).mp hy).1
  refine ⟨fun name hname => ?_, ?_⟩
  · rcases List.mem_pair.mp hname with rfl | rfl
    · exact hx
    · exact hy
  · split at h
    · cases h
    · rename_i hfirst
      obtain ⟨pi_size, hsize, -⟩ := Option.bind_eq_some_iff.mp h
      rw [SxsSafety.sizes_getElem, Option.ite_none_right_eq_some] at hsize
      have hlt := hsize.1
      omega

theorem readRows_eq_some_iff (hm : Scanned lines m) {result : Result} :
    readRows sxs data m = some result ↔ Sized lines ∧
      (Refused sxs lines data ∧ result = ⟨0, none⟩ ∨
        ¬ Refused sxs lines data ∧ Placed lines ∧
          (∀ i < (axis "NAXIS2  = " lines).toNat,
            i * (axis "NAXIS1  = " lines).toNat < 2147483648 ∧
              (place lines).Within sxs (data + i * (axis "NAXIS1  = " lines).toNat)) ∧
            result = ⟨axis "NAXIS2  = " lines, some ((List.range (axis "NAXIS2  = " lines).toNat).map
              fun i => (place lines).event (fun bytes => fromBigEndian bytes) sxs
                (data + i * (axis "NAXIS1  = " lines).toNat))⟩) := by
  by_cases hsized : Sized lines
  · rw [and_iff_right hsized]
    by_cases hrefused : Refused sxs lines data
    · rw [SxsSafety.readRows_of_refused hm hsized hrefused]
      simp [hrefused, eq_comm]
    · by_cases hplaced : Placed lines
      · have hstride : ((axis "NAXIS1  = " lines).toNat : ℤ) = axis "NAXIS1  = " lines := by
          refine Int.toNat_of_nonneg ?_
          rw [Refused, not_or, not_not] at hrefused
          exact hrefused.1 ▸ SxsSafety.sizesBefore_nonneg _
        have hround := fun i (_ : i ∈ List.range (axis "NAXIS2  = " lines).toNat) =>
          @readRow_eq_some_iff sxs data (place lines) (axis "NAXIS1  = " lines).toNat i
        have hrows := @OptionFold.mapM_eq_some_iff _ _ _ _ _ _ hround
        rw [hstride] at hrows
        rw [readRows_of_placed hm hsized hrefused hplaced, Option.map_eq_some_iff]
        simp only [hrows, List.mem_range, hrefused, hplaced, false_and, false_or, not_false_eq_true,
          true_and]
        constructor
        · rintro ⟨events, ⟨hall, rfl⟩, rfl⟩
          exact ⟨hall, rfl⟩
        · rintro ⟨hall, rfl⟩
          exact ⟨_, ⟨hall, rfl⟩, rfl⟩
      · simp only [hrefused, hplaced, false_and, and_false, or_self, iff_false]
        exact fun h => hplaced (placed_of_readRows hm hsized hrefused h)
  · exact iff_of_false (fun h => hsized (SxsSafety.sized_of_readRows hm h)) fun h => hsized h.1

end Table

def linesFrom (rest : List UInt8) : List Card → List (List UInt8)
  | [] => []
  | card :: cards => (card.bytes ++ (cards.flatMap Card.bytes ++ rest)) :: linesFrom rest cards

/-- The lines of the header before its `END`. -/
def cardLines (f : EventFile) : List (List UInt8) :=
  linesFrom (endCard ++ (f.fill ++ (f.rows.flatten ++ f.after))) f.cards

section Lines

variable {cards : List Card} {rest : List UInt8}

theorem length_linesFrom (rest : List UInt8) (cards : List Card) :
    (linesFrom rest cards).length = cards.length := by
  induction cards with
  | nil => rfl
  | cons card cards ih => rw [linesFrom, List.length_cons, ih, List.length_cons]

theorem card_of_line {line : List UInt8} (h : line ∈ linesFrom rest cards) :
    ∃ card ∈ cards, ∃ tail, line = card.bytes ++ tail := by
  induction cards with
  | nil => cases h
  | cons card cards ih =>
    rcases List.mem_cons.mp h with rfl | h
    · exact ⟨card, List.mem_cons_self, _, rfl⟩
    · obtain ⟨other, hmem, hline⟩ := ih h
      exact ⟨other, List.mem_cons_of_mem _ hmem, hline⟩

variable (rest) in
theorem line_of_card {card : Card} (h : card ∈ cards) :
    ∃ tail, card.bytes ++ tail ∈ linesFrom rest cards := by
  induction cards with
  | nil => cases h
  | cons first cards ih =>
    rcases List.mem_cons.mp h with rfl | h
    · exact ⟨_, List.mem_cons_self⟩
    · obtain ⟨tail, hmem⟩ := ih h
      exact ⟨tail, List.mem_cons_of_mem _ hmem⟩

theorem linesOf_cards (h : ∀ card ∈ cards, card.bytes.length = 80) (k : ℕ) :
    linesOf (cards.length + k) (cards.flatMap Card.bytes ++ rest) =
      linesFrom rest cards ++ linesOf k rest := by
  induction cards with
  | nil => rw [List.length_nil, Nat.zero_add]; rfl
  | cons card cards ih =>
    have hdrop : (card.bytes ++ (cards.flatMap Card.bytes ++ rest)).drop FITS_LINE_LENGTH =
        cards.flatMap Card.bytes ++ rest := List.drop_left' (h card List.mem_cons_self)
    rw [List.length_cons, Nat.add_right_comm, List.flatMap_cons, List.append_assoc, linesOf_succ,
      hdrop, ih fun c hc => h c (List.mem_cons_of_mem _ hc)]
    rfl

variable {t : Table} {card : Card}

theorem hdrGetIntValue_card (hcard : card.Says t) {keyword : String} {n : ℕ}
    (hnumber : number t card = some (keyword, n)) (tail : List UInt8) :
    hdrGetIntValue ((card.bytes ++ tail).drop 10) = int n := by
  cases card with
  | naxis1 field | naxis2 field | tfields field =>
    obtain ⟨-, rfl⟩ := Prod.mk.inj (Option.some.inj hnumber)
    rw [Card.bytes, List.append_assoc]
    exact SxsHeader.hdrGetIntValue_intField hcard tail
  | _ => cases hnumber

end Lines

section Header

variable {f : EventFile}

theorem headerLines_eq (f : EventFile) : headerLines f.bytes f.start = cardLines f := by
  have hlength := f.length_bytes
  rw [EventFile.data] at hlength
  obtain ⟨k, hk⟩ : ∃ k, 36 * ((f.bytes.length - f.start) / FITS_CHUNK_LENGTH) =
      f.cards.length + (k + 1) := by
    refine ⟨36 * ((f.bytes.length - f.start) / FITS_CHUNK_LENGTH) - f.cards.length - 1, ?_⟩
    unfold FITS_CHUNK_LENGTH
    omega
  have hdrop : f.bytes.drop f.start =
      f.cards.flatMap Card.bytes ++ (endCard ++ (f.fill ++ (f.rows.flatten ++ f.after))) := by
    rw [f.drop_start, EventFile.header]
    simp only [List.append_assoc]
  have hcards : ∀ line ∈ cardLines f, (!isEnd line) = true := by
    intro line hline
    obtain ⟨card, hcard, tail, rfl⟩ := card_of_line hline
    obtain ⟨htrue, hlength, -⟩ := f.true_cards card hcard
    have hend : startsWith (card.bytes ++ tail) "END       " = false := by
      rw [startsWith_card htrue hlength tail _ (by simp)]
      cases card <;> rfl
    rw [isEnd, hend, Bool.not_false]
  rw [headerLines, hk, hdrop, linesOf_cards (f.length_card (List.Subset.refl _)), linesOf_succ,
    ← cardLines, List.takeWhile_append_of_pos hcards, List.takeWhile_cons_of_neg, List.append_nil]
  exact Bool.false_ne_true

theorem readSxsEvents_eq (f : EventFile) :
    readSxsEvents f.bytes = (scanAll (cardLines f) .start).bind (readRows f.bytes f.data) := by
  have hlength := f.length_bytes
  rw [EventFile.data] at hlength
  have hlong : ¬ f.bytes.length < FITS_CHUNK_LENGTH := by
    unfold FITS_CHUNK_LENGTH
    omega
  have hcount : (cardLines f).length = f.cards.length := length_linesFrom _ _
  have hdata : f.start + FITS_CHUNK_LENGTH * (f.cards.length / 36) + FITS_CHUNK_LENGTH = f.data := by
    rw [EventFile.data, Nat.mul_add, Nat.mul_one, ← Nat.add_assoc]
    rfl
  rw [readSxsEvents, if_neg hlong, SxsEvents.findTable_start]
  simp only [readHeader_eq, headerLines_eq, hcount]
  cases scanAll (cardLines f) .start with
  | none => rfl
  | some m =>
    simp only [Option.map_some, Option.bind_eq_bind, Option.bind_some, hdata]

theorem axis_cardLines {keyword : String} {n : ℕ}
    (hkeyword : keyword ∈ ["NAXIS1  = ", "NAXIS2  = ", "TFIELDS = "])
    (hgiven : ∃ card ∈ f.cards, number f.toTable card = some (keyword, n))
    (hread : ∀ line ∈ cardLines f, Readable line) :
    axis keyword (cardLines f) = n ∧ n < 2147483648 := by
  have hmem : keyword ∈ ["END       ", "NAXIS1  = ", "NAXIS2  = ", "TFIELDS = "] :=
    List.mem_cons_of_mem _ hkeyword
  obtain ⟨card, hcard, hnumber⟩ := hgiven
  have hall : ∀ line ∈ cardLines f, ∀ v, numberOf keyword line = some v → v = n := by
    intro line hline v hv
    obtain ⟨other, hother, tail, rfl⟩ := card_of_line hline
    obtain ⟨htrue, hlength, -⟩ := f.true_cards other hother
    rw [numberOf, startsWith_card htrue hlength tail keyword hmem] at hv
    split at hv
    · rename_i hstarts
      obtain ⟨⟨keyword', k⟩, hnumber', rfl⟩ := Option.map_eq_some_iff.mp (beq_iff_eq.mp hstarts)
      rw [hdrGetIntValue_card htrue hnumber'] at hv
      rw [(le_of_int hv).1, SxsHeader.number_unique hnumber hnumber']
    · cases hv
  obtain ⟨tail, hline⟩ := line_of_card (endCard ++ (f.fill ++ (f.rows.flatten ++ f.after))) hcard
  obtain ⟨htrue, hlength, -⟩ := f.true_cards card hcard
  have hstarts : startsWith (card.bytes ++ tail) keyword = true := by
    rw [startsWith_card htrue hlength tail keyword hmem, hnumber]
    exact beq_self_eq_true _
  have hsome := (hread _ hline).axes keyword hkeyword hstarts
  obtain ⟨v, hv⟩ := Option.isSome_iff_exists.mp hsome
  have hvalue : numberOf keyword (card.bytes ++ tail) = some v := by
    rw [numberOf, hstarts, if_pos rfl, hv]
  refine ⟨?_, ?_⟩
  · rw [axis, last]
    cases hlast : ((cardLines f).filterMap (numberOf keyword)).getLast? with
    | none =>
      rw [List.getLast?_eq_none_iff, List.filterMap_eq_nil_iff] at hlast
      rw [hlast _ hline] at hvalue
      cases hvalue
    | some w =>
      obtain ⟨other, hother, hw⟩ := List.mem_filterMap.mp (List.mem_of_getLast? hlast)
      exact hall other hother w hw
  · rw [hdrGetIntValue_card htrue hnumber] at hv
    have hle := le_of_int hv
    omega

theorem axes_cardLines (hread : ∀ line ∈ cardLines f, Readable line) :
    (axis "NAXIS1  = " (cardLines f) = f.rowSize ∧ f.rowSize < 2147483648) ∧
      (axis "NAXIS2  = " (cardLines f) = f.rows.length ∧ f.rows.length < 2147483648) ∧
        axis "TFIELDS = " (cardLines f) = f.columns.length := by
  obtain ⟨field₁, hcard₁⟩ := f.naxis1
  obtain ⟨field₂, hcard₂⟩ := f.naxis2
  exact ⟨axis_cardLines (by simp) ⟨_, f.mem_cards hcard₁, rfl⟩ hread,
    axis_cardLines (by simp) ⟨_, f.mem_cards hcard₂, rfl⟩ hread,
    (axis_cardLines (by simp) ⟨_, f.tfields_mem, rfl⟩ hread).1⟩

end Header

/-- The reader comes to the rows, and all that it reads of them is in the file. -/
structure Admitted (f : EventFile) : Prop where
  readable : ∀ line ∈ cardLines f, Readable line
  sized : Sized (cardLines f)
  sum : rowSize (cardLines f) = f.rowSize
  placed : Placed (cardLines f)
  range : RowsInRange f.toTable
  within : ∀ i < f.rows.length, (place (cardLines f)).Within f.bytes (f.data + i * f.rowSize)

structure Declined (f : EventFile) : Prop where
  readable : ∀ line ∈ cardLines f, Readable line
  sized : Sized (cardLines f)
  sum : rowSize (cardLines f) ≠ f.rowSize

/-- What stands at the place of row `i`, with `PI` as a number without sign. -/
def eventAt (f : EventFile) (i : ℕ) : Event :=
  (place (cardLines f)).event (fun bytes => fromBigEndian bytes) f.bytes (f.data + i * f.rowSize)

section Columns

variable {f : EventFile}

theorem rowsInRange_iff (t : Table) :
    RowsInRange t ↔ ∀ i < t.rows.length, i * t.rowSize < 2147483648 := by
  constructor
  · intro h i hi
    exact (Nat.mul_le_mul_right _ (by omega)).trans_lt h
  · intro h
    by_cases hrows : t.rows.length = 0
    · rw [RowsInRange, hrows]
      norm_num
    · exact h _ (by omega)

/-- A well-formed file is never shorter than its header says. -/
theorem refused_iff (hread : ∀ line ∈ cardLines f, Readable line) :
    Refused f.bytes (cardLines f) f.data ↔ rowSize (cardLines f) ≠ f.rowSize := by
  obtain ⟨⟨hnaxis1, hrowSize⟩, ⟨hnaxis2, hrows⟩, -⟩ := axes_cardLines hread
  have hin := SxsEvents.rows_inside hrowSize hrows
  rw [Refused, hnaxis1, hnaxis2]
  exact or_iff_left (not_or.mpr ⟨Nat.not_lt.mpr hin, by omega⟩)

theorem readSxsEvents_eq_some_iff {result : Result} :
    readSxsEvents f.bytes = some result ↔
      Admitted f ∧ result = ⟨f.rows.length, some ((List.range f.rows.length).map (eventAt f))⟩ ∨
        Declined f ∧ result = ⟨0, none⟩ := by
  rw [readSxsEvents_eq, Option.bind_eq_some_iff]
  have hscanned : ∀ {m : Meta}, scanAll (cardLines f) .start = some m →
      (∀ line ∈ cardLines f, Readable line) ∧
        (readRows f.bytes f.data m = some result ↔ Sized (cardLines f) ∧
          (rowSize (cardLines f) ≠ f.rowSize ∧ result = ⟨0, none⟩ ∨
            rowSize (cardLines f) = f.rowSize ∧ Placed (cardLines f) ∧
              (∀ i < f.rows.length, i * f.rowSize < 2147483648 ∧
                (place (cardLines f)).Within f.bytes (f.data + i * f.rowSize)) ∧
              result = ⟨f.rows.length, some ((List.range f.rows.length).map (eventAt f))⟩)) := by
    intro m hscan
    have hread : ∀ line ∈ cardLines f, Readable line := by
      rw [← scanAll_isSome_iff _ .start, hscan]
      rfl
    obtain ⟨⟨hnaxis1, -⟩, ⟨hnaxis2, -⟩, -⟩ := axes_cardLines hread
    refine ⟨hread, ?_⟩
    rw [readRows_eq_some_iff (scanned_scanAll hscan), refused_iff hread, hnaxis1, hnaxis2, not_not]
    rfl
  constructor
  · rintro ⟨m, hscan, hrows⟩
    obtain ⟨hread, hiff⟩ := hscanned hscan
    obtain ⟨hsized, ⟨hsum, rfl⟩ | ⟨hsum, hplaced, hall, rfl⟩⟩ := hiff.mp hrows
    · exact .inr ⟨⟨hread, hsized, hsum⟩, rfl⟩
    · exact .inl ⟨⟨hread, hsized, hsum, hplaced,
        (rowsInRange_iff _).mpr fun i hi => (hall i hi).1, fun i hi => (hall i hi).2⟩, rfl⟩
  · intro h
    have hread : ∀ line ∈ cardLines f, Readable line := h.elim (·.1.readable) (·.1.readable)
    obtain ⟨m, hscan⟩ := Option.isSome_iff_exists.mp ((scanAll_isSome_iff _ .start).mpr hread)
    refine ⟨m, hscan, (hscanned hscan).2.mpr ?_⟩
    rcases h with ⟨h, rfl⟩ | ⟨h, rfl⟩
    · have hrange := (rowsInRange_iff _).mp h.range
      exact ⟨h.sized, .inr ⟨h.sum, h.placed, fun i hi => ⟨hrange i hi, h.within i hi⟩, rfl⟩⟩
    · exact ⟨h.sized, .inl ⟨h.sum, rfl⟩⟩

theorem arrays_iff {n : ℕ} {events : List Event} :
    readSxsEvents f.bytes = some ⟨n, some events⟩ ↔
      Admitted f ∧ n = f.rows.length ∧ events = (List.range f.rows.length).map (eventAt f) := by
  rw [readSxsEvents_eq_some_iff]
  simp

end Columns

end XWebQL.SxsColumns
