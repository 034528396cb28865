import XWebQL.Bzip2Symbols
import Mathlib.Data.List.InsertIdx

/-! The fields of a block in front of its symbols, as a compressor writes them and
as the decoder reads them: the bytes in use, the selectors and the code lengths. -/

namespace XWebQL.Bzip2Fields

open BitStream Bzip2Reader Bzip2Decoder Bzip2Tables

theorem reading_value {l : List Bool} (hl : l.length ≤ 32) :
    Reading (bits l.length) l (value l) := by
  have h := reading_bits hl (value l)
  rwa [bigEndian_value, Nat.mod_eq_of_lt (value_lt l)] at h

section Used

theorem and_shift_ne_zero (t k : ℕ) : t &&& 1 <<< k ≠ 0 ↔ t.testBit k = true := by
  rw [Nat.shiftLeft_eq, Nat.one_mul, Nat.and_two_pow]
  cases t.testBit k <;> simp

def used (marked : ℕ → Bool) : List ℕ := (List.range 256).filter marked

def rangeBits (marked : ℕ → Bool) (i : ℕ) : List Bool :=
  (List.range 16).map fun j => marked (16 * i + j)

/-- Which of the sixteen ranges have bytes in use, and those ranges themselves. -/
def encodeMap (marked : ℕ → Bool) : List Bool :=
  ((List.range 16).map fun i => (rangeBits marked i).any id) ++
    (List.range 16).flatMap fun i =>
      if (rangeBits marked i).any id then rangeBits marked i else []

theorem length_rangeBits (marked : ℕ → Bool) (i : ℕ) : (rangeBits marked i).length = 16 := by
  rw [rangeBits, List.length_map, List.length_range]

theorem test_mask {f : ℕ → Bool} {j : ℕ} (hj : j < 16) :
    value ((List.range 16).map f) &&& 1 <<< (15 - j) ≠ 0 ↔ f j = true := by
  have hlen : ((List.range 16).map f).length = 16 := by rw [List.length_map, List.length_range]
  have h := testBit_value (l := (List.range 16).map f) (i := j) (by rwa [hlen])
  rw [hlen, List.getElem?_map, List.getElem?_range hj, Option.map_some] at h
  rw [and_shift_ne_zero, ← Option.some.inj h]

/-- The bytes in use among the sixteen from `16 * i` on. -/
def usedRange (marked : ℕ → Bool) (i : ℕ) : List ℕ :=
  ((List.range 16).map fun j => 16 * i + j).filter marked

theorem used_eq (marked : ℕ → Bool) : used marked = (List.range 16).flatMap (usedRange marked) := by
  have hrange : List.range 256 =
      (List.range 16).flatMap fun i => (List.range 16).map fun j => 16 * i + j := by decide +kernel
  rw [used, hrange, List.filter_flatMap]
  rfl

theorem usedRange_eq (marked : ℕ → Bool) (i : ℕ) :
    ((List.range 16).filterMap fun j =>
      if value (rangeBits marked i) &&& 1 <<< (15 - j) ≠ 0 then some (16 * i + j) else none) =
      usedRange marked i := by
  rw [usedRange, List.filter_map, ← List.filterMap_eq_map, List.filterMap_filter]
  refine List.filterMap_congr fun j hj => ?_
  have htest := test_mask (f := fun j => marked (16 * i + j)) (List.mem_range.mp hj)
  rw [rangeBits]
  by_cases hmarked : marked (16 * i + j) = true
  · rw [if_pos (htest.mpr hmarked)]
    simp [hmarked]
  · rw [if_neg fun h => hmarked (htest.mp h)]
    simp [hmarked]

theorem usedRange_nil {marked : ℕ → Bool} {i : ℕ} (h : ¬ (rangeBits marked i).any id = true) :
    usedRange marked i = [] := by
  rw [usedRange, List.filter_eq_nil_iff]
  intro b hb hmarked
  obtain ⟨j, hj, rfl⟩ := List.mem_map.mp hb
  exact h (List.any_eq_true.mpr ⟨_, List.mem_map.mpr ⟨j, hj, rfl⟩, hmarked⟩)

theorem reading_symbolRange (marked : ℕ → Bool) (symToByte : List ℕ) {i : ℕ} (hi : i < 16) :
    Reading (symbolRange (value ((List.range 16).map fun i => (rangeBits marked i).any id))
      symToByte i) (if (rangeBits marked i).any id then rangeBits marked i else [])
      (symToByte ++ usedRange marked i) := by
  have htest := test_mask (f := fun i => (rangeBits marked i).any id) hi
  rw [symbolRange]
  by_cases hany : (rangeBits marked i).any id = true
  · rw [if_pos (htest.mpr hany), if_pos hany, ← usedRange_eq]
    have hread := reading_value (l := rangeBits marked i) (by rw [length_rangeBits]; norm_num)
    rw [length_rangeBits] at hread
    exact hread.bind_pure (Reads.pure _)
  · rw [if_neg fun h => hany (htest.mp h), if_neg hany, usedRange_nil hany, List.append_nil]
    exact Reads.pure _

theorem reading_foldlM (marked : ℕ → Bool) (is : List ℕ) (his : ∀ i ∈ is, i < 16)
    (symToByte : List ℕ) :
    Reading (is.foldlM (symbolRange (value ((List.range 16).map fun i =>
      (rangeBits marked i).any id))) symToByte)
      (is.flatMap fun i => if (rangeBits marked i).any id then rangeBits marked i else [])
      (symToByte ++ is.flatMap (usedRange marked)) := by
  induction is generalizing symToByte with
  | nil =>
    rw [List.flatMap_nil, List.flatMap_nil, List.append_nil]
    exact Reads.pure _
  | cons i is ih =>
    rw [List.flatMap_cons, List.flatMap_cons, List.foldlM_cons, ← List.append_assoc]
    exact (reading_symbolRange marked symToByte (his i List.mem_cons_self)).bind
      (ih (fun j hj => his j (List.mem_cons_of_mem i hj)) _)

theorem reading_symbolMap (marked : ℕ → Bool) :
    Reading symbolMap (encodeMap marked) (used marked) := by
  have hread := reading_value (l := (List.range 16).map fun i => (rangeBits marked i).any id)
    (by rw [List.length_map, List.length_range]; norm_num)
  rw [List.length_map, List.length_range] at hread
  have hfold := reading_foldlM marked (List.range 16) (fun i hi => List.mem_range.mp hi) []
  rw [List.nil_append, ← used_eq] at hfold
  exact hread.bind hfold

end Used

section Selectors

variable (groupCount : ℕ)

def encodeSelectors : List ℕ → List ℕ → List Bool
  | _, [] => []
  | table, i :: selectors =>
    let j := table.idxOf i
    List.replicate j true ++ [false] ++ encodeSelectors (i :: table.eraseIdx j) selectors

theorem reading_bit (b : Bool) : Reading (bits 1) [b] b.toNat := by
  have h := reading_value (l := [b]) (by norm_num)
  cases b <;> exact h

theorem reading_selectorIndex (k : ℕ) : ∀ j, j + k ≤ groupCount →
    Reading (selectorIndex groupCount j) (List.replicate k true ++ [false]) (j + k) := by
  induction k with
  | zero =>
    intro j _
    rw [selectorIndex]
    exact (reading_bit false).bind_pure (Reads.pure _)
  | succ k ih =>
    intro j hj
    rw [selectorIndex, List.replicate_succ, List.cons_append, ← List.singleton_append]
    refine (reading_bit true).bind ?_
    rw [if_neg (by decide), dif_neg (by omega), show j + (k + 1) = j + 1 + k by omega]
    exact ih (j + 1) (by omega)

theorem reading_readSelectors (selectors table : List ℕ) (htable : table.length ≤ groupCount)
    (h : ∀ i ∈ selectors, i ∈ table) :
    Reading (readSelectors groupCount selectors.length (table.map some))
      (encodeSelectors table selectors) selectors := by
  induction selectors generalizing table with
  | nil => exact Reads.pure _
  | cons i selectors ih =>
    have hi := h i List.mem_cons_self
    have hlt := List.idxOf_lt_length_of_mem hi
    rw [List.length_cons, readSelectors, encodeSelectors]
    have hindex := reading_selectorIndex groupCount (table.idxOf i) 0 (by omega)
    rw [Nat.zero_add] at hindex
    refine hindex.bind ?_
    have huc : ((table.map some)[table.idxOf i]?).join = some i := by
      rw [List.getElem?_map, List.getElem?_eq_getElem hlt, List.getElem_idxOf]
      rfl
    have hmoved : some i :: (table.map some).eraseIdx (table.idxOf i) =
        (i :: table.eraseIdx (table.idxOf i)).map some := by
      rw [List.map_cons, List.eraseIdx_map]
    dsimp only
    rw [huc, hmoved]
    refine Reads.bind_pure (ih _ ?_ fun k hk => ?_) (Reads.pure _)
    · rwa [MoveToFront.length_toFront hi]
    · exact MoveToFront.mem_toFront (h k (List.mem_cons_of_mem i hk))

end Selectors

section Lengths

def encodeStep (t l : ℕ) : List Bool :=
  (List.replicate (l - t) [true, false]).flatten ++
    (List.replicate (t - l) [true, true]).flatten ++ [false]

def encodeLengths : ℕ → List ℕ → List Bool
  | _, [] => []
  | t, l :: lengths => encodeStep t l ++ encodeLengths l lengths

def encodeTable (lengths : List ℕ) : List Bool :=
  bigEndian 5 (lengths.headD 0) ++ encodeLengths (lengths.headD 0) lengths

theorem lengthLoop_eq {t : ℕ} (h1 : 1 ≤ t) (h20 : t ≤ 20) :
    (lengthLoop t : Bits ℕ) = bits 1 >>= fun more => if more = 0 then pure t else
      bits 1 >>= fun down => (lengthLoop (if down = 0 then t + 1 else t - 1) : Bits ℕ) := by
  funext r
  rw [lengthLoop, if_neg (by rw [MAX_HUFCODE_BITS]; omega)]
  split_ifs with hmore
  · have hrun : (bits 1 >>= fun more => if more = 0 then pure t else
        bits 1 >>= fun down => (lengthLoop (if down = 0 then t + 1 else t - 1) : Bits ℕ)) r =
        (if (r.read 1).1 = 0 then pure t else
          bits 1 >>= fun down => (lengthLoop (if down = 0 then t + 1 else t - 1) : Bits ℕ) :
            Bits ℕ) (r.read 1).2 := rfl
    rw [hrun, if_pos hmore]
    rfl
  · have hrun : (bits 1 >>= fun more => if more = 0 then pure t else
        bits 1 >>= fun down => (lengthLoop (if down = 0 then t + 1 else t - 1) : Bits ℕ)) r =
        (if (r.read 1).1 = 0 then pure t else
          bits 1 >>= fun down => (lengthLoop (if down = 0 then t + 1 else t - 1) : Bits ℕ) :
            Bits ℕ) (r.read 1).2 := rfl
    rw [hrun, if_neg hmore]
    rfl

theorem reading_stop {t : ℕ} (h1 : 1 ≤ t) (h20 : t ≤ 20) :
    Reading (lengthLoop t : Bits ℕ) [false] t := by
  rw [lengthLoop_eq h1 h20]
  exact (reading_bit false).bind_pure (Reads.pure _)

theorem reading_up {t l : ℕ} {code : List Bool} (h1 : 1 ≤ t) (h20 : t ≤ 20)
    (h : Reading (lengthLoop (t + 1) : Bits ℕ) code l) :
    Reading (lengthLoop t : Bits ℕ) ([true, false] ++ code) l := by
  rw [lengthLoop_eq h1 h20, ← List.singleton_append, List.append_assoc]
  refine (reading_bit true).bind ?_
  exact (reading_bit false).bind h

theorem reading_down {t l : ℕ} {code : List Bool} (h1 : 1 ≤ t) (h20 : t ≤ 20)
    (h : Reading (lengthLoop (t - 1) : Bits ℕ) code l) :
    Reading (lengthLoop t : Bits ℕ) ([true, true] ++ code) l := by
  rw [lengthLoop_eq h1 h20, ← List.singleton_append, List.append_assoc]
  refine (reading_bit true).bind ?_
  exact (reading_bit true).bind h

theorem reading_encodeStep {t l : ℕ} (ht : 1 ≤ t ∧ t ≤ 20) (hl : 1 ≤ l ∧ l ≤ 20) :
    Reading (lengthLoop t : Bits ℕ) (encodeStep t l) l := by
  rcases Nat.le_total t l with hle | hle
  · obtain ⟨k, rfl⟩ := Nat.exists_eq_add_of_le hle
    rw [encodeStep, Nat.add_sub_cancel_left, Nat.sub_eq_zero_of_le hle, List.replicate_zero,
      List.flatten_nil, List.append_nil]
    induction k generalizing t with
    | zero => exact reading_stop ht.1 ht.2
    | succ k ih =>
      rw [List.replicate_succ, List.flatten_cons, List.append_assoc]
      refine reading_up ht.1 ht.2 ?_
      rw [Nat.add_comm k 1, ← Nat.add_assoc] at hl hle ⊢
      exact ih (by omega) hl (by omega)
  · obtain ⟨k, rfl⟩ := Nat.exists_eq_add_of_le hle
    rw [encodeStep, Nat.add_sub_cancel_left, Nat.sub_eq_zero_of_le hle, List.replicate_zero,
      List.flatten_nil, List.nil_append]
    induction k with
    | zero => exact reading_stop ht.1 ht.2
    | succ k ih =>
      rw [List.replicate_succ, List.flatten_cons, List.append_assoc]
      refine reading_down ht.1 ht.2 ?_
      rw [← Nat.add_assoc, Nat.add_sub_cancel]
      exact ih (by omega) (by omega)

theorem reading_codeLengths (lengths : List ℕ) {t : ℕ} (ht : 1 ≤ t ∧ t ≤ 20)
    (h : ∀ l ∈ lengths, 1 ≤ l ∧ l ≤ 20) :
    Reading (codeLengths lengths.length t) (encodeLengths t lengths) lengths := by
  induction lengths generalizing t with
  | nil => exact Reads.pure _
  | cons l lengths ih =>
    have hl := h l List.mem_cons_self
    rw [List.length_cons, codeLengths, encodeLengths]
    refine (reading_encodeStep ht hl).bind ?_
    exact (ih hl fun k hk => h k (List.mem_cons_of_mem l hk)).bind_pure (Reads.pure _)

theorem reading_readGroups {n : ℕ} (tables : List (List ℕ))
    (h : ∀ lengths ∈ tables, lengths.length = n ∧ lengths ≠ [] ∧ ∀ l ∈ lengths, 1 ≤ l ∧ l ≤ 20) :
    Reading (readGroups n tables.length) (tables.flatMap encodeTable) (tables.map hufGroup) := by
  induction tables with
  | nil => exact Reads.pure _
  | cons lengths tables ih =>
    obtain ⟨hn, hne, hl⟩ := h lengths List.mem_cons_self
    obtain ⟨l, rest, rfl⟩ := List.exists_cons_of_ne_nil hne
    have hstart := hl l List.mem_cons_self
    have hbits := reading_bits (n := 5) (by norm_num) l
    rw [Nat.mod_eq_of_lt (by omega)] at hbits
    rw [List.length_cons, readGroups, List.flatMap_cons, encodeTable, List.headD_cons,
      List.append_assoc]
    refine hbits.bind ?_
    rw [← hn]
    refine (reading_codeLengths (l :: rest) hstart hl).bind ?_
    rw [hn]
    exact (ih fun k hk => h k (List.mem_cons_of_mem _ hk)).bind_pure (Reads.pure _)

end Lengths

end XWebQL.Bzip2Fields
