import XWebQL.Bzip2Decoder
import XWebQL.BucketSort
import XWebQL.PrefixCode

/-! The code tables of a block.
The decoder reads a canonical code back where its arrays hold the limits: they have
no element for codes of twenty bits, and a length that 256 codes share is counted
as if it had none. -/

namespace XWebQL.Bzip2Tables

open BitStream Bzip2Reader Bzip2Decoder PrefixCode BucketSort

/-- Reading from a `Reader`. -/
abbrev Reading {α : Type} (op : Bits α) (code : List Bool) (x : α) : Prop :=
  Reads Reader.rest op code x

theorem reading_bits {n : ℕ} (hn : n ≤ 32) (v : ℕ) :
    Reading (bits n) (bigEndian n v) (v % 2 ^ n) := by
  intro r tail h
  obtain ⟨r', hread, hrest⟩ := read_eq hn h
  refine ⟨r', ?_, hrest⟩
  rw [← hread]
  rfl

section Bounds

variable {length : List ℕ} {i l : ℕ}

theorem widen_spec {b : ℕ × ℕ} (hb : b.1 ≤ b.2) (l : ℕ) :
    ((widen b l).1 = b.1 ∨ (widen b l).1 = l) ∧ ((widen b l).2 = b.2 ∨ (widen b l).2 = l) ∧
      (widen b l).1 ≤ b.1 ∧ b.2 ≤ (widen b l).2 ∧ (widen b l).1 ≤ l ∧ l ≤ (widen b l).2 := by
  rw [widen]
  split_ifs with hhi hlo
  · exact ⟨Or.inl rfl, Or.inr rfl, le_rfl, hhi.le, hb.trans hhi.le, le_rfl⟩
  · exact ⟨Or.inr rfl, Or.inl rfl, hlo.le, le_rfl, le_rfl, Nat.le_of_not_lt hhi⟩
  · exact ⟨Or.inl rfl, Or.inl rfl, le_rfl, le_rfl, Nat.le_of_not_lt hlo, Nat.le_of_not_lt hhi⟩

theorem foldl_widen (rest : List ℕ) (b : ℕ × ℕ) (hb : b.1 ≤ b.2) :
    ((rest.foldl widen b).1 = b.1 ∨ (rest.foldl widen b).1 ∈ rest) ∧
      ((rest.foldl widen b).2 = b.2 ∨ (rest.foldl widen b).2 ∈ rest) ∧
      (rest.foldl widen b).1 ≤ b.1 ∧ b.2 ≤ (rest.foldl widen b).2 ∧
      ∀ l ∈ rest, (rest.foldl widen b).1 ≤ l ∧ l ≤ (rest.foldl widen b).2 := by
  induction rest generalizing b with
  | nil => simp
  | cons l rest ih =>
    obtain ⟨hlo, hhi, hle, hge, hlol, hlhi⟩ := widen_spec hb l
    obtain ⟨ihlo, ihhi, ihle, ihge, ihmem⟩ := ih (widen b l) (hle.trans (hb.trans hge))
    rw [List.foldl_cons]
    refine ⟨?_, ?_, ihle.trans hle, hge.trans ihge, ?_⟩
    · rcases ihlo with h | h
      · rw [h, List.mem_cons]
        exact hlo.imp_right Or.inl
      · exact Or.inr (List.mem_cons_of_mem l h)
    · rcases ihhi with h | h
      · rw [h, List.mem_cons]
        exact hhi.imp_right Or.inl
      · exact Or.inr (List.mem_cons_of_mem l h)
    · exact List.forall_mem_cons.mpr ⟨⟨ihle.trans hlol, hlhi.trans ihge⟩, ihmem⟩

theorem lengthBounds_mem (hne : length ≠ []) :
    (lengthBounds length).1 ∈ length ∧ (lengthBounds length).2 ∈ length := by
  cases length with
  | nil => exact absurd rfl hne
  | cons l length =>
    have h := foldl_widen length (l, l) le_rfl
    simp only [lengthBounds, List.drop_one, List.tail_cons, List.headD_cons, List.mem_cons]
    exact ⟨h.1, h.2.1⟩

theorem lengthBounds_le (hl : l ∈ length) :
    (lengthBounds length).1 ≤ l ∧ l ≤ (lengthBounds length).2 := by
  cases length with
  | nil => exact absurd hl List.not_mem_nil
  | cons a length =>
    have h := foldl_widen length (a, a) le_rfl
    simp only [lengthBounds, List.drop_one, List.tail_cons, List.headD_cons]
    rcases List.mem_cons.mp hl with rfl | hl
    · exact ⟨h.2.2.1, h.2.2.2.1⟩
    · exact h.2.2.2.2 l hl

end Bounds

section Limits

variable {temp : ℕ → ℕ} {lo k i : ℕ}

/-- The loop over `k` lengths from `lo` on. -/
def limits (temp : ℕ → ℕ) (lo k : ℕ) : Limits :=
  (List.range' lo k).foldl (Limits.next temp)
    ⟨0, 0, List.replicate MAX_HUFCODE_BITS 0, List.replicate MAX_HUFCODE_BITS 0⟩

theorem limits_succ (temp : ℕ → ℕ) (lo k : ℕ) :
    limits temp lo (k + 1) = (limits temp lo k).next temp (lo + k) := by
  rw [limits, List.range'_concat, List.foldl_append, Nat.one_mul]
  rfl

theorem limits_spec (h0 : ∀ j < lo, temp j = 0) (k : ℕ) :
    (limits temp lo k).pp = first temp (lo + k) ∧ (limits temp lo k).t = below temp (lo + k) ∧
      (limits temp lo k).limit.length = 20 ∧ (limits temp lo k).base.length = 20 := by
  induction k with
  | zero =>
    rw [Nat.add_zero, first_eq_zero h0, below_eq_zero h0]
    exact ⟨rfl, rfl, rfl, rfl⟩
  | succ k ih =>
    obtain ⟨hpp, ht, hlimit, hbase⟩ := ih
    rw [limits_succ]
    refine ⟨?_, ?_, ?_, ?_⟩
    · rw [Limits.next, hpp, ← Nat.add_assoc, first]
    · rw [Limits.next, ht, ← Nat.add_assoc, below]
    · rw [Limits.next, List.length_set, hlimit]
    · rw [Limits.next, List.length_set, hbase]

theorem limits_limit (h0 : ∀ j < lo, temp j = 0) (hlo : lo ≤ i) (hi : i < lo + k) (h20 : i < 20) :
    (limits temp lo k).limit[i]? = some (uint32 ((first temp i + temp i : ℕ) - 1)) := by
  induction k with
  | zero => omega
  | succ k ih =>
    obtain ⟨hpp, -, hlimit, -⟩ := limits_spec h0 k
    rw [limits_succ, Limits.next, hpp]
    dsimp only
    by_cases hlast : i = lo + k
    · rw [hlast, List.getElem?_set_self (by omega)]
    · rw [List.getElem?_set_ne (by omega), ih (by omega)]

theorem limits_base (h0 : ∀ j < lo, temp j = 0) (hlo : lo < i) (hi : i ≤ lo + k) (h20 : i < 20) :
    (limits temp lo k).base[i]? = some (uint32 ((first temp i : ℕ) - (below temp i : ℕ))) := by
  induction k with
  | zero => omega
  | succ k ih =>
    obtain ⟨hpp, ht, -, hbase⟩ := limits_spec h0 k
    rw [limits_succ, Limits.next, hpp, ht]
    dsimp only
    by_cases hlast : i = lo + k + 1
    · rw [hlast, List.getElem?_set_self (by omega), first, below]
    · rw [List.getElem?_set_ne (by omega), ih (by omega)]

end Limits

section Group

variable {length : List ℕ} {i : ℕ}

theorem temp_eq_zero (length : List ℕ) : ∀ i < (lengthBounds length).1, temp length i = 0 := by
  intro i h
  have hnone : i ∉ length := fun hmem => absurd (lengthBounds_le hmem).1 (by omega)
  rw [temp, List.count_eq_zero_of_not_mem hnone]

theorem length_limit (length : List ℕ) : (hufGroup length).limit.length = 20 := by
  have h := limits_spec (temp_eq_zero length)
    ((lengthBounds length).2 - (lengthBounds length).1)
  simp only [hufGroup, List.length_set]
  exact h.2.2.1

theorem length_base (length : List ℕ) : (hufGroup length).base.length = 20 := by
  have h := limits_spec (temp_eq_zero length)
    ((lengthBounds length).2 - (lengthBounds length).1)
  simp only [hufGroup, List.length_set]
  exact h.2.2.2

theorem hufGroup_limit (hlo : (lengthBounds length).1 ≤ i) (hhi : i ≤ (lengthBounds length).2)
    (h20 : i < 20) : (hufGroup length).limit[i]? =
      some (uint32 ((first (temp length) i + temp length i : ℕ) - 1)) := by
  have h0 := temp_eq_zero length
  obtain ⟨hpp, -, hlimit, -⟩ := limits_spec h0 ((lengthBounds length).2 - (lengthBounds length).1)
  rw [Nat.add_sub_cancel' (by omega)] at hpp
  have hdef : (hufGroup length).limit =
      (limits (temp length) (lengthBounds length).1
        ((lengthBounds length).2 - (lengthBounds length).1)).limit.set (lengthBounds length).2
        (uint32 ((first (temp length) (lengthBounds length).2 +
          temp length (lengthBounds length).2 : ℕ) - 1)) := by
    rw [← hpp]
    rfl
  rw [hdef]
  rcases Nat.lt_or_eq_of_le hhi with hlt | rfl
  · rw [List.getElem?_set_ne (by omega), limits_limit h0 hlo (by omega) h20]
  · rw [List.getElem?_set_self (by omega)]

theorem hufGroup_base (hlo : (lengthBounds length).1 ≤ i) (hhi : i ≤ (lengthBounds length).2)
    (h20 : i < 20) : (hufGroup length).base[i]? =
      some (uint32 ((first (temp length) i : ℕ) - (below (temp length) i : ℕ))) := by
  have h0 := temp_eq_zero length
  have hbase := (limits_spec h0 ((lengthBounds length).2 - (lengthBounds length).1)).2.2.2
  have hdef : (hufGroup length).base =
      (limits (temp length) (lengthBounds length).1
        ((lengthBounds length).2 - (lengthBounds length).1)).base.set (lengthBounds length).1 0 :=
    rfl
  rw [hdef]
  rcases Nat.lt_or_eq_of_le hlo with hlt | rfl
  · rw [List.getElem?_set_ne (by omega), limits_base h0 hlt (by omega) h20]
  · rw [List.getElem?_set_self (by omega), first_eq_zero h0, below_eq_zero h0]
    rfl

theorem map_getD_range {s : ℕ} (hs : s ≤ length.length) :
    (List.range s).map (fun t => length.getD t 0) = length.take s := by
  refine List.ext_getElem ?_ fun t ht _ => ?_
  · rw [List.length_map, List.length_range, List.length_take_of_le hs]
  · rw [List.length_map, List.length_range] at ht
    rw [List.getElem_map, List.getElem_range, List.getElem_take,
      List.getD_eq_getElem _ _ (by omega)]

theorem permute_place {s : ℕ} (hs : s < length.length) :
    (hufGroup length).permute[below length.count (length.getD s 0) +
      (length.take s).count (length.getD s 0)]? = some s := by
  have hsplit : List.range length.length =
      List.range s ++ s :: List.range' (s + 1) (length.length - s - 1) := by
    rw [List.range_eq_range', show length.length = s + (length.length - s - 1 + 1) by omega,
      ← List.range'_append_1, List.range'_succ, Nat.zero_add, List.range_eq_range']
    simp
  have hmem : length.getD s 0 ∈ length := by
    rw [List.getD_eq_getElem _ _ hs]
    exact List.getElem_mem hs
  have hbounds := lengthBounds_le hmem
  have hplace := buckets_place (fun t => length.getD t 0) (lengthBounds length).1
    ((lengthBounds length).2 + 1 - (lengthBounds length).1)
    hsplit (fun t ht => by
      rw [List.mem_range] at ht
      rw [List.getD_eq_getElem _ _ ht]
      exact (lengthBounds_le (List.getElem_mem ht)).1) (by omega)
  have hbelow : (List.range length.length).countP (fun t => length.getD t 0 < length.getD s 0) =
      below length.count (length.getD s 0) := by
    have hall := map_getD_range (le_refl length.length)
    rw [List.take_length] at hall
    have hcount := List.countP_map (p := fun l => decide (l < length.getD s 0))
      (f := fun t => length.getD t 0) (l := List.range length.length)
    rw [hall, countP_lt] at hcount
    exact hcount.symm
  have hrank : (List.range s).countP (fun t => length.getD t 0 = length.getD s 0) =
      (length.take s).count (length.getD s 0) := by
    rw [← map_getD_range hs.le, List.count, List.countP_map]
    refine List.countP_congr fun t _ => ?_
    simp
  rw [place, hbelow, hrank] at hplace
  have hlt := (List.getElem?_eq_some_iff.mp hplace).1
  have hdef : (hufGroup length).permute = buckets (fun t => length.getD t 0)
      (List.range length.length) (lengthBounds length).1
      ((lengthBounds length).2 + 1 - (lengthBounds length).1) ++
      List.replicate (MAX_SYMBOLS - (buckets (fun t => length.getD t 0)
      (List.range length.length) (lengthBounds length).1
      ((lengthBounds length).2 + 1 - (lengthBounds length).1)).length) 0 := rfl
  rw [hdef, List.getElem?_append_left hlt, hplace]

end Group

section Decoding

variable {g : HufGroup} {l v i j k s : ℕ}

theorem symbolLoop_accept (hmax : i ≤ g.maxLen) (h : g.limit[i]?.any (j ≤ ·) = true) :
    symbolLoop g i j = pure (i, j) := by
  rw [symbolLoop, dif_neg (by omega), if_pos h]

theorem symbolLoop_reject (hmax : i ≤ g.maxLen) (h : ¬ g.limit[i]?.any (j ≤ ·) = true) :
    symbolLoop g i j = bits 1 >>= fun b => symbolLoop g (i + 1) (j <<< 1 ||| b) := by
  rw [symbolLoop, dif_neg (by omega), if_neg h]

theorem shift_or_bit (v k : ℕ) :
    (v / 2 ^ (k + 1)) <<< 1 ||| v / 2 ^ k % 2 ^ 1 = v / 2 ^ k := by
  have hlow := Nat.mod_lt (v / 2 ^ k) (Nat.two_pow_pos 1)
  rw [← Nat.shiftLeft_add_eq_or_of_lt hlow, Nat.shiftLeft_eq, pow_succ, ← Nat.div_div_eq_div_mul,
    pow_one, Nat.div_add_mod']

/-- The loop takes a code whose first bits every shorter limit rejects. -/
theorem reading_symbolLoop (hmax : l ≤ g.maxLen) (haccept : g.limit[l]?.any (v ≤ ·) = true)
    (hreject : ∀ i, g.minLen ≤ i → i < l → ¬ g.limit[i]?.any (v / 2 ^ (l - i) ≤ ·) = true)
    (hi : i + k = l) (hmin : g.minLen ≤ i) :
    Reading (symbolLoop g i (v / 2 ^ k)) (bigEndian k v) (l, v) := by
  induction k generalizing i with
  | zero =>
    rw [Nat.add_zero] at hi
    subst hi
    rw [pow_zero, Nat.div_one, symbolLoop_accept hmax haccept]
    exact Reads.pure _
  | succ k ih =>
    have hthis := hreject i hmin (by omega)
    rw [show l - i = k + 1 by omega] at hthis
    rw [symbolLoop_reject (by omega) hthis, Nat.add_comm k 1, bigEndian_add, Nat.add_comm 1 k]
    have hnext := ih (i := i + 1) (by omega) (by omega)
    rw [← shift_or_bit] at hnext
    exact (reading_bits (by omega) _).bind hnext

theorem reading_nextSymbol {b : ℕ} (hmax : l ≤ g.maxLen) (hmin : g.minLen ≤ l) (h32 : g.minLen ≤ 32)
    (hv : v < 2 ^ l) (haccept : g.limit[l]?.any (v ≤ ·) = true)
    (hreject : ∀ i, g.minLen ≤ i → i < l → ¬ g.limit[i]?.any (v / 2 ^ (l - i) ≤ ·) = true)
    (hbase : g.base[l]? = some b) (hb : b ≤ v) (hsmall : v - b < 258)
    (hs : g.permute[v - b]? = some s) : Reading (nextSymbol g) (bigEndian l v) s := by
  obtain ⟨k, rfl⟩ := Nat.exists_eq_add_of_le hmin
  rw [bigEndian_add, nextSymbol]
  have hfirst := reading_bits h32 (v / 2 ^ k)
  rw [Nat.mod_eq_of_lt (by rwa [Nat.div_lt_iff_lt_mul (Nat.two_pow_pos k), ← pow_add])] at hfirst
  refine hfirst.bind ?_
  rw [← List.append_nil (bigEndian k v)]
  refine (reading_symbolLoop hmax haccept hreject rfl le_rfl).bind ?_
  refine Reads.lift_bind (x := b) ?_ ?_
  · rw [fetch, hbase]
    rfl
  · have hsmall' : ¬ ((v : ℤ) - b < 0 ∨ (MAX_SYMBOLS : ℤ) ≤ v - b) := by
      rw [MAX_SYMBOLS]
      omega
    dsimp only
    rw [if_neg hsmall', ← Int.ofNat_sub hb, Int.toNat_natCast]
    refine Reads.lift ?_
    rw [fetch, hs]
    rfl

end Decoding

section Codes

variable {length : List ℕ} {i s : ℕ}

/-- No code has the greatest length, and no 256 codes have one length, unless they
are all there are. -/
def Decodable (length : List ℕ) : Prop :=
  (∀ l ∈ length, l < MAX_HUFCODE_BITS) ∧
    ∀ i, length.count i < 256 ∨ length.count i = 256 ∧ length.length = 256

theorem uint32_natCast {n : ℕ} (h : n < 2 ^ 32) : uint32 n = n := by
  rw [uint32, Int.emod_eq_of_lt (by omega) (by exact_mod_cast h), Int.toNat_natCast]

theorem temp_eq_count (h : length.count i < 256) : temp length i = length.count i :=
  Nat.mod_eq_of_lt h

theorem one_le_first {j : ℕ} (hj : j ∈ length) (hlt : j < i) : 1 ≤ first length.count i := by
  have hfirst := first_add_le length.count hlt
  have hlow := List.count_pos_iff.mpr hj
  have hmul := Nat.le_mul_of_pos_right (first length.count j + length.count j)
    (Nat.two_pow_pos (i - j))
  omega

/-- The limit of `i` bits is the last code, or lies past all codes when no longer
code follows. -/
theorem exists_limit (hkraft : Kraft 20 length) (h : Decodable length) (hne : length ≠ [])
    (hlo : (lengthBounds length).1 ≤ i) (hhi : i ≤ (lengthBounds length).2) :
    ∃ lim, (hufGroup length).limit[i]? = some lim ∧
      first length.count i + length.count i ≤ lim + 1 ∧
      (i < (lengthBounds length).2 → lim + 1 = first length.count i + length.count i) ∧
      (hufGroup length).base[i]? = some (first length.count i - below length.count i) := by
  have hmem := lengthBounds_mem hne
  have h20 : i < 20 := hhi.trans_lt (h.1 _ hmem.2)
  have hroom := hkraft.first_add_count_le h20.le
  have hpow : 2 ^ i < 2 ^ 20 := Nat.pow_lt_pow_right (by omega) h20
  have hbelow := below_le_first length.count i
  by_cases hall : ∀ j, length.count j < 256
  · have htemp : ∀ j < i, temp length j = length.count j := fun j _ => temp_eq_count (hall j)
    have hpos : 1 ≤ first length.count i + length.count i := by
      rcases Nat.lt_or_eq_of_le hlo with hlt | rfl
      · exact Nat.le_add_right_of_le (one_le_first hmem.1 hlt)
      · exact Nat.le_add_left_of_le (List.count_pos_iff.mpr hmem.1)
    refine ⟨first length.count i + length.count i - 1, ?_, by omega, fun _ => by omega, ?_⟩
    · rw [hufGroup_limit hlo hhi h20, first_congr htemp, temp_eq_count (hall i),
        ← Nat.cast_one, ← Nat.cast_sub hpos, uint32_natCast (by omega)]
    · rw [hufGroup_base hlo hhi h20, first_congr htemp, below_congr htemp, ← Nat.cast_sub hbelow,
        uint32_natCast (by omega)]
  · -- all 256 codes have the length `j`, and the limit wraps around
    obtain ⟨j, hj⟩ := not_forall.mp hall
    have hcount := (h.2 j).resolve_left hj
    have heq : ∀ l ∈ length, j = l := List.count_eq_length.mp (hcount.1.trans hcount.2.symm)
    have hlo' := heq _ hmem.1
    have hhi' := heq _ hmem.2
    obtain rfl : i = j := by omega
    have hzero : ∀ k < i, length.count k = 0 := by
      intro k hk
      refine List.count_eq_zero_of_not_mem fun hmem => ?_
      have := heq k hmem
      omega
    have hzero' : ∀ k < i, temp length k = 0 := fun k hk => by rw [temp, hzero k hk]
    have hwrap : temp length i = 0 := by rw [temp, hcount.1]
    refine ⟨2 ^ 32 - 1, ?_, ?_, fun hlt => ?_, ?_⟩
    · rw [hufGroup_limit hlo hhi h20, first_eq_zero hzero', hwrap]
      rfl
    · rw [first_eq_zero hzero, hcount.1]
      norm_num
    · omega
    · rw [hufGroup_base hlo hhi h20, first_eq_zero hzero', below_eq_zero hzero',
        first_eq_zero hzero, below_eq_zero hzero]
      rfl

theorem reading_codeword (hkraft : Kraft 20 length) (h : Decodable length)
    (hlength : length.length ≤ MAX_SYMBOLS) (hs : s < length.length) :
    Reading (nextSymbol (hufGroup length)) (codeword length s) s := by
  have hne : length ≠ [] := List.ne_nil_of_length_pos (by omega)
  have hmem : length.getD s 0 ∈ length := by
    rw [List.getD_eq_getElem _ _ hs]
    exact List.getElem_mem hs
  have hbounds := lengthBounds_le hmem
  have hlow := (lengthBounds_le (lengthBounds_mem hne).1).1
  have h20 := h.1 _ hmem
  rw [MAX_HUFCODE_BITS] at h20
  rw [MAX_SYMBOLS] at hlength
  have hroom := hkraft.first_add_count_le h20.le
  have hcode := code_lt hs
  obtain ⟨lim, hlimit, hlim, -, hbase⟩ := exists_limit hkraft h hne hbounds.1 hbounds.2
  have hbelow := below_le_first length.count (length.getD s 0)
  have htotal := below_le_length length (length.getD s 0 + 1)
  rw [below] at htotal
  have hdiff : code length s - (first length.count (length.getD s 0) -
      below length.count (length.getD s 0)) =
      below length.count (length.getD s 0) + (length.take s).count (length.getD s 0) := by
    rw [code]
    omega
  have hrank : code length s = first length.count (length.getD s 0) +
      (length.take s).count (length.getD s 0) := rfl
  refine reading_nextSymbol hbounds.2 hbounds.1 ?_ (by omega) ?_ ?_ hbase (by omega) (by omega) ?_
  · exact (hbounds.1.trans h20.le).trans (by norm_num)
  · rw [hlimit]
    simp only [Option.any_some, decide_eq_true_eq]
    omega
  · intro i hmin hi
    obtain ⟨lim, hlimit, -, hexact, -⟩ := exists_limit hkraft h hne hmin (hi.le.trans hbounds.2)
    have hprefix := le_code_prefix hi
    have := hexact (hi.trans_le hbounds.2)
    rw [hlimit]
    simp only [Option.any_some, decide_eq_true_eq]
    omega
  · rw [hdiff]
    exact permute_place hs

end Codes

section Stopping

variable {g : HufGroup} {i j i' j' k v l s : ℕ} {r r' : Reader}

theorem symbolLoop_ok (h : (symbolLoop g i j).run r = .ok ((i', j'), r')) :
    (g.limit[i]?.any (j ≤ ·) = true ∧ i' = i ∧ j' = j ∧ r' = r) ∨
    (¬ g.limit[i]?.any (j ≤ ·) = true ∧ i < i' ∧
      (symbolLoop g (i + 1) (j <<< 1 ||| (r.read 1).1)).run (r.read 1).2 = .ok ((i', j'), r')) := by
  induction hn : g.maxLen + 1 - i generalizing i j r with
  | zero =>
    rw [symbolLoop, dif_pos (by omega)] at h
    cases h
  | succ n ih =>
    by_cases haccept : g.limit[i]?.any (j ≤ ·) = true
    · rw [symbolLoop_accept (by omega) haccept] at h
      cases h
      exact Or.inl ⟨haccept, rfl, rfl, rfl⟩
    · rw [symbolLoop_reject (by omega) haccept] at h
      have hnext : (symbolLoop g (i + 1) (j <<< 1 ||| (r.read 1).1)).run (r.read 1).2 =
          .ok ((i', j'), r') := h
      refine Or.inr ⟨haccept, ?_, hnext⟩
      rcases ih hnext (by omega) with ⟨-, rfl, -⟩ | ⟨-, hlt, -⟩
      · exact Nat.lt_succ_self i
      · omega

theorem symbolLoop_stop (h : (symbolLoop g i j).run r = .ok ((i', j'), r')) :
    i ≤ i' ∧ r'.left = r.left - (i' - i) ∧ g.limit[i']?.any (j' ≤ ·) = true := by
  induction hn : i' - i generalizing i j r with
  | zero =>
    rcases symbolLoop_ok h with ⟨haccept, rfl, rfl, rfl⟩ | ⟨-, hlt, -⟩
    · exact ⟨le_rfl, rfl, haccept⟩
    · omega
  | succ n ih =>
    rcases symbolLoop_ok h with ⟨-, rfl, -⟩ | ⟨-, -, hnext⟩
    · omega
    · obtain ⟨hle, hleft, haccept⟩ := ih hnext (by omega)
      rw [left_read] at hleft
      exact ⟨by omega, by omega, haccept⟩

theorem symbolLoop_value {tail : List Bool} (h : (symbolLoop g i j).run r = .ok ((i + k, j'), r'))
    (hrest : r.rest = bigEndian k v ++ tail) : j' = j * 2 ^ k + v % 2 ^ k := by
  induction k generalizing i j r with
  | zero =>
    rcases symbolLoop_ok h with ⟨-, -, rfl, -⟩ | ⟨-, hlt, -⟩
    · rw [pow_zero, Nat.mod_one, Nat.mul_one, Nat.add_zero]
    · exact absurd hlt (lt_irrefl _)
  | succ k ih =>
    rcases symbolLoop_ok h with ⟨-, hi, -⟩ | ⟨-, -, hnext⟩
    · omega
    · rw [Nat.add_comm k 1, bigEndian_add, List.append_assoc] at hrest
      obtain ⟨r1, hread, hr1⟩ := read_eq (by omega) hrest
      rw [hread, show i + (k + 1) = i + 1 + k by omega] at hnext
      have hlow := Nat.mod_lt (v / 2 ^ k) (Nat.two_pow_pos 1)
      rw [ih hnext hr1, ← Nat.shiftLeft_add_eq_or_of_lt hlow, Nat.shiftLeft_eq, mod_two_pow_add k 1]
      ring

/-- A code that is read to its end as a symbol ends at a limit that holds it, and
goes on past the limits that do not. -/
theorem accept_of_reading (h32 : g.minLen ≤ 32) (hlimit : g.limit.length = 20)
    (h : Reading (nextSymbol g) (bigEndian l v) s) :
    g.limit[l]?.any (v % 2 ^ l ≤ ·) = true ∧
      ((∀ j < 2 ^ g.minLen, g.limit[g.minLen]?.any (j ≤ ·) = true) → l = g.minLen) := by
  obtain ⟨k, hk⟩ := unpack_pack (bigEndian l v ++ List.replicate 32 false)
  have hrest : (array (pack (bigEndian l v ++ List.replicate 32 false))).rest =
      bigEndian l v ++ (List.replicate 32 false ++ List.replicate k false) := by
    rw [rest_array, hk, List.append_assoc]
  obtain ⟨r', hrun, hr'⟩ := h _ _ hrest
  generalize array (pack (bigEndian l v ++ List.replicate 32 false)) = r at hrest hrun
  have hleft := congrArg List.length hrest
  have hleft' := congrArg List.length hr'
  rw [length_rest, List.length_append, length_bigEndian] at hleft
  rw [length_rest] at hleft'
  rw [List.length_append, List.length_replicate, List.length_replicate] at hleft hleft'
  rw [nextSymbol] at hrun
  obtain ⟨j, r1, hbits, hafter⟩ := run_bind_ok hrun
  obtain ⟨⟨i', j'⟩, r2, hloop, hbase⟩ := run_bind_ok hafter
  obtain ⟨b, r3, hfetch, hlast⟩ := run_bind_ok hbase
  obtain ⟨-, rfl⟩ := run_lift_ok hfetch
  have hend : r' = r3 := by
    dsimp only at hlast
    split_ifs at hlast with hcow
    · obtain ⟨u, r4, hthrow, -⟩ := run_bind_ok hlast
      cases hthrow
    · exact (run_lift_ok hlast).2
  subst hend
  have hread : r.read g.minLen = (j, r1) := Except.ok.inj hbits
  have hr1 : r1.left = r.left - g.minLen := by
    rw [← left_read, hread]
  obtain ⟨hle, hconsumed, haccept⟩ := symbolLoop_stop hloop
  have h20 : i' < 20 := by
    rw [← hlimit]
    by_contra hge
    rw [List.getElem?_eq_none (by omega)] at haccept
    cases haccept
  obtain rfl : i' = l := by omega
  obtain ⟨k', rfl⟩ := Nat.exists_eq_add_of_le hle
  rw [bigEndian_add, List.append_assoc] at hrest
  obtain ⟨r2, hfirst, hr2⟩ := read_eq h32 hrest
  rw [hread] at hfirst
  cases hfirst
  refine ⟨?_, fun hall => ?_⟩
  · rwa [symbolLoop_value hloop hr2, ← mod_two_pow_add, Nat.add_comm k'] at haccept
  · rcases symbolLoop_ok hloop with ⟨-, hi, -⟩ | ⟨hreject, -⟩
    · exact hi
    · exact absurd (hall _ (Nat.mod_lt _ (Nat.two_pow_pos _))) hreject

end Stopping

section Exact

variable {length : List ℕ} {i s : ℕ}

theorem code_lt_two_pow (hkraft : Kraft 20 length) (hs : s < length.length) :
    code length s < 2 ^ length.getD s 0 := by
  have hmem : length.getD s 0 ∈ length := by
    rw [List.getD_eq_getElem _ _ hs]
    exact List.getElem_mem hs
  exact (code_lt hs).trans_le (hkraft.first_add_count_le (hkraft.1 _ hmem))

theorem minLen_le (hkraft : Kraft 20 length) (hne : length ≠ []) :
    (hufGroup length).minLen ≤ 32 :=
  (hkraft.1 _ (lengthBounds_mem hne).1).trans (by norm_num)

theorem count_add_count_le {j : ℕ} (hij : i ≠ j) :
    length.count i + length.count j ≤ length.length := by
  induction length with
  | nil => exact le_rfl
  | cons l length ih =>
    rw [List.count_cons, List.count_cons, List.length_cons]
    simp only [beq_iff_eq]
    split_ifs with hi hj
    · exact absurd (hi.symm.trans hj) hij
    · omega
    · omega
    · omega

/-- The decoder reads all codes of a table back exactly when the table is decodable. -/
theorem reading_codeword_iff (hkraft : Kraft 20 length) (hlength : length.length ≤ MAX_SYMBOLS) :
    (∀ s < length.length, Reading (nextSymbol (hufGroup length)) (codeword length s) s) ↔
      Decodable length := by
  refine ⟨fun h => ?_, fun h s hs => reading_codeword hkraft h hlength hs⟩
  rw [MAX_SYMBOLS] at hlength
  have haccept : ∀ s < length.length, _ := fun s hs => accept_of_reading
    (minLen_le hkraft (List.ne_nil_of_length_pos (Nat.zero_lt_of_lt hs))) (length_limit length)
    (h s hs)
  have hshort : ∀ l ∈ length, l < 20 := by
    intro l hl
    obtain ⟨s, hs, hget, -⟩ := exists_last_code hl
    by_contra hge
    have hnone : (hufGroup length).limit[length.getD s 0]? = none := by
      rw [List.getElem?_eq_none]
      rw [length_limit]
      omega
    have := (haccept s hs).1
    rw [hnone] at this
    cases this
  refine ⟨hshort, fun i => ?_⟩
  by_contra hnot
  have hcount : 256 ≤ length.count i := by omega
  have htotal := List.count_le_length (a := i) (l := length)
  have hmem : i ∈ length := List.count_pos_iff.mp (by omega)
  have hbounds := lengthBounds_le hmem
  have h20 := hshort i hmem
  have hcongr : first (temp length) i = first length.count i := by
    refine first_congr fun j hj => temp_eq_count ?_
    have hle : length.count j + length.count i ≤ length.length := count_add_count_le hj.ne
    omega
  have hlimit := hufGroup_limit hbounds.1 hbounds.2 h20
  have hroom := hkraft.first_add_count_le h20.le
  have hpow : 2 ^ i < 2 ^ 20 := Nat.pow_lt_pow_right (by omega) h20
  rw [hcongr] at hlimit
  have htemp : temp length i = length.count i - 256 := by
    rw [temp]
    omega
  by_cases hpos : 1 ≤ first length.count i + temp length i
  · -- the limit leaves out the last codes
    obtain ⟨s, hs, hget, hcode⟩ := exists_last_code hmem
    have hlast := (haccept s hs).1
    have hlt := code_lt_two_pow hkraft hs
    rw [hget] at hlt
    rw [hget, hlimit, ← Nat.cast_one, ← Nat.cast_sub hpos, uint32_natCast (by omega),
      Nat.mod_eq_of_lt hlt] at hlast
    simp only [Option.any_some, decide_eq_true_eq] at hlast
    omega
  · -- the limit takes any number for a code of `i` bits
    obtain ⟨l, hl, hne⟩ : ∃ l ∈ length, i ≠ l := by
      by_contra hall
      have := List.count_eq_length.mpr fun l hl => not_not.mp fun hne => hall ⟨l, hl, hne⟩
      omega
    obtain ⟨s, hs, hget, -⟩ := exists_last_code hl
    have hlo : (lengthBounds length).1 = i := by
      rcases Nat.lt_or_eq_of_le hbounds.1 with hlt | heq
      · have hfirst := one_le_first (lengthBounds_mem (List.ne_nil_of_mem hmem)).1 hlt
        omega
      · exact heq
    have hall : ∀ j < 2 ^ (hufGroup length).minLen,
        (hufGroup length).limit[(hufGroup length).minLen]?.any (j ≤ ·) = true := by
      intro j hj
      have hmin : (hufGroup length).minLen = i := hlo
      rw [hmin] at hj ⊢
      rw [hlimit, show first length.count i + temp length i = 0 by omega]
      simp only [Option.any_some, decide_eq_true_eq]
      exact (hj.trans hpow).le.trans (by decide)
    have hstop := (haccept s hs).2 hall
    rw [hget] at hstop
    exact hne (hlo.symm.trans hstop.symm)

/-- The codes of lengths one, two and three. -/
theorem reading_codeword_three :
    (∀ s < [1, 2, 3].length,
        Reading (nextSymbol (hufGroup [1, 2, 3])) (codeword [1, 2, 3] s) s) ↔
      Decodable [1, 2, 3] :=
  reading_codeword_iff (by simp [Kraft]) (by decide)

end Exact

end XWebQL.Bzip2Tables
