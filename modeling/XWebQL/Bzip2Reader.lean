import XWebQL.BitStream
import Mathlib.Tactic.IntervalCases

/-! `bzip2.array`, the reader of the decoder.
A read takes the rest of the current byte, then whole bytes, then the start of
one more. Past the last byte it goes on with zeros. -/

namespace XWebQL.Bzip2Reader

open BitStream

/-- The closure over `bytes`, `byte` and `bit`. -/
structure Reader where
  bytes : List UInt8
  byte : ℕ
  bit : ℕ
  bit_lt : bit < 8

def array (bytes : List UInt8) : Reader := ⟨bytes, 0, 0, by norm_num⟩

def BITMASK : List ℕ := [0, 0x01, 0x03, 0x07, 0x0F, 0x1F, 0x3F, 0x7F, 0xFF]

/-- `bytes[i]` as an operand of a bitwise operator. -/
def byteAt (bytes : List UInt8) (i : ℕ) : ℕ := (bytes[i]?.map UInt8.toNat).getD 0

def shiftLeft (x n : ℕ) : ℕ := x <<< n % 2 ^ 32

/-- The `while` loop of a read of `n` more bits. -/
def readLoop (n result : ℕ) (r : Reader) : ℕ × Reader :=
  if hn : n = 0 then (result, r)
  else
    let left := 8 - r.bit
    if hleft : left ≤ n then
      readLoop (n - left)
        (shiftLeft result left ||| (BITMASK.getD left 0 &&& byteAt r.bytes r.byte))
        { r with byte := r.byte + 1, bit := 0, bit_lt := by norm_num }
    else
      (shiftLeft result n |||
          (byteAt r.bytes r.byte &&& BITMASK.getD n 0 <<< (8 - n - r.bit)) >>> (8 - n - r.bit),
        { r with bit := r.bit + n, bit_lt := by omega })
termination_by n
decreasing_by
  have := r.bit_lt
  omega

namespace Reader

def read (n : ℕ) (r : Reader) : ℕ × Reader := readLoop n 0 r

def rest (r : Reader) : List Bool := (unpack r.bytes).drop (8 * r.byte + r.bit)

def left (r : Reader) : ℕ := 8 * r.bytes.length - (8 * r.byte + r.bit)

end Reader

theorem rest_array (bytes : List UInt8) : (array bytes).rest = unpack bytes := rfl

theorem length_rest (r : Reader) : r.rest.length = r.left := by
  rw [Reader.rest, List.length_drop, length_unpack, Reader.left]

theorem BITMASK_eq {n : ℕ} (hn : n ≤ 8) : BITMASK.getD n 0 = 2 ^ n - 1 := by
  interval_cases n <;> rfl

theorem mask_and {n : ℕ} (hn : n ≤ 8) (b : ℕ) : BITMASK.getD n 0 &&& b = b % 2 ^ n := by
  rw [BITMASK_eq hn, Nat.and_comm, Nat.and_two_pow_sub_one_eq_mod]

/-- The mask in front of the shift takes `n` bits out of the middle of the byte. -/
theorem and_mask_shift {n : ℕ} (hn : n ≤ 8) (b k : ℕ) :
    (b &&& BITMASK.getD n 0 <<< k) >>> k = b / 2 ^ k % 2 ^ n := by
  rw [Nat.shiftRight_and_distrib, Nat.shiftLeft_shiftRight, BITMASK_eq hn,
    Nat.and_two_pow_sub_one_eq_mod, Nat.shiftRight_eq_div_pow]

theorem shiftLeft_or {x n y : ℕ} (hx : x * 2 ^ n < 2 ^ 32) (hy : y < 2 ^ n) :
    shiftLeft x n ||| y = x * 2 ^ n + y := by
  rw [shiftLeft, Nat.shiftLeft_eq, Nat.mod_eq_of_lt hx, ← Nat.shiftLeft_eq,
    ← Nat.shiftLeft_add_eq_or_of_lt hy, Nat.shiftLeft_eq]

theorem drop_unpack (bytes : List UInt8) {i : ℕ} (hi : i < bytes.length) :
    (unpack bytes).drop (8 * i) =
      bigEndian 8 (byteAt bytes i) ++ (unpack bytes).drop (8 * (i + 1)) := by
  induction bytes generalizing i with
  | nil => exact absurd hi (Nat.not_lt_zero _)
  | cons b bytes ih =>
    have hcons : unpack (b :: bytes) = bigEndian 8 b.toNat ++ unpack bytes := by
      rw [unpack, List.flatMap_cons, unpack]
    rw [hcons]
    cases i with
    | zero =>
      rw [Nat.mul_zero, List.drop_zero, Nat.zero_add, List.drop_left' (length_bigEndian 8 _)]
      rfl
    | succ i =>
      have hdrop : ∀ k, (bigEndian 8 b.toNat ++ unpack bytes).drop (8 * (k + 1)) =
          (unpack bytes).drop (8 * k) := by
        intro k
        rw [Nat.mul_succ, Nat.add_comm, ← List.drop_drop, List.drop_left' (length_bigEndian 8 _)]
      rw [hdrop, hdrop, ih (Nat.lt_of_succ_lt_succ hi)]
      rfl

theorem rest_eq {r : Reader} (h : r.byte < r.bytes.length) :
    r.rest = bigEndian (8 - r.bit) (byteAt r.bytes r.byte) ++
      (unpack r.bytes).drop (8 * (r.byte + 1)) := by
  have hbit := r.bit_lt
  obtain ⟨k, hk⟩ := Nat.exists_eq_add_of_lt hbit
  rw [Reader.rest, ← List.drop_drop, drop_unpack _ h, List.drop_append_of_le_length
    (by rw [length_bigEndian]; omega)]
  congr 1
  rw [show 8 - r.bit = k + 1 by omega, show 8 = r.bit + (k + 1) by omega, drop_bigEndian]

theorem rest_skip (r : Reader) (n : ℕ) (h : r.bit + n < 8) :
    Reader.rest { r with bit := r.bit + n, bit_lt := h } = r.rest.drop n := by
  rw [Reader.rest, Reader.rest, List.drop_drop, Nat.add_assoc]

theorem byte_lt {r : Reader} {n v : ℕ} {tail : List Bool} (hn : n ≠ 0)
    (h : r.rest = bigEndian n v ++ tail) : r.byte < r.bytes.length := by
  have hlen := congrArg List.length h
  rw [length_rest, Reader.left, List.length_append, length_bigEndian] at hlen
  omega

theorem mod_two_pow_add (k n v : ℕ) :
    v % 2 ^ (k + n) = v / 2 ^ k % 2 ^ n * 2 ^ k + v % 2 ^ k := by
  rw [pow_add, Nat.mod_mul]
  ring

theorem room {x n : ℕ} {bound : ℕ} (h : (x + 1) * 2 ^ n ≤ bound) :
    x * 2 ^ n < bound := by
  have hpos := Nat.two_pow_pos n
  have hexpand : (x + 1) * 2 ^ n = x * 2 ^ n + 2 ^ n := by ring
  omega

theorem readLoop_eq (n : ℕ) : ∀ (result v : ℕ) (r : Reader) (tail : List Bool),
    r.rest = bigEndian n v ++ tail → (result + 1) * 2 ^ n ≤ 2 ^ 32 →
    ∃ r', readLoop n result r = (result * 2 ^ n + v % 2 ^ n, r') ∧ r'.rest = tail := by
  induction n using Nat.strong_induction_on with
  | _ n ih =>
    intro result v r tail hread hbound
    rw [readLoop]
    by_cases hn : n = 0
    · subst hn
      exact ⟨r, by simp [Nat.mod_one], hread⟩
    · have hbit := r.bit_lt
      have hrest := hread
      rw [rest_eq (byte_lt hn hread)] at hrest
      simp only [hn, ↓reduceDIte]
      split_ifs with hleft
      · -- the rest of the byte is used up
        obtain ⟨k, rfl⟩ := Nat.exists_eq_add_of_le hleft
        rw [bigEndian_add, List.append_assoc] at hrest
        have hparts := List.append_inj hrest (by rw [length_bigEndian, length_bigEndian])
        have hvalue := bigEndian_injective hparts.1
        have hlow := Nat.mod_lt (byteAt r.bytes r.byte) (Nat.two_pow_pos (8 - r.bit))
        have hfits : (result + 1) * 2 ^ (8 - r.bit) * 2 ^ k ≤ 2 ^ 32 := by
          rwa [Nat.mul_assoc, ← pow_add]
        have hbyte : (result + 1) * 2 ^ (8 - r.bit) ≤ 2 ^ 32 :=
          (Nat.le_mul_of_pos_right _ (Nat.two_pow_pos k)).trans hfits
        have hnext : (result * 2 ^ (8 - r.bit) + byteAt r.bytes r.byte % 2 ^ (8 - r.bit) + 1) *
            2 ^ k ≤ 2 ^ 32 := by
          refine le_trans (Nat.mul_le_mul_right _ ?_) hfits
          rw [Nat.add_mul, Nat.one_mul]
          omega
        rw [mask_and (by omega), shiftLeft_or (room hbyte) hlow]
        obtain ⟨r', hloop, htail⟩ := ih k (by omega) _ v
          { r with byte := r.byte + 1, bit := 0, bit_lt := by norm_num } tail hparts.2 hnext
        refine ⟨r', ?_, htail⟩
        rw [Nat.add_sub_cancel_left, hloop, hvalue, Nat.add_comm (8 - r.bit), mod_two_pow_add,
          pow_add]
        congr 1
        ring
      · -- the read ends inside the byte
        obtain ⟨k, hk⟩ := Nat.exists_eq_add_of_lt (Nat.lt_of_not_le hleft)
        have hshift : 8 - n - r.bit = k + 1 := by omega
        rw [hk, Nat.add_assoc, bigEndian_add, List.append_assoc] at hrest
        have hparts := List.append_inj hrest (by rw [length_bigEndian, length_bigEndian])
        have hvalue := bigEndian_injective hparts.1
        have hlow := Nat.mod_lt (byteAt r.bytes r.byte / 2 ^ (k + 1)) (Nat.two_pow_pos n)
        refine ⟨{ r with bit := r.bit + n, bit_lt := by omega }, ?_, ?_⟩
        · rw [hshift, and_mask_shift (by omega), shiftLeft_or (room hbound) hlow, hvalue]
        · rw [rest_skip, hread, List.drop_left' (length_bigEndian _ _)]

theorem read_eq {n v : ℕ} {r : Reader} {tail : List Bool} (hn : n ≤ 32)
    (h : r.rest = bigEndian n v ++ tail) :
    ∃ r', r.read n = (v % 2 ^ n, r') ∧ r'.rest = tail := by
  have hbound : (0 + 1) * 2 ^ n ≤ 2 ^ 32 := by
    rw [Nat.one_mul]
    exact Nat.pow_le_pow_right Nat.two_pos hn
  obtain ⟨r', hread, hrest⟩ := readLoop_eq n 0 v r tail h hbound
  rw [Nat.zero_mul, Nat.zero_add] at hread
  exact ⟨r', hread, hrest⟩

theorem left_readLoop (n : ℕ) : ∀ (result : ℕ) (r : Reader),
    (readLoop n result r).2.left = r.left - n := by
  induction n using Nat.strong_induction_on with
  | _ n ih =>
    intro result r
    rw [readLoop]
    by_cases hn : n = 0
    · simp [hn]
    · have hbit := r.bit_lt
      simp only [hn, ↓reduceDIte]
      split_ifs with hleft
      · rw [ih _ (by omega), Reader.left, Reader.left]
        dsimp only
        omega
      · rw [Reader.left, Reader.left]
        dsimp only
        omega

theorem left_read (n : ℕ) (r : Reader) : (r.read n).2.left = r.left - n := left_readLoop n 0 r

theorem readLoop_eq_zero (n : ℕ) : ∀ (r : Reader), r.left = 0 → (readLoop n 0 r).1 = 0 := by
  induction n using Nat.strong_induction_on with
  | _ n ih =>
    intro r h
    have hbit := r.bit_lt
    have hbyte : byteAt r.bytes r.byte = 0 := by
      rw [Reader.left] at h
      rw [byteAt, List.getElem?_eq_none (by omega)]
      rfl
    rw [readLoop]
    by_cases hn : n = 0
    · simp [hn]
    · simp only [hn, ↓reduceDIte, hbyte]
      split_ifs with hleft
      · have hzero : shiftLeft 0 (8 - r.bit) ||| (BITMASK.getD (8 - r.bit) 0 &&& 0) = 0 := by
          simp [shiftLeft]
        rw [hzero]
        refine ih _ (by omega) _ ?_
        rw [Reader.left] at h ⊢
        dsimp only
        omega
      · simp [shiftLeft]

theorem read_eq_zero {r : Reader} (h : r.left = 0) (n : ℕ) : (r.read n).1 = 0 :=
  readLoop_eq_zero n r h

end XWebQL.Bzip2Reader
