import Mathlib.Tactic.Ring
import XWebQL.FloatFormat

/-! The view of a browser on a block of bytes: unsigned words, lowest byte first,
and parts of the block. A read past the end throws, which is `none` here.
A 64-bit word becomes a double, which keeps 53 significant bits. -/

namespace XWebQL.DataView

/-- The number `n` in `k` bytes. -/
def littleEndian : ℕ → ℕ → List UInt8
  | 0, _ => []
  | k + 1, n => UInt8.ofNat (n % 256) :: littleEndian k (n / 256)

def fromLittleEndian : List UInt8 → ℕ
  | [] => 0
  | b :: bytes => b.toNat + 256 * fromLittleEndian bytes

/-- Division by `2 ^ e`, where a tie goes to the even quotient. -/
def roundHalfEven (n e : ℕ) : ℕ :=
  if 2 * (n % 2 ^ e) < 2 ^ e ∨ (2 * (n % 2 ^ e) = 2 ^ e ∧ n / 2 ^ e % 2 = 0) then n / 2 ^ e
  else n / 2 ^ e + 1

/-- The double that is nearest to `n`. -/
def toDouble (n : ℕ) : ℕ :=
  if n < 2 ^ 53 then n else roundHalfEven n (n.log2 - 52) * 2 ^ (n.log2 - 52)

/-- `new Uint8Array(buffer, offset, length)` -/
def subarray (msg : List UInt8) (offset length : ℕ) : Option (List UInt8) :=
  if offset + length ≤ msg.length then some ((msg.drop offset).take length) else none

/-- `new Uint8Array(buffer, offset)` -/
def tailarray (msg : List UInt8) (offset : ℕ) : Option (List UInt8) :=
  if offset ≤ msg.length then some (msg.drop offset) else none

def getUint32 (msg : List UInt8) (offset : ℕ) : Option ℕ :=
  (subarray msg offset 4).map fromLittleEndian

def getUint64 (msg : List UInt8) (offset : ℕ) : Option ℕ := do
  let left ← getUint32 msg offset
  let right ← getUint32 msg (offset + 4)
  some (toDouble (left + 2 ^ 32 * right))

@[simp] theorem length_littleEndian (k n : ℕ) : (littleEndian k n).length = k := by
  induction k generalizing n with
  | zero => rfl
  | succ k ih => rw [littleEndian, List.length_cons, ih]

theorem fromLittleEndian_littleEndian (k n : ℕ) :
    fromLittleEndian (littleEndian k n) = n % 256 ^ k := by
  induction k generalizing n with
  | zero => rw [littleEndian, fromLittleEndian, pow_zero, Nat.mod_one]
  | succ k ih =>
    have hbyte : (UInt8.ofNat (n % 256)).toNat = n % 256 :=
      Nat.mod_eq_of_lt (Nat.mod_lt _ (by norm_num))
    rw [littleEndian, fromLittleEndian, ih, hbyte, pow_succ', Nat.mod_mul]

theorem littleEndian_eight (n : ℕ) :
    littleEndian 8 n = littleEndian 4 n ++ littleEndian 4 (n / 2 ^ 32) := by
  simp only [littleEndian, List.cons_append, List.nil_append, Nat.div_div_eq_div_mul]
  norm_num

def ExactDouble (n : ℕ) : Prop := ∃ m e, m < 2 ^ 53 ∧ n = m * 2 ^ e

theorem roundEven_div (n e : ℕ) :
    FloatFormat.roundEven ((n : ℚ) / 2 ^ e) = roundHalfEven n e := by
  have hfloor : ⌊(n : ℚ) / 2 ^ e⌋ = (n / 2 ^ e : ℕ) := by
    have h := Rat.floor_natCast_div_natCast n (2 ^ e)
    push_cast at h ⊢
    exact h
  have hpos : (0 : ℚ) < 2 ^ e := by positivity
  have hfraction : (n : ℚ) / 2 ^ e - (n / 2 ^ e : ℕ) = (n % 2 ^ e : ℕ) / 2 ^ e := by
    have hsplit : (n : ℚ) = 2 ^ e * (n / 2 ^ e : ℕ) + (n % 2 ^ e : ℕ) := by
      exact_mod_cast (Nat.div_add_mod n (2 ^ e)).symm
    rw [eq_div_iff hpos.ne', sub_mul, div_mul_cancel₀ _ hpos.ne', hsplit]
    ring
  rw [FloatFormat.roundEven, hfloor, Int.cast_natCast, hfraction, roundHalfEven]
  have hless : ((n % 2 ^ e : ℕ) : ℚ) / 2 ^ e < 1 / 2 ↔ 2 * (n % 2 ^ e) < 2 ^ e := by
    rw [div_lt_div_iff₀ hpos two_pos, one_mul, mul_comm]
    exact_mod_cast Iff.rfl
  have htie : ((n % 2 ^ e : ℕ) : ℚ) / 2 ^ e = 1 / 2 ↔ 2 * (n % 2 ^ e) = 2 ^ e := by
    rw [div_eq_div_iff hpos.ne' two_ne_zero, one_mul, mul_comm]
    exact_mod_cast Iff.rfl
  have heven : ((n / 2 ^ e : ℕ) : ℤ) % 2 = 0 ↔ n / 2 ^ e % 2 = 0 := by omega
  simp only [hless, htie, heven]
  split_ifs <;> rfl

theorem round_natCast {F : FloatFormat.Format} (hexponent : F.minExponent ≤ 0) (n : ℕ) :
    F.round n = ((if n < 2 ^ F.precision then n else
      roundHalfEven n (n.log2 + 1 - F.precision) * 2 ^ (n.log2 + 1 - F.precision) : ℕ) : ℚ) := by
  split_ifs with hn
  · exact FloatFormat.Format.round_of_isFloat (FloatFormat.Format.isFloat_natCast hexponent hn)
  · rw [FloatFormat.Format.round_natCast hexponent (not_lt.mp hn), roundEven_div]
    push_cast
    rfl

theorem toDouble_eq_round (n : ℕ) : (toDouble n : ℚ) = FloatFormat.double.round n :=
  (round_natCast (F := FloatFormat.double) (by decide) n).symm

theorem toDouble_eq_iff (n : ℕ) : toDouble n = n ↔ ExactDouble n := by
  rw [← Nat.cast_inj (R := ℚ), toDouble_eq_round, FloatFormat.Format.round_eq_self_iff]
  exact FloatFormat.Format.isFloat_natCast_iff (by decide)

example : toDouble (2 ^ 53 + 1) = 2 ^ 53 := by decide

def Rest (msg : List UInt8) (offset : ℕ) (rest : List UInt8) : Prop :=
  offset ≤ msg.length ∧ msg.drop offset = rest

namespace Rest

variable {msg block rest : List UInt8} {offset : ℕ}

theorem start (msg : List UInt8) : Rest msg 0 msg := ⟨Nat.zero_le _, rfl⟩

theorem length (h : Rest msg offset rest) : offset + rest.length = msg.length := by
  obtain ⟨hle, rfl⟩ := h
  rw [List.length_drop]
  omega

theorem skip (h : Rest msg offset (block ++ rest)) : Rest msg (offset + block.length) rest := by
  have hlen := h.length
  rw [List.length_append] at hlen
  exact ⟨by omega, by rw [← List.drop_drop, h.2, List.drop_left]⟩

theorem subarray (h : Rest msg offset (block ++ rest)) :
    DataView.subarray msg offset block.length = some block := by
  have hlen := h.length
  rw [List.length_append] at hlen
  rw [DataView.subarray, if_pos (by omega), h.2, List.take_left]

theorem tailarray (h : Rest msg offset rest) : DataView.tailarray msg offset = some rest := by
  rw [DataView.tailarray, if_pos h.1, h.2]

theorem getUint32_mod {n : ℕ} (h : Rest msg offset (littleEndian 4 n ++ rest)) :
    DataView.getUint32 msg offset = some (n % 2 ^ 32) := by
  have hblock := h.subarray
  rw [length_littleEndian] at hblock
  rw [DataView.getUint32, hblock, Option.map_some, fromLittleEndian_littleEndian]
  norm_num

theorem getUint32 {n : ℕ} (h : Rest msg offset (littleEndian 4 n ++ rest)) (hn : n < 2 ^ 32) :
    DataView.getUint32 msg offset = some n := by
  rw [h.getUint32_mod, Nat.mod_eq_of_lt hn]

theorem getUint32_nil (h : Rest msg offset []) : DataView.getUint32 msg offset = none := by
  have hlen := h.length
  rw [List.length_nil] at hlen
  rw [DataView.getUint32, DataView.subarray, if_neg (by omega), Option.map_none]

theorem skipWord {k n : ℕ} (h : Rest msg offset (littleEndian k n ++ rest)) :
    Rest msg (offset + k) rest := by
  simpa using h.skip

theorem getUint64 {n : ℕ} (h : Rest msg offset (littleEndian 8 n ++ rest)) (hn : n < 2 ^ 64) :
    DataView.getUint64 msg offset = some (toDouble n) := by
  rw [littleEndian_eight, List.append_assoc] at h
  have hcombined : n % 2 ^ 32 + 2 ^ 32 * (n / 2 ^ 32) = n := Nat.mod_add_div n _
  rw [DataView.getUint64, h.getUint32_mod, h.skipWord.getUint32 (by omega)]
  simp only [Option.bind_eq_bind, Option.bind_some, hcombined]

end Rest

end XWebQL.DataView
