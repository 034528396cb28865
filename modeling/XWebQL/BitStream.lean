import Mathlib.Data.Nat.Bitwise
import Mathlib.Tactic.Ring
import Mathlib.Tactic.NormNum

/-! Numbers as bits, the most significant bit first, and programs that read them.
A program reads a code as a value when it does so wherever the code comes next in
the stream; codes are put one after the other by `Reads.bind`. -/

namespace XWebQL.BitStream

/-- The `n` lowest bits of `v`. -/
def bigEndian : ℕ → ℕ → List Bool
  | 0, _ => []
  | n + 1, v => v.testBit n :: bigEndian n v

def value (l : List Bool) : ℕ := l.foldl (fun v b => 2 * v + b.toNat) 0

@[simp] theorem length_bigEndian (n v : ℕ) : (bigEndian n v).length = n := by
  induction n with
  | zero => rfl
  | succ n ih => rw [bigEndian, List.length_cons, ih]

theorem bigEndian_add (m n v : ℕ) :
    bigEndian (m + n) v = bigEndian m (v / 2 ^ n) ++ bigEndian n v := by
  induction m with
  | zero => simp [bigEndian]
  | succ m ih =>
    rw [Nat.add_right_comm, bigEndian, bigEndian, ih, Nat.testBit_div_two_pow, List.cons_append]

theorem drop_bigEndian (k n v : ℕ) : (bigEndian (k + n) v).drop k = bigEndian n v := by
  rw [bigEndian_add, List.drop_left' (length_bigEndian k _)]

theorem testBit_eq (n v : ℕ) : v % 2 ^ (n + 1) = (v.testBit n).toNat * 2 ^ n + v % 2 ^ n := by
  rw [Nat.mod_pow_succ, Nat.toNat_testBit]
  ring

theorem bigEndian_injective {n a b : ℕ} (h : bigEndian n a = bigEndian n b) :
    a % 2 ^ n = b % 2 ^ n := by
  induction n with
  | zero => rw [pow_zero, Nat.mod_one, Nat.mod_one]
  | succ n ih =>
    have hparts := List.cons.inj h
    rw [testBit_eq, testBit_eq, hparts.1, ih hparts.2]

theorem foldl_value (v : ℕ) (l : List Bool) :
    l.foldl (fun v b => 2 * v + b.toNat) v = v * 2 ^ l.length + value l := by
  induction l generalizing v with
  | nil => simp [value]
  | cons b l ih =>
    rw [value, List.foldl_cons, List.foldl_cons, ih, ih (2 * 0 + b.toNat), List.length_cons,
      pow_succ]
    ring

theorem value_cons (b : Bool) (l : List Bool) :
    value (b :: l) = b.toNat * 2 ^ l.length + value l := by
  rw [value, List.foldl_cons, foldl_value]
  ring

theorem value_lt (l : List Bool) : value l < 2 ^ l.length := by
  induction l with
  | nil => exact Nat.one_pos
  | cons b l ih =>
    rw [value_cons, List.length_cons, pow_succ]
    have hb := Nat.mul_le_mul_right (2 ^ l.length) b.toNat_le
    omega

theorem bigEndian_mul_add (b v : ℕ) {n k : ℕ} (hn : n ≤ k) :
    bigEndian n (b * 2 ^ k + v) = bigEndian n v := by
  induction n with
  | zero => rfl
  | succ n ih =>
    rw [bigEndian, bigEndian, ih (by omega)]
    congr 1
    rw [Nat.testBit_eq_decide_div_mod_eq, Nat.testBit_eq_decide_div_mod_eq]
    obtain ⟨d, rfl⟩ := Nat.exists_eq_add_of_lt hn
    have hpow : b * 2 ^ (n + d + 1) = 2 ^ n * (2 * (b * 2 ^ d)) := by ring
    rw [hpow, Nat.mul_add_div (Nat.two_pow_pos n), Nat.mul_add_mod]

theorem bigEndian_value (l : List Bool) : bigEndian l.length (value l) = l := by
  induction l with
  | nil => rfl
  | cons b l ih =>
    have hlt := value_lt l
    rw [List.length_cons, bigEndian, value_cons, bigEndian_mul_add _ _ le_rfl, ih]
    congr 1
    rw [Nat.testBit_eq_decide_div_mod_eq, Nat.mul_comm, Nat.mul_add_div (Nat.two_pow_pos _),
      Nat.div_eq_of_lt hlt]
    cases b <;> simp

theorem getElem?_bigEndian {n i : ℕ} (v : ℕ) (hi : i < n) :
    (bigEndian n v)[i]? = some (v.testBit (n - 1 - i)) := by
  induction n generalizing i with
  | zero => exact absurd hi (Nat.not_lt_zero i)
  | succ n ih =>
    cases i with
    | zero => rw [bigEndian, List.getElem?_cons_zero, Nat.add_sub_cancel, Nat.sub_zero]
    | succ i =>
      rw [bigEndian, List.getElem?_cons_succ, ih (Nat.lt_of_succ_lt_succ hi)]
      congr 2
      omega

theorem testBit_value {l : List Bool} {i : ℕ} (hi : i < l.length) :
    l[i]? = some ((value l).testBit (l.length - 1 - i)) := by
  rw [← getElem?_bigEndian _ hi, bigEndian_value]

def pack (l : List Bool) : List UInt8 :=
  if l = [] then []
  else
    UInt8.ofNat (value (l.take 8 ++ List.replicate (8 - l.length) false)) :: pack (l.drop 8)
termination_by l.length
decreasing_by
  have := List.length_pos_iff.mpr ‹_›
  rw [List.length_drop]
  omega

def unpack (bytes : List UInt8) : List Bool := bytes.flatMap fun b => bigEndian 8 b.toNat

@[simp] theorem length_unpack (bytes : List UInt8) : (unpack bytes).length = 8 * bytes.length := by
  induction bytes with
  | nil => rfl
  | cons b bytes ih =>
    rw [unpack, List.flatMap_cons, List.length_append, length_bigEndian, ← unpack, ih,
      List.length_cons]
    ring

theorem unpack_pack (l : List Bool) : ∃ k, unpack (pack l) = l ++ List.replicate k false := by
  induction h : l.length using Nat.strong_induction_on generalizing l with
  | _ n ih =>
    subst h
    rw [pack]
    split_ifs with hnil
    · exact ⟨0, by rw [hnil]; rfl⟩
    · have hpos := List.length_pos_iff.mpr hnil
      obtain ⟨k, hk⟩ := ih (l.drop 8).length (by rw [List.length_drop]; omega) (l.drop 8) rfl
      let byte := l.take 8 ++ List.replicate (8 - l.length) false
      have hlen : byte.length = 8 := by
        rw [List.length_append, List.length_take, List.length_replicate]
        omega
      have hbyte : bigEndian 8 (UInt8.ofNat (value byte)).toNat = byte := by
        have hlt := value_lt byte
        have hbits := bigEndian_value byte
        rw [hlen] at hlt hbits
        rw [UInt8.toNat_ofNat', Nat.mod_eq_of_lt hlt, hbits]
      have hunfold : unpack (UInt8.ofNat (value byte) :: pack (l.drop 8)) =
          byte ++ unpack (pack (l.drop 8)) := by
        rw [unpack, List.flatMap_cons, hbyte, unpack]
      rw [hunfold, hk]
      by_cases hlong : 8 ≤ l.length
      · refine ⟨k, ?_⟩
        rw [← List.append_assoc]
        congr 1
        rw [show byte = l.take 8 by simp [byte, Nat.sub_eq_zero_of_le hlong], List.take_append_drop]
      · have hdrop : l.drop 8 = [] := List.drop_eq_nil_of_le (by omega)
        refine ⟨8 - l.length + k, ?_⟩
        rw [hdrop, List.nil_append, show byte = l ++ List.replicate (8 - l.length) false by
          simp [byte, List.take_of_length_le (show l.length ≤ 8 by omega)], List.append_assoc,
          List.replicate_append_replicate]

theorem run_bind_ok {σ ε α β : Type} {op : StateT σ (Except ε) α} {f : α → StateT σ (Except ε) β}
    {s s'' : σ} {y : β} (h : (op >>= f).run s = .ok (y, s'')) :
    ∃ x s', op.run s = .ok (x, s') ∧ (f x).run s' = .ok (y, s'') := by
  rw [StateT.run_bind] at h
  cases hop : op.run s with
  | error e =>
    rw [hop] at h
    cases h
  | ok p =>
    rw [hop] at h
    exact ⟨p.1, p.2, rfl, h⟩

theorem run_lift_ok {σ ε α : Type} {result : Except ε α} {s s' : σ} {x : α}
    (h : (liftM result : StateT σ (Except ε) α).run s = .ok (x, s')) : result = .ok x ∧ s' = s := by
  cases result with
  | error e => cases h
  | ok a =>
    cases h
    exact ⟨rfl, rfl⟩

section Reads

variable {σ ε α β : Type} {rest : σ → List Bool}

/-- Wherever the code comes next in the stream, the program reads it to its end
and gives the value. -/
def Reads (rest : σ → List Bool) (op : StateT σ (Except ε) α) (code : List Bool) (x : α) :
    Prop :=
  ∀ s tail, rest s = code ++ tail → ∃ s', op.run s = .ok (x, s') ∧ rest s' = tail

theorem Reads.pure (x : α) : Reads rest (pure x : StateT σ (Except ε) α) [] x := by
  intro s tail h
  exact ⟨s, rfl, h⟩

theorem Reads.bind {op : StateT σ (Except ε) α} {f : α → StateT σ (Except ε) β}
    {code code' : List Bool} {x : α} {y : β} (h : Reads rest op code x)
    (h' : Reads rest (f x) code' y) : Reads rest (op >>= f) (code ++ code') y := by
  intro s tail hs
  obtain ⟨s', hop, hs'⟩ := h s (code' ++ tail) (by rw [hs, List.append_assoc])
  obtain ⟨s'', hf, hs''⟩ := h' s' tail hs'
  refine ⟨s'', ?_, hs''⟩
  rw [StateT.run_bind, hop]
  exact hf

theorem Reads.lift {result : Except ε α} {x : α} (h : result = .ok x) :
    Reads rest (liftM result : StateT σ (Except ε) α) [] x := by
  intro s tail hs
  subst h
  exact ⟨s, rfl, hs⟩

theorem Reads.lift_bind {result : Except ε α} {f : α → StateT σ (Except ε) β} {code : List Bool}
    {x : α} {y : β} (h : result = .ok x) (h' : Reads rest (f x) code y) :
    Reads rest ((liftM result : StateT σ (Except ε) α) >>= f) code y :=
  (Reads.lift h).bind h'

theorem Reads.bind_pure {op : StateT σ (Except ε) α} {f : α → StateT σ (Except ε) β}
    {code : List Bool} {x : α} {y : β} (h : Reads rest op code x) (h' : Reads rest (f x) [] y) :
    Reads rest (op >>= f) code y := by
  rw [← List.append_nil code]
  exact h.bind h'

end Reads

end XWebQL.BitStream
