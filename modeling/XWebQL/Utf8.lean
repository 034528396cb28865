import Mathlib.Data.List.Basic
import Mathlib.Order.Nat

/-! UTF-8 in two directions: the encoder, and the decoder of a browser, which
never fails. It gives a replacement character for an ill-formed sequence and
reads the byte that broke the sequence again.
A text that is cut off at its number of characters loses a byte for every
character outside ASCII, so the cut text decodes to the text only when there is
nothing to lose. -/

namespace XWebQL.Utf8

def replacement : Char := Char.ofNat 0xFFFD

def Ascii (c : Char) : Prop := c.toNat ≤ 0x7F

instance (c : Char) : Decidable (Ascii c) := inferInstanceAs (Decidable (_ ≤ _))

/-- The decoder is between characters, or it needs more bytes for a code point
and the next one has to be between `lower` and `upper`. -/
inductive State where
  | start
  | pending (needed codePoint lower upper : ℕ)

def first (b : ℕ) : List Char × State :=
  if b ≤ 0x7F then ([Char.ofNat b], .start)
  else if 0xC2 ≤ b ∧ b ≤ 0xDF then ([], .pending 1 (b - 0xC0) 0x80 0xBF)
  else if 0xE0 ≤ b ∧ b ≤ 0xEF then
    ([], .pending 2 (b - 0xE0) (if b = 0xE0 then 0xA0 else 0x80) (if b = 0xED then 0x9F else 0xBF))
  else if 0xF0 ≤ b ∧ b ≤ 0xF4 then
    ([], .pending 3 (b - 0xF0) (if b = 0xF0 then 0x90 else 0x80) (if b = 0xF4 then 0x8F else 0xBF))
  else ([replacement], .start)

def step : State → ℕ → List Char × State
  | .start, b => first b
  | .pending needed codePoint lower upper, b =>
    if lower ≤ b ∧ b ≤ upper then
      if needed = 1 then ([Char.ofNat (64 * codePoint + b % 64)], .start)
      else ([], .pending (needed - 1) (64 * codePoint + b % 64) 0x80 0xBF)
    else (replacement :: (first b).1, (first b).2)

def finish : State → List Char
  | .start => []
  | .pending .. => [replacement]

def decodeFrom : State → List UInt8 → List Char
  | state, [] => finish state
  | state, b :: bytes => (step state b.toNat).1 ++ decodeFrom (step state b.toNat).2 bytes

/-- A byte order mark at the start is dropped. -/
def decode (bytes : List UInt8) : List Char :=
  decodeFrom .start (if [0xEF, 0xBB, 0xBF] <+: bytes then bytes.drop 3 else bytes)

def encode (s : List Char) : List UInt8 := s.flatMap String.utf8EncodeChar

@[simp] theorem encode_nil : encode [] = [] := rfl

@[simp] theorem encode_cons (c : Char) (s : List Char) :
    encode (c :: s) = String.utf8EncodeChar c ++ encode s := rfl

section Step

variable {b needed codePoint lower upper : ℕ}

theorem first_ascii (h : b ≤ 0x7F) : first b = ([Char.ofNat b], .start) := by
  rw [first, if_pos h]

theorem first_two (h : 0xC2 ≤ b) (h' : b ≤ 0xDF) :
    first b = ([], .pending 1 (b - 0xC0) 0x80 0xBF) := by
  rw [first, if_neg (by omega), if_pos ⟨h, h'⟩]

theorem first_three (h : 0xE0 ≤ b) (h' : b ≤ 0xEF) :
    first b = ([], .pending 2 (b - 0xE0) (if b = 0xE0 then 0xA0 else 0x80)
      (if b = 0xED then 0x9F else 0xBF)) := by
  rw [first, if_neg (by omega), if_neg (by omega), if_pos ⟨h, h'⟩]

theorem first_four (h : 0xF0 ≤ b) (h' : b ≤ 0xF4) :
    first b = ([], .pending 3 (b - 0xF0) (if b = 0xF0 then 0x90 else 0x80)
      (if b = 0xF4 then 0x8F else 0xBF)) := by
  rw [first, if_neg (by omega), if_neg (by omega), if_neg (by omega), if_pos ⟨h, h'⟩]

theorem step_last (h : lower ≤ b) (h' : b ≤ upper) :
    step (.pending 1 codePoint lower upper) b =
      ([Char.ofNat (64 * codePoint + b % 64)], .start) := by
  rw [step, if_pos ⟨h, h'⟩, if_pos rfl]

theorem step_more (h : lower ≤ b) (h' : b ≤ upper) (hn : needed ≠ 1) :
    step (.pending needed codePoint lower upper) b =
      ([], .pending (needed - 1) (64 * codePoint + b % 64) 0x80 0xBF) := by
  rw [step, if_pos ⟨h, h'⟩, if_neg hn]

end Step

section Decode

variable {b : UInt8} {needed codePoint lower upper : ℕ} (bytes : List UInt8)

theorem decodeFrom_lead {state : State} (h : first b.toNat = ([], state)) :
    decodeFrom .start (b :: bytes) = decodeFrom state bytes := by
  rw [decodeFrom, step, h, List.nil_append]

theorem decodeFrom_more (h : lower ≤ b.toNat) (h' : b.toNat ≤ upper) (hn : needed ≠ 1) :
    decodeFrom (.pending needed codePoint lower upper) (b :: bytes) =
      decodeFrom (.pending (needed - 1) (64 * codePoint + b.toNat % 64) 0x80 0xBF) bytes := by
  rw [decodeFrom, step_more h h' hn, List.nil_append]

theorem decodeFrom_last {c : Char} (h : lower ≤ b.toNat) (h' : b.toNat ≤ upper)
    (hpoint : 64 * codePoint + b.toNat % 64 = c.toNat) :
    decodeFrom (.pending 1 codePoint lower upper) (b :: bytes) = c :: decodeFrom .start bytes := by
  rw [decodeFrom, step_last h h', hpoint, Char.ofNat_toNat, List.singleton_append]

end Decode

/-- The characters that are certain to come out of a state. -/
def State.debt : State → ℕ
  | .start => 0
  | .pending .. => 1

theorem length_first (b : ℕ) : (first b).1.length + (first b).2.debt ≤ 1 := by
  unfold first
  split_ifs <;> simp [State.debt]

theorem length_step (state : State) (b : ℕ) :
    (step state b).1.length + (step state b).2.debt ≤ state.debt + 1 := by
  have hfirst := length_first b
  cases state with
  | start => simpa [step, State.debt] using hfirst
  | pending needed codePoint lower upper =>
    simp only [step]
    split_ifs
    · simp [State.debt]
    · simp [State.debt]
    · simp only [State.debt, List.length_cons] at hfirst ⊢
      omega

theorem length_decodeFrom (state : State) (bytes : List UInt8) :
    (decodeFrom state bytes).length ≤ state.debt + bytes.length := by
  induction bytes generalizing state with
  | nil => cases state <;> simp [decodeFrom, finish, State.debt]
  | cons b bytes ih =>
    have hstep := length_step state b.toNat
    have hrest := ih (step state b.toNat).2
    simp only [decodeFrom, List.length_append, List.length_cons]
    omega

theorem length_decodeFrom_lead {lead cont : UInt8} {needed codePoint lower upper : ℕ}
    (hlead : first lead.toNat = ([], .pending needed codePoint lower upper))
    (hlower : lower ≤ cont.toNat) (hupper : cont.toNat ≤ upper) (bytes : List UInt8) :
    (decodeFrom .start (lead :: cont :: bytes)).length ≤ 1 + bytes.length := by
  rw [decodeFrom_lead _ hlead]
  by_cases hn : needed = 1
  · subst hn
    have hrest := length_decodeFrom .start bytes
    rw [decodeFrom, step_last hlower hupper, List.singleton_append, List.length_cons]
    simp only [State.debt] at hrest ⊢
    omega
  · rw [decodeFrom_more _ hlower hupper hn]
    exact length_decodeFrom _ bytes

section Character

variable {c : Char}

theorem toNat_range (c : Char) : c.toNat < 0xD800 ∨ (0xDFFF < c.toNat ∧ c.toNat < 0x110000) :=
  c.valid

theorem toNat_byte {n : ℕ} (h : n < 256) : (UInt8.ofNat n).toNat = n :=
  Nat.mod_eq_of_lt h

theorem utf8EncodeChar_ascii (hc : Ascii c) :
    String.utf8EncodeChar c = [UInt8.ofNat c.toNat] :=
  if_pos hc

theorem utf8EncodeChar_two (hc : ¬ Ascii c) (h : c.toNat ≤ 0x7FF) :
    String.utf8EncodeChar c =
      [UInt8.ofNat (c.toNat / 64 % 32 + 0xC0), UInt8.ofNat (c.toNat % 64 + 0x80)] :=
  (if_neg hc).trans (if_pos h)

theorem utf8EncodeChar_three (h : ¬ c.toNat ≤ 0x7FF) (h' : c.toNat ≤ 0xFFFF) :
    String.utf8EncodeChar c =
      [UInt8.ofNat (c.toNat / 4096 % 16 + 0xE0), UInt8.ofNat (c.toNat / 64 % 64 + 0x80),
        UInt8.ofNat (c.toNat % 64 + 0x80)] :=
  (if_neg fun hc => h (Nat.le_trans hc (by decide))).trans ((if_neg h).trans (if_pos h'))

theorem utf8EncodeChar_four (h : ¬ c.toNat ≤ 0xFFFF) :
    String.utf8EncodeChar c =
      [UInt8.ofNat (c.toNat / 262144 % 8 + 0xF0), UInt8.ofNat (c.toNat / 4096 % 64 + 0x80),
        UInt8.ofNat (c.toNat / 64 % 64 + 0x80), UInt8.ofNat (c.toNat % 64 + 0x80)] :=
  (if_neg fun hc => h (Nat.le_trans hc (by decide))).trans
    ((if_neg fun hc => h (Nat.le_trans hc (by decide))).trans (if_neg h))

theorem utf8EncodeChar_lead (hc : ¬ Ascii c) :
    ∃ lead cont tail needed codePoint lower upper,
      String.utf8EncodeChar c = lead :: cont :: tail ∧
        first lead.toNat = ([], .pending needed codePoint lower upper) ∧
        lower ≤ cont.toNat ∧ cont.toNat ≤ upper := by
  have hrange := toNat_range c
  have hlow : ¬ c.toNat ≤ 0x7F := hc
  by_cases htwo : c.toNat ≤ 0x7FF
  · refine ⟨_, _, _, _, _, _, _, utf8EncodeChar_two hc htwo, first_two ?_ ?_, ?_, ?_⟩ <;>
      simp (disch := omega) only [toNat_byte] <;> omega
  by_cases hthree : c.toNat ≤ 0xFFFF
  · refine ⟨_, _, _, _, _, _, _, utf8EncodeChar_three htwo hthree, first_three ?_ ?_, ?_, ?_⟩ <;>
      simp (disch := omega) only [toNat_byte] <;> (try split_ifs) <;> omega
  · refine ⟨_, _, _, _, _, _, _, utf8EncodeChar_four hthree, first_four ?_ ?_, ?_, ?_⟩ <;>
      simp (disch := omega) only [toNat_byte] <;> (try split_ifs) <;> omega

theorem decodeFrom_utf8EncodeChar (c : Char) (bytes : List UInt8) :
    decodeFrom .start (String.utf8EncodeChar c ++ bytes) = c :: decodeFrom .start bytes := by
  have hrange := toNat_range c
  by_cases hc : Ascii c
  · have hlow : c.toNat ≤ 0x7F := hc
    rw [utf8EncodeChar_ascii hc, List.singleton_append, decodeFrom, step, toNat_byte (by omega),
      first_ascii hlow, Char.ofNat_toNat, List.singleton_append]
  have hlow : ¬ c.toNat ≤ 0x7F := hc
  by_cases htwo : c.toNat ≤ 0x7FF
  · rw [utf8EncodeChar_two hc htwo, List.cons_append, List.cons_append, List.nil_append,
      decodeFrom_lead _ (first_two ?_ ?_), decodeFrom_last _ ?_ ?_ ?_]
    all_goals
      simp (disch := omega) only [toNat_byte]
      omega
  by_cases hthree : c.toNat ≤ 0xFFFF
  · rw [utf8EncodeChar_three htwo hthree, List.cons_append, List.cons_append, List.cons_append,
      List.nil_append, decodeFrom_lead _ (first_three ?_ ?_), decodeFrom_more _ ?_ ?_ (by decide),
      decodeFrom_last _ ?_ ?_ ?_]
    all_goals
      simp (disch := omega) only [toNat_byte]
      try split_ifs
      all_goals omega
  · rw [utf8EncodeChar_four hthree, List.cons_append, List.cons_append, List.cons_append,
      List.cons_append, List.nil_append, decodeFrom_lead _ (first_four ?_ ?_),
      decodeFrom_more _ ?_ ?_ (by decide), decodeFrom_more _ ?_ ?_ (by decide),
      decodeFrom_last _ ?_ ?_ ?_]
    all_goals
      simp (disch := omega) only [toNat_byte]
      try split_ifs
      all_goals omega

end Character

theorem decodeFrom_encode (s : List Char) (bytes : List UInt8) :
    decodeFrom .start (encode s ++ bytes) = s ++ decodeFrom .start bytes := by
  induction s with
  | nil => rfl
  | cons c s ih =>
    rw [encode_cons, List.append_assoc, decodeFrom_utf8EncodeChar, ih, List.cons_append]

theorem length_utf8EncodeChar_pos (c : Char) : 0 < (String.utf8EncodeChar c).length :=
  List.length_pos_iff.mpr String.utf8EncodeChar_ne_nil

theorem length_le_encode (s : List Char) : s.length ≤ (encode s).length := by
  induction s with
  | nil => exact le_rfl
  | cons c s ih =>
    have hc := length_utf8EncodeChar_pos c
    rw [encode_cons, List.length_append, List.length_cons]
    omega

theorem length_encode_le_iff (s : List Char) :
    (encode s).length ≤ s.length ↔ ∀ c ∈ s, Ascii c := by
  induction s with
  | nil => simp
  | cons c s ih =>
    have hs := length_le_encode s
    rw [encode_cons, List.length_append, List.length_cons, List.forall_mem_cons, ← ih]
    by_cases hc : Ascii c
    · rw [utf8EncodeChar_ascii hc, List.length_singleton]
      exact ⟨fun h => ⟨hc, by omega⟩, fun h => by omega⟩
    · obtain ⟨lead, cont, tail, _, _, _, _, henc, _⟩ := utf8EncodeChar_lead hc
      rw [henc, List.length_cons, List.length_cons]
      exact ⟨fun h => by omega, fun h => absurd h.1 hc⟩

/-- Every byte read as a character of its own. -/
def latin1 (bytes : List UInt8) : List Char := bytes.map fun b => Char.ofNat b.toNat

theorem latin1_encode_ascii {s : List Char} (hs : ∀ c ∈ s, Ascii c) : latin1 (encode s) = s := by
  induction s with
  | nil => rfl
  | cons c s ih =>
    obtain ⟨hc, hs⟩ := List.forall_mem_cons.mp hs
    have hlow : c.toNat ≤ 0x7F := hc
    rw [encode_cons, utf8EncodeChar_ascii hc, List.singleton_append, latin1, List.map_cons,
      toNat_byte (by omega), Char.ofNat_toNat]
    exact congrArg (c :: ·) (ih hs)

theorem latin1_encode_eq_iff (s : List Char) : latin1 (encode s) = s ↔ ∀ c ∈ s, Ascii c := by
  refine ⟨fun h => ?_, latin1_encode_ascii⟩
  rw [← length_encode_le_iff]
  calc (encode s).length = (latin1 (encode s)).length := by rw [latin1, List.length_map]
    _ ≤ s.length := by rw [h]

/-- All characters are ASCII, except that the last one may be the replacement
character. -/
def AsciiButLast : List Char → Prop
  | [] => True
  | [c] => Ascii c ∨ c = replacement
  | c :: d :: s => Ascii c ∧ AsciiButLast (d :: s)

/-- A text that is cut at its number of characters, in the middle of a
character if need be. -/
def cut (s : List Char) : List UInt8 := (encode s).take s.length

theorem length_cut (s : List Char) : (cut s).length = s.length := by
  rw [cut, List.length_take, min_eq_left (length_le_encode s)]

theorem cut_ascii {c : Char} (hc : Ascii c) (s : List Char) :
    cut (c :: s) = UInt8.ofNat c.toNat :: cut s := by
  rw [cut, encode_cons, utf8EncodeChar_ascii hc, List.length_cons, List.singleton_append,
    List.take_succ_cons, cut]

theorem decodeFrom_cut_ascii {c : Char} (hc : Ascii c) (s : List Char) :
    decodeFrom .start (cut (c :: s)) = c :: decodeFrom .start (cut s) := by
  have h := decodeFrom_utf8EncodeChar c (cut s)
  rwa [utf8EncodeChar_ascii hc, List.singleton_append, ← cut_ascii hc] at h

/-- A character outside ASCII costs a byte that a later character needs. -/
theorem decodeFrom_cut_ne {c d : Char} (hc : ¬ Ascii c) (s : List Char) :
    decodeFrom .start (cut (c :: d :: s)) ≠ c :: d :: s := by
  intro h
  obtain ⟨lead, cont, tail, needed, codePoint, lower, upper, henc, hlead, hlower, hupper⟩ :=
    utf8EncodeChar_lead hc
  have hcut : cut (c :: d :: s) = lead :: cont :: (tail ++ encode (d :: s)).take s.length := by
    rw [cut, encode_cons, henc]
    rfl
  have hlen := length_decodeFrom_lead hlead hlower hupper ((tail ++ encode (d :: s)).take s.length)
  rw [← hcut, h, List.length_cons, List.length_cons] at hlen
  have htake := List.length_take_le s.length (tail ++ encode (d :: s))
  omega

theorem decodeFrom_cut_single {c : Char} (hc : ¬ Ascii c) :
    decodeFrom .start (cut [c]) = [replacement] := by
  obtain ⟨lead, cont, tail, _, _, _, _, henc, hlead, _⟩ := utf8EncodeChar_lead hc
  have hcut : cut [c] = [lead] := by
    rw [cut, encode_cons, henc]
    rfl
  rw [hcut, decodeFrom_lead _ hlead]
  rfl

theorem decodeFrom_cut_eq_iff (s : List Char) :
    decodeFrom .start (cut s) = s ↔ AsciiButLast s := by
  induction s with
  | nil => exact iff_of_true rfl trivial
  | cons c s ih =>
    by_cases hc : Ascii c
    · rw [decodeFrom_cut_ascii hc, List.cons_eq_cons, ih]
      cases s with
      | nil => exact iff_of_true ⟨rfl, trivial⟩ (.inl hc)
      | cons d s => exact ⟨fun h => ⟨hc, h.2⟩, fun h => ⟨rfl, h.2⟩⟩
    · cases s with
      | nil =>
        rw [decodeFrom_cut_single hc]
        refine ⟨fun h => .inr (List.cons.inj h).1.symm, fun h => ?_⟩
        rw [h.resolve_left hc]
      | cons d s => exact iff_of_false (decodeFrom_cut_ne hc s) fun h => hc h.1

/-- The mark itself is no ASCII text, so dropping it makes no difference here. -/
theorem decode_cut_eq_iff (s : List Char) : decode (cut s) = s ↔ AsciiButLast s := by
  rw [← decodeFrom_cut_eq_iff, decode]
  split_ifs with hmark
  · obtain ⟨rest, hrest⟩ := hmark
    have hlen := length_cut s
    have hdrop := length_decodeFrom .start rest
    have hkeep := @length_decodeFrom_lead 0xEF 0xBB _ _ _ _ rfl (by decide) (by decide)
      (0xBF :: rest)
    rw [← hrest] at hlen ⊢
    simp only [List.length_cons, List.length_append, List.length_nil, State.debt] at hlen hdrop hkeep
    refine iff_of_false (fun h => ?_) fun h => ?_
    · have := congrArg List.length h
      simp only [List.cons_append, List.nil_append, List.drop_succ_cons, List.drop_zero] at this
      omega
    · have := congrArg List.length h
      simp only [List.cons_append, List.nil_append] at this
      omega
  · exact Iff.rfl

example : decode [0x4A, 0xC3] = ['J', replacement] := by decide

theorem decode_encode {s : List Char} (hs : s.head? ≠ some (Char.ofNat 0xFEFF)) :
    decode (encode s) = s := by
  have hwhole := decodeFrom_encode s []
  rw [List.append_nil] at hwhole
  rw [decode, if_neg, hwhole]
  · exact List.append_nil s
  · rintro ⟨rest, hrest⟩
    have hmark := decodeFrom_utf8EncodeChar (Char.ofNat 0xFEFF) rest
    rw [show String.utf8EncodeChar (Char.ofNat 0xFEFF) = [0xEF, 0xBB, 0xBF] by decide, hrest,
      hwhole] at hmark
    refine hs ?_
    rw [← List.head?_append_of_ne_nil s, hmark]
    · rfl
    · rintro rfl
      cases hmark

end XWebQL.Utf8
