import Mathlib.Data.List.Induction
import Mathlib.Data.List.TakeWhile
import Mathlib.Tactic.NormNum

/-! Text as bytes: character codes, runs of one kind of character, decimal
numbers. -/

namespace XWebQL.AsciiText

def code (c : Char) : UInt8 := c.toNat.toUInt8

def ascii (s : String) : List UInt8 := s.toList.map code

def blank : UInt8 := code ' '

def quote : UInt8 := code '\''

/-- `isspace` in the C locale -/
def isSpace (c : UInt8) : Bool := c == blank || (9 ≤ c && c ≤ 13)

def isDigit (c : UInt8) : Bool := code '0' ≤ c && c ≤ code '9'

def digitValue (c : UInt8) : ℕ := c.toNat - (code '0').toNat

/-- The number that a row of digits writes, 0 for the empty row. -/
def decimal (digits : List UInt8) : ℕ :=
  digits.foldl (fun n c => 10 * n + digitValue c) 0

def firstWord (text : List UInt8) : List UInt8 :=
  (text.dropWhile (· == blank)).takeWhile (· != blank)

-- a statement about a text is decided along the text, not over all 256 bytes
instance (priority := 2000) decidableForallText (text : List UInt8) (p : UInt8 → Prop)
    [DecidablePred p] : Decidable (∀ c ∈ text, p c) :=
  List.decidableBAll p text

def Printable (text : List UInt8) : Prop := ∀ c ∈ text, 32 ≤ c ∧ c ≤ 126

instance (text : List UInt8) : Decidable (Printable text) :=
  inferInstanceAs (Decidable (∀ c ∈ text, 32 ≤ c ∧ c ≤ 126))

theorem digitValue_lt {c : UInt8} (hc : isDigit c = true) : digitValue c < 10 := by
  have hcodes : (code '0').toNat = 48 ∧ (code '9').toNat = 57 := by decide
  simp only [isDigit, digitValue, hcodes, Bool.and_eq_true, decide_eq_true_eq,
    UInt8.le_iff_toNat_le] at *
  omega

theorem ne_of_isDigit {c d : UInt8} (hc : isDigit c = true) (hd : isDigit d = false) : c ≠ d := by
  intro h
  rw [h, hd] at hc
  cases hc

theorem isSpace_of_isDigit {c : UInt8} (hc : isDigit c = true) : isSpace c = false := by
  have hcodes : code '0' = 48 ∧ code '9' = 57 ∧ blank = 32 := by decide
  simp only [isDigit, isSpace, hcodes, Bool.and_eq_true, decide_eq_true_eq] at *
  grind

theorem decimal_concat (ds : List UInt8) (c : UInt8) :
    decimal (ds ++ [c]) = 10 * decimal ds + digitValue c := by
  rw [decimal, List.foldl_append, decimal]
  rfl

theorem decimal_lt {ds : List UInt8} (hds : ∀ c ∈ ds, isDigit c = true) :
    decimal ds < 10 ^ ds.length := by
  induction ds using List.reverseRecOn with
  | nil => exact Nat.one_pos
  | append_singleton ds c ih =>
    have hc := digitValue_lt (hds c (by simp))
    have hlow := ih fun d hd => hds d (List.mem_append_left _ hd)
    rw [decimal_concat, List.length_append, List.length_singleton, pow_succ]
    omega

section Runs

variable {α : Type*} {p : α → Bool} {run rest : List α}

theorem takeWhile_run (hrun : ∀ c ∈ run, p c = true) (hrest : ∀ c ∈ rest.head?, p c = false) :
    (run ++ rest).takeWhile p = run := by
  rw [List.takeWhile_append_of_pos hrun]
  cases rest with
  | nil => rw [List.takeWhile_nil, List.append_nil]
  | cons c rest => rw [List.takeWhile_cons_of_neg (by simp [hrest c rfl]), List.append_nil]

theorem dropWhile_run (hrun : ∀ c ∈ run, p c = true) (hrest : ∀ c ∈ rest.head?, p c = false) :
    (run ++ rest).dropWhile p = rest := by
  rw [List.dropWhile_append_of_pos hrun]
  cases rest with
  | nil => rfl
  | cons c rest => rw [List.dropWhile_cons_of_neg (by simp [hrest c rfl])]

theorem dropWhile_congr {q : α → Bool} (h : ∀ c ∈ run, p c = q c) :
    run.dropWhile p = run.dropWhile q := by
  induction run with
  | nil => rfl
  | cons c run ih =>
    rw [List.dropWhile_cons, List.dropWhile_cons, h c List.mem_cons_self,
      ih fun d hd => h d (List.mem_cons_of_mem _ hd)]

end Runs

theorem firstWord_eq {text : List UInt8} (h : blank ∉ text) : firstWord text = text := by
  have hkeep : ∀ c ∈ text, (c != blank) = true := by
    intro c hc
    exact bne_iff_ne.mpr fun heq => h (heq ▸ hc)
  rw [firstWord, List.dropWhile_eq_self_iff.mpr]
  · exact List.takeWhile_eq_self_iff.mpr hkeep
  · intro hlength
    simpa using hkeep _ (List.getElem_mem hlength)

theorem firstWord_append_blanks (text : List UInt8) (k : ℕ) :
    firstWord (text ++ List.replicate k blank) = firstWord text := by
  induction text with
  | nil =>
    rw [List.nil_append, firstWord, List.dropWhile_eq_nil_iff.mpr]
    · rfl
    · intro c hc
      exact beq_iff_eq.mpr (List.eq_of_mem_replicate hc)
  | cons c text ih =>
    by_cases hc : c = blank
    · have hdrop : ∀ rest, firstWord (c :: rest) = firstWord rest := by
        intro rest
        rw [firstWord, List.dropWhile_cons_of_pos (p := (· == blank)) (beq_iff_eq.mpr hc)]
        rfl
      rw [List.cons_append, hdrop, hdrop, ih]
    · have hkeep : ∀ rest, firstWord (c :: rest) = (c :: rest).takeWhile (· != blank) := by
        intro rest
        rw [firstWord, List.dropWhile_cons_of_neg (by simpa using hc)]
      rw [List.cons_append, hkeep, hkeep, ← List.cons_append, List.takeWhile_append]
      split
      · rename_i hall
        rw [List.takeWhile_replicate, (List.takeWhile_sublist _).eq_of_length hall]
        simp only [bne_self_eq_false, Bool.false_eq_true, if_false, List.append_nil]
      · rfl

end XWebQL.AsciiText
