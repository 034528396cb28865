import XWebQL.AsciiText
import Mathlib.Data.List.Infix

/-! The file that `streamDocument` serves for a request target.
Texts are lists of bytes. The guard looks for `../` in the target as it came,
the path is made from the decoded target, and `streamFile` cuts it at its last
question mark. `unescapeuri` of the HTTP package is a parameter; it decodes in one
pass and throws on a percent sign without two hexadecimal digits. -/

namespace XWebQL.DocumentPath

open AsciiText

abbrev Text := List UInt8

def dot : UInt8 := code '.'

def percent : UInt8 := code '%'

def questionMark : UInt8 := code '?'

def htDocs : Text := ascii "htdocs"

def refused (target : Text) : Bool :=
  decide (ascii "../" <:+: target) || decide (ascii "..\\" <:+: target)

/-- The path that `streamDocument` hands to `streamFile`; nothing if decoding
throws. -/
def documentPath (unescapeuri : Text → Option Text) (localVersion : Bool) (target : Text) :
    Option Text := do
  let decoded ← unescapeuri target
  let path := htDocs ++ decoded
  if target = ascii "/" then
    if localVersion then some (path ++ ascii "index.html") else some (path ++ ascii "test.html")
  else some path

def beforeLast {α : Type} (p : α → Bool) (l : List α) : List α :=
  match l.reverse.dropWhile fun a => !p a with
  | [] => l
  | _ :: before => before.reverse

def isContinuation (b : UInt8) : Bool := 0x80 ≤ b && b ≤ 0xBF

/-- The last of the bytes is the first of its character: `thisind(s, i) == i`, for
the bytes up to `i` from the last one on. -/
def startsCharacter : Text → Bool
  | b₀ :: b₁ :: rest =>
    if !isContinuation b₀ then true
    else if 0xC0 ≤ b₁ && b₁ ≤ 0xF7 then false
    else if !isContinuation b₁ then true
    else match rest with
      | [] => true
      | b₂ :: rest =>
        if 0xE0 ≤ b₂ && b₂ ≤ 0xF7 then false
        else if !isContinuation b₂ then true
        else match rest with
          | [] => true
          | b₃ :: _ => !(0xF0 ≤ b₃ && b₃ ≤ 0xF7)
  | _ => true

/-- `SubString(path, 1:(pos[1]-1))` at the last question mark; an end inside a
character throws. -/
def stripQuestionMark (path : Text) : Option Text :=
  if questionMark ∈ path then
    let before := beforeLast (· == questionMark) path
    if startsCharacter before.reverse then some before else none
  else some path

def servedPath (unescapeuri : Text → Option Text) (localVersion : Bool) (target : Text) :
    Option Text :=
  (documentPath unescapeuri localVersion target).bind stripQuestionMark

structure Response where
  status : ℕ
  headers : List (String × String)
  body : Text

/-- The endings `streamFile` knows, in the order of its tests. -/
def mimeTypes : List (List String × String) :=
  [([".htm", ".html"], "text/html"), ([".txt"], "text/plain"), ([".css"], "text/css"),
    ([".js"], "application/javascript"), ([".wasm"], "application/wasm"),
    ([".pdf"], "application/pdf"), ([".ico"], "image/x-icon"), ([".png"], "image/png"),
    ([".gif"], "image/gif"), ([".webp"], "image/webp"), ([".svg"], "image/svg+xml"),
    ([".jpeg", ".jpg"], "image/jpeg"), ([".mp4"], "video/mp4")]

def mimeHeaders (path : Text) : List (String × String) :=
  ("Cache-Control", "public, max-age=86400") ::
    (mimeTypes.filter fun m => m.1.any fun ending => (ascii ending).isSuffixOf path).map
      fun m => ("Content-Type", m.2)

/-- `streamFile`, with the files of the server given by `isfile` and `read`. -/
def streamFile (isfile : Text → Bool) (read : Text → Option Text) (path : Text) :
    Option Response := do
  let path ← stripQuestionMark path
  if !isfile path then some ⟨404, [], path ++ ascii " Not Found."⟩
  else match read path with
    | none => some ⟨500, [], ascii "Internal Server Error"⟩
    | some body => some ⟨200, mimeHeaders path, body⟩

def streamDocument (unescapeuri : Text → Option Text) (localVersion : Bool)
    (isfile : Text → Bool) (read : Text → Option Text) (target : Text) : Option Response :=
  if refused target then some ⟨404, [], ascii "Not Found"⟩
  else (documentPath unescapeuri localVersion target).bind (streamFile isfile read)

theorem streamDocument_congr (unescapeuri : Text → Option Text) (localVersion : Bool)
    {isfile isfile' : Text → Bool} {read read' : Text → Option Text} {target path : Text}
    (hpath : servedPath unescapeuri localVersion target = some path)
    (hfile : isfile path = isfile' path) (hread : read path = read' path) :
    streamDocument unescapeuri localVersion isfile read target =
      streamDocument unescapeuri localVersion isfile' read' target := by
  unfold streamDocument
  split_ifs
  · rfl
  · obtain ⟨document, hdocument, hstrip⟩ := Option.bind_eq_some_iff.mp hpath
    simp only [hdocument, Option.bind_some, streamFile, hstrip, Option.bind_eq_bind, hfile, hread]

inductive Platform where
  | unix
  | windows

def Platform.separator : Platform → UInt8 → Bool
  | .unix, c => c == code '/'
  | .windows, c => c == code '/' || c == code '\\'

/-- One of the components of the path is `..`. -/
def HasDotDot (platform : Platform) (path : Text) : Prop :=
  ∃ before after, path = before ++ dot :: dot :: after ∧
    (∀ s ∈ before.getLast?, platform.separator s) ∧ ∀ s ∈ after.head?, platform.separator s

def PathSafe (platform : Platform) (unescapeuri : Text → Option Text) (localVersion : Bool)
    (target : Text) : Prop :=
  refused target = false → ∀ path, servedPath unescapeuri localVersion target = some path →
    ¬ HasDotDot platform path

def hexDigit (c : UInt8) : Option UInt8 :=
  if code '0' ≤ c && c ≤ code '9' then some (c - code '0')
  else if code 'a' ≤ c && c ≤ code 'f' then some (c - code 'a' + 10)
  else if code 'A' ≤ c && c ≤ code 'F' then some (c - code 'A' + 10)
  else none

/-- The byte that `%` and two digits stand for. -/
def hexByte (a b : UInt8) : Option UInt8 := do
  let high ← hexDigit a
  let low ← hexDigit b
  some (16 * high + low)

/-- What `HTTP.unescapeuri` does: one pass over the text. -/
structure Unescapes (unescapeuri : Text → Option Text) : Prop where
  empty : unescapeuri [] = some []
  plain : ∀ c rest, c ≠ percent → unescapeuri (c :: rest) = (unescapeuri rest).map (c :: ·)
  escape : ∀ a b v rest, hexByte a b = some v →
    unescapeuri (percent :: a :: b :: rest) = (unescapeuri rest).map (v :: ·)
  malformed : ∀ a b rest, hexByte a b = none → unescapeuri (percent :: a :: b :: rest) = none
  truncated : ∀ rest, rest.length < 2 → unescapeuri (percent :: rest) = none

/-- A character of the target: the byte it stands for, and whether it is escaped. -/
structure Piece where
  byte : UInt8
  escaped : Bool
deriving DecidableEq

def pieces : Text → Option (List Piece)
  | [] => some []
  | c :: rest =>
    if c = percent then
      match rest with
      | a :: b :: rest => do
        let v ← hexByte a b
        (pieces rest).map (⟨v, true⟩ :: ·)
      | _ => none
    else (pieces rest).map (⟨c, false⟩ :: ·)

theorem pieces_escape (a b : UInt8) (rest : Text) :
    pieces (percent :: a :: b :: rest) =
      (hexByte a b).bind fun v => (pieces rest).map (⟨v, true⟩ :: ·) := by
  rw [pieces, if_pos rfl]
  rfl

theorem pieces_truncated {rest : Text} (h : rest.length < 2) :
    pieces (percent :: rest) = none := by
  match rest, h with
  | [], _ => rfl
  | [_], _ => rfl

theorem pieces_cons {c : UInt8} (hc : c ≠ percent) (rest : Text) :
    pieces (c :: rest) = (pieces rest).map (⟨c, false⟩ :: ·) := by
  match rest with
  | [] => simp [pieces, hc]
  | [_] => simp [pieces, hc]
  | _ :: _ :: _ => rw [pieces, if_neg hc]

theorem unescapeuri_eq {unescapeuri : Text → Option Text} (h : Unescapes unescapeuri)
    (target : Text) : unescapeuri target = (pieces target).map (List.map Piece.byte) := by
  induction target using pieces.induct with
  | case1 => exact h.empty
  | case2 a b rest ih =>
    rw [pieces_escape]
    cases hv : hexByte a b with
    | none => rw [h.malformed a b rest hv]; rfl
    | some v =>
      rw [h.escape a b v rest hv, ih, Option.bind_some, Option.map_map, Option.map_map]
      rfl
  | case3 rest hshort =>
    have hlen : rest.length < 2 := by
      match rest, hshort with
      | [], _ => simp
      | [_], _ => simp
      | a :: b :: rest, hshort => exact absurd rfl (hshort a b rest)
    rw [h.truncated rest hlen, pieces_truncated hlen]
    rfl
  | case4 c rest hc ih =>
    rw [h.plain c rest hc, ih, pieces_cons hc, Option.map_map, Option.map_map]
    rfl

section Pieces

variable {target : Text} {ps : List Piece}

theorem pieces_head {q : Piece} (h : pieces target = some (q :: ps)) :
    ∃ rest, rest <:+ target ∧ pieces rest = some ps ∧
      (q.escaped = false → target = q.byte :: rest) := by
  cases target with
  | nil => cases h
  | cons c rest =>
    by_cases hc : c = percent
    · subst hc
      match rest, h with
      | [], h => cases h
      | [_], h => cases h
      | a :: b :: rest, h =>
        rw [pieces_escape] at h
        obtain ⟨v, _, h⟩ := Option.bind_eq_some_iff.mp h
        obtain ⟨ps', hps, heq⟩ := Option.map_eq_some_iff.mp h
        obtain ⟨rfl, rfl⟩ := List.cons_eq_cons.mp heq
        exact ⟨rest, ⟨[percent, a, b], rfl⟩, hps, fun hplain => by cases hplain⟩
    · rw [pieces_cons hc] at h
      obtain ⟨ps', hps, heq⟩ := Option.map_eq_some_iff.mp h
      obtain ⟨rfl, rfl⟩ := List.cons_eq_cons.mp heq
      exact ⟨rest, List.suffix_cons c rest, hps, fun _ => rfl⟩

theorem pieces_suffix {front : List Piece} (h : pieces target = some (front ++ ps)) :
    ∃ rest, rest <:+ target ∧ pieces rest = some ps := by
  induction front generalizing target with
  | nil => exact ⟨target, List.suffix_rfl, h⟩
  | cons q front ih =>
    obtain ⟨rest, hsuffix, hrest, _⟩ := pieces_head h
    obtain ⟨rest', hsuffix', hrest'⟩ := ih hrest
    exact ⟨rest', hsuffix'.trans hsuffix, hrest'⟩

theorem pieces_literal {front : List Piece} {a b c : UInt8}
    (h : pieces target = some (front ++ ⟨a, false⟩ :: ⟨b, false⟩ :: ⟨c, false⟩ :: ps)) :
    [a, b, c] <:+: target := by
  obtain ⟨rest, hsuffix, hrest⟩ := pieces_suffix h
  obtain ⟨rest₁, _, hrest₁, heq⟩ := pieces_head hrest
  obtain ⟨rest₂, _, hrest₂, heq₁⟩ := pieces_head hrest₁
  obtain ⟨rest₃, _, _, heq₂⟩ := pieces_head hrest₂
  have hprefix : [a, b, c] <+: rest :=
    ⟨rest₃, by rw [heq rfl, heq₁ rfl, heq₂ rfl]; rfl⟩
  exact hprefix.isInfix.trans hsuffix.isInfix

end Pieces

section Cut

variable {α β : Type}

theorem beforeLast_map (p : β → Bool) (f : α → β) (l : List α) :
    beforeLast p (l.map f) = (beforeLast (fun a => p (f a)) l).map f := by
  unfold beforeLast
  rw [← List.map_reverse, List.dropWhile_map]
  have hcomp : ((fun a => !p a) ∘ f) = fun a => !p (f a) := rfl
  rw [hcomp]
  cases l.reverse.dropWhile fun a => !p (f a) with
  | nil => rfl
  | cons a before => simp

theorem beforeLast_append (p : α → Bool) {a : List α} (ha : ∀ x ∈ a, p x = false) (b : List α) :
    beforeLast p (a ++ b) = a ++ beforeLast p b := by
  have hdrop : a.reverse.dropWhile (fun x => !p x) = [] := by
    rw [List.dropWhile_eq_nil_iff]
    intro x hx
    rw [ha x (List.mem_reverse.mp hx)]
    rfl
  unfold beforeLast
  rw [List.reverse_append, List.dropWhile_append, hdrop]
  cases b.reverse.dropWhile fun x => !p x with
  | nil => simp
  | cons x before => simp

theorem isPrefix_beforeLast (p : α → Bool) (l : List α) : beforeLast p l <+: l := by
  unfold beforeLast
  cases h : l.reverse.dropWhile fun a => !p a with
  | nil => exact List.prefix_rfl
  | cons a before =>
    have hsuffix : before <:+ l.reverse :=
      (List.suffix_cons a before).trans (h ▸ List.dropWhile_suffix _)
    simpa using hsuffix.reverse

/-- A character is found in the last four bytes at most; the directory before
them does not matter. -/
theorem startsCharacter_append (r : Text) :
    startsCharacter (r ++ htDocs.reverse) = startsCharacter r := by
  have hdocs : htDocs.reverse = [115, 99, 111, 100, 116, 104] := by decide
  have hcontinuation : isContinuation 115 = false := by decide
  rw [hdocs]
  match r with
  | [] => simp [startsCharacter, hcontinuation]
  | [b₀] => simp [startsCharacter, hcontinuation]
  | [b₀, b₁] => simp [startsCharacter, hcontinuation]
  | [b₀, b₁, b₂] => simp [startsCharacter]
  | b₀ :: b₁ :: b₂ :: b₃ :: r => rfl

theorem stripQuestionMark_append (bytes : Text) :
    stripQuestionMark (htDocs ++ bytes) = (stripQuestionMark bytes).map (htDocs ++ ·) := by
  have hno : ∀ x ∈ htDocs, (x == questionMark) = false := by decide
  have hmem : questionMark ∈ htDocs ++ bytes ↔ questionMark ∈ bytes := by
    rw [List.mem_append, or_iff_right]
    decide
  simp only [stripQuestionMark, hmem, beforeLast_append _ hno, List.reverse_append,
    startsCharacter_append]
  split_ifs <;> rfl

theorem stripQuestionMark_eq {path before : Text} (h : stripQuestionMark path = some before) :
    before = beforeLast (· == questionMark) path := by
  simp only [stripQuestionMark] at h
  split_ifs at h with hmem hstart
  · exact (Option.some.inj h).symm
  · have hno : ∀ x ∈ path, (x == questionMark) = false := by
      intro x hx
      rw [beq_eq_false_iff_ne]
      rintro rfl
      exact hmem hx
    have happend := beforeLast_append (· == questionMark) hno []
    rw [List.append_nil] at happend
    rw [happend, ← Option.some.inj h]
    simp [beforeLast]

end Cut

/-- Two dots after a separator, up to the next one or the end, that do not stand
in the target as `../` or `..\`: a dot is escaped, or the separator after them
is, or there is none. -/
def DisguisedStep (platform : Platform) (kept : List Piece) : Prop :=
  ∃ before s a b after, kept = before ++ s :: a :: b :: after ∧ platform.separator s.byte ∧
    a.byte = dot ∧ b.byte = dot ∧ (∀ t ∈ after.head?, platform.separator t.byte) ∧
    (a.escaped ∨ b.escaped ∨ ∀ t ∈ after.head?, t.escaped)

/-- The target can be decoded and cut at its last question mark, and what is left
has a disguised step. -/
def Disguised (platform : Platform) (target : Text) : Prop :=
  ∃ ps, pieces target = some ps ∧ (stripQuestionMark (ps.map Piece.byte)).isSome ∧
    DisguisedStep platform (beforeLast (fun q => q.byte == questionMark) ps)

section Guard

variable {platform : Platform}

theorem hasDotDot_iff (kept : Text) :
    HasDotDot platform (htDocs ++ kept) ↔
      ∃ before s after, kept = before ++ s :: dot :: dot :: after ∧ platform.separator s ∧
        ∀ t ∈ after.head?, platform.separator t := by
  constructor
  · rintro ⟨before, after, heq, hbefore, hafter⟩
    obtain ⟨before', rfl, hkept⟩ | ⟨rest, hdocs, hkept⟩ := List.append_eq_append_iff.mp heq
    · obtain rfl | ⟨front, s, rfl⟩ := before'.eq_nil_or_concat'
      · have hs := hbefore (code 's') (by rw [List.append_nil]; rfl)
        cases platform <;> exact absurd hs (by decide)
      · have hs := hbefore s (by rw [← List.append_assoc]; simp)
        exact ⟨front, s, after, by rw [hkept]; simp, hs, hafter⟩
    · cases rest with
      | nil =>
        rw [List.append_nil] at hdocs
        have hs := hbefore (code 's') (by rw [← hdocs]; rfl)
        cases platform <;> exact absurd hs (by decide)
      | cons c rest =>
        have hc : dot = c := (List.cons_eq_cons.mp hkept).1
        have hmem : dot ∈ htDocs := by
          rw [hdocs, hc]
          simp
        exact absurd hmem (by decide)
  · rintro ⟨before, s, after, rfl, hs, hafter⟩
    refine ⟨htDocs ++ (before ++ [s]), after, by simp, ?_, hafter⟩
    intro t ht
    rw [← List.append_assoc, List.getLast?_concat] at ht
    obtain rfl := Option.some.inj ht
    exact hs

theorem refused_of_infix {target : Text} {c : UInt8} (hc : platform.separator c)
    (h : [dot, dot, c] <:+: target) : refused target = true := by
  have hslash : ascii "../" = [dot, dot, code '/'] := by decide
  have hback : ascii "..\\" = [dot, dot, code '\\'] := by decide
  rw [refused, hslash, hback, Bool.or_eq_true, decide_eq_true_eq, decide_eq_true_eq]
  cases platform with
  | unix => exact .inl (by rwa [← show c = code '/' by simpa [Platform.separator] using hc])
  | windows =>
    obtain h₁ | h₁ : c = code '/' ∨ c = code '\\' := by simpa [Platform.separator] using hc
    · exact .inl (h₁ ▸ h)
    · exact .inr (h₁ ▸ h)

theorem disguisedStep_iff {target : Text} {ps kept : List Piece} (hps : pieces target = some ps)
    (hkept : kept <+: ps) (hnot : refused target = false) :
    DisguisedStep platform kept ↔ HasDotDot platform (htDocs ++ kept.map Piece.byte) := by
  rw [hasDotDot_iff]
  constructor
  · rintro ⟨before, s, a, b, after, rfl, hs, ha, hb, hafter, _⟩
    refine ⟨before.map Piece.byte, s.byte, after.map Piece.byte, by simp [ha, hb], hs, ?_⟩
    intro t ht
    rw [List.head?_map] at ht
    obtain ⟨q, hq, rfl⟩ := Option.map_eq_some_iff.mp ht
    exact hafter q hq
  · rintro ⟨before, s, after, heq, hs, hafter⟩
    obtain ⟨before, tail₁, rfl, rfl, heq₁⟩ := List.map_eq_append_iff.mp heq
    obtain ⟨s, tail₂, rfl, rfl, heq₂⟩ := List.map_eq_cons_iff.mp heq₁
    obtain ⟨a, tail₃, rfl, ha, heq₃⟩ := List.map_eq_cons_iff.mp heq₂
    obtain ⟨b, after, rfl, hb, rfl⟩ := List.map_eq_cons_iff.mp heq₃
    refine ⟨before, s, a, b, after, rfl, hs, ha, hb, ?_, ?_⟩
    · intro t ht
      exact hafter t.byte (by rw [List.head?_map, ht]; rfl)
    · by_contra hplain
      push Not at hplain
      obtain ⟨ha', hb', t, ht, ht'⟩ := hplain
      obtain ⟨after, rfl⟩ : ∃ rest, after = t :: rest := by
        cases after with
        | nil => cases ht
        | cons u rest => exact ⟨rest, by rw [Option.some.inj ht]⟩
      have hsep := hafter t.byte rfl
      obtain ⟨a, plain⟩ := a
      obtain ⟨b, plain'⟩ := b
      obtain ⟨t, plain''⟩ := t
      obtain rfl : a = dot := ha
      obtain rfl : b = dot := hb
      simp only [Bool.not_eq_true] at ha' hb' ht'
      subst ha' hb' ht'
      obtain ⟨rest, rfl⟩ := hkept
      have hfront : before ++ s :: ⟨dot, false⟩ :: ⟨dot, false⟩ :: ⟨t, false⟩ :: after ++ rest =
          (before ++ [s]) ++ ⟨dot, false⟩ :: ⟨dot, false⟩ :: ⟨t, false⟩ :: (after ++ rest) := by
        simp
      rw [hfront] at hps
      have hrefused := refused_of_infix hsep (pieces_literal hps)
      rw [hnot] at hrefused
      cases hrefused

theorem not_hasDotDot_of_count {kept : Text} (hcount : kept.count dot ≤ 1) :
    ¬ HasDotDot platform (htDocs ++ kept) := by
  rw [hasDotDot_iff]
  rintro ⟨before, s, after, rfl, _, _⟩
  rw [List.count_append, List.count_cons, List.count_cons_self, List.count_cons_self] at hcount
  omega

theorem root_served {unescapeuri : Text → Option Text} (h : Unescapes unescapeuri)
    (localVersion : Bool) {path : Text}
    (hpath : servedPath unescapeuri localVersion (ascii "/") = some path) :
    ¬ HasDotDot platform path := by
  have hdecoded : unescapeuri (ascii "/") = some (ascii "/") := by
    rw [unescapeuri_eq h]
    decide
  have hindex : stripQuestionMark (htDocs ++ ascii "/" ++ ascii "index.html") =
      some (htDocs ++ (ascii "/" ++ ascii "index.html")) := by decide
  have htest : stripQuestionMark (htDocs ++ ascii "/" ++ ascii "test.html") =
      some (htDocs ++ (ascii "/" ++ ascii "test.html")) := by decide
  rw [servedPath, documentPath, hdecoded] at hpath
  simp only [Option.bind_eq_bind, Option.bind_some, if_true] at hpath
  cases localVersion with
  | false =>
    rw [if_neg (by decide), Option.bind_some, htest] at hpath
    rw [← Option.some.inj hpath]
    exact not_hasDotDot_of_count (by decide)
  | true =>
    rw [if_pos rfl, Option.bind_some, hindex] at hpath
    rw [← Option.some.inj hpath]
    exact not_hasDotDot_of_count (by decide)

theorem not_disguised_of_count {target : Text} {ps : List Piece} (hps : pieces target = some ps)
    (hcount : (ps.map Piece.byte).count dot ≤ 1) : ¬ Disguised platform target := by
  rintro ⟨ps', hps', _, before, s, a, b, after, hkept, _, ha, hb, _⟩
  obtain rfl : ps' = ps := Option.some.inj (hps'.symm.trans hps)
  obtain ⟨rest, hrest⟩ := isPrefix_beforeLast (fun q : Piece => q.byte == questionMark) ps'
  rw [hkept] at hrest
  rw [← hrest, List.map_append, List.map_append, List.map_cons, List.map_cons, List.map_cons, ha,
    hb, List.count_append, List.count_append, List.count_cons, List.count_cons_self,
    List.count_cons_self] at hcount
  omega

theorem servedPath_eq {unescapeuri : Text → Option Text} (h : Unescapes unescapeuri)
    (localVersion : Bool) {target : Text} (hroot : target ≠ ascii "/") (path : Text) :
    servedPath unescapeuri localVersion target = some path ↔
      ∃ ps, pieces target = some ps ∧ (stripQuestionMark (ps.map Piece.byte)).isSome ∧
        path = htDocs ++ (beforeLast (fun q => q.byte == questionMark) ps).map Piece.byte := by
  rw [servedPath, documentPath, unescapeuri_eq h]
  cases hps : pieces target with
  | none => simp
  | some ps =>
    simp only [Option.map_some, Option.bind_eq_bind, Option.bind_some, if_neg hroot,
      stripQuestionMark_append, Option.map_eq_some_iff, Option.some.injEq, exists_eq_left']
    constructor
    · rintro ⟨kept, hkept, rfl⟩
      refine ⟨by rw [hkept]; rfl, ?_⟩
      rw [stripQuestionMark_eq hkept, beforeLast_map]
    · rintro ⟨hsome, rfl⟩
      obtain ⟨kept, hkept⟩ := Option.isSome_iff_exists.mp hsome
      refine ⟨kept, hkept, ?_⟩
      rw [stripQuestionMark_eq hkept, beforeLast_map]

end Guard

/-- Exactly the disguised steps get past the guard. -/
theorem pathSafe_iff (platform : Platform) (unescapeuri : Text → Option Text)
    (h : Unescapes unescapeuri) (localVersion : Bool) (target : Text) :
    PathSafe platform unescapeuri localVersion target ↔
      refused target = true ∨ ¬ Disguised platform target := by
  cases hnot : refused target with
  | true => simp [PathSafe, hnot]
  | false =>
    simp only [PathSafe, hnot, true_imp_iff, Bool.false_eq_true, false_or]
    by_cases hroot : target = ascii "/"
    · subst hroot
      have hroot : pieces (ascii "/") = some [⟨code '/', false⟩] := by decide
      exact ⟨fun _ => not_disguised_of_count hroot (by decide),
        fun _ path hpath => root_served h localVersion hpath⟩
    · constructor
      · rintro hsafe ⟨ps, hps, hcut, hstep⟩
        refine hsafe _ ((servedPath_eq h localVersion hroot _).mpr ⟨ps, hps, hcut, rfl⟩) ?_
        exact (disguisedStep_iff hps (isPrefix_beforeLast _ ps) hnot).mp hstep
      · rintro hundisguised path hpath hclimbs
        obtain ⟨ps, hps, hcut, rfl⟩ := (servedPath_eq h localVersion hroot path).mp hpath
        exact hundisguised ⟨ps, hps, hcut,
          (disguisedStep_iff hps (isPrefix_beforeLast _ ps) hnot).mpr hclimbs⟩

def percentDecode (text : Text) : Option Text := (pieces text).map (List.map Piece.byte)

theorem percentDecode_unescapes : Unescapes percentDecode where
  empty := rfl
  plain c rest hc := by
    simp only [percentDecode, pieces_cons hc, Option.map_map]
    rfl
  escape a b v rest hv := by
    simp only [percentDecode, pieces_escape, hv, Option.bind_some, Option.map_map]
    rfl
  malformed a b rest hv := by
    simp only [percentDecode, pieces_escape, hv, Option.bind_none, Option.map_none]
  truncated rest hlen := by
    simp only [percentDecode, pieces_truncated hlen, Option.map_none]

theorem pathSafe_escaped_dot :
    PathSafe .unix percentDecode true (ascii "/main%2ecss?v=1") := by
  have hpieces : pieces (ascii "/main%2ecss?v=1") =
      some ((ascii "/main").map (⟨·, false⟩) ++ ⟨dot, true⟩ ::
        (ascii "css?v=1").map (⟨·, false⟩)) := by decide +kernel
  exact (pathSafe_iff .unix percentDecode percentDecode_unescapes true
    (ascii "/main%2ecss?v=1")).mpr (.inr (not_disguised_of_count hpieces (by decide)))

/-- Two escaped dots lead out of the directory. -/
theorem escaped_dots_not_safe :
    ¬ PathSafe .unix percentDecode true (ascii "/%2e%2e/secret") := by
  intro hsafe
  refine hsafe (by decide) (ascii "htdocs/../secret") (by decide +kernel) ?_
  exact ⟨ascii "htdocs/", ascii "/secret", by decide +kernel, by decide +kernel,
    by decide +kernel⟩

end XWebQL.DocumentPath
