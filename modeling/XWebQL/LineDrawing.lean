import XWebQL.DigitalLine
import XWebQL.SxsReader

/-! Pixels and lines on an RGBA canvas.
`none` is undefined behaviour: a store outside the buffer, an `int` that overflows, a loop
that does not end. A pixel outside the picture is left out with a message. -/

namespace XWebQL.LineDrawing

open DigitalLine
open SxsReader (int)

structure Colour where
  r : UInt8
  g : UInt8
  b : UInt8
  a : UInt8
deriving DecidableEq, Repr

/-- The bytes of the canvas, and the coordinates in the messages that were printed. -/
structure Screen where
  buffer : List UInt8
  messages : List (ℤ × ℤ)
deriving DecidableEq, Repr

/-- `buffer[index] = v` -/
def store (buffer : List UInt8) (index : ℤ) (v : UInt8) : Option (List UInt8) :=
  if 0 ≤ index ∧ index < buffer.length then some (buffer.set index.toNat v) else none

def setPixel (screen : Screen) (width height y x : ℤ) (colour : Colour) : Option Screen :=
  if x < 0 ∨ width ≤ x ∨ y < 0 ∨ height ≤ y then
    some { screen with messages := screen.messages ++ [(x, y)] }
  else do
    let index ← int ((y * width + x) * 4)
    let buffer ← store screen.buffer (index + 0) colour.r
    let buffer ← store buffer (index + 1) colour.g
    let buffer ← store buffer (index + 2) colour.b
    let buffer ← store buffer (index + 3) colour.a
    some { screen with buffer }

structure Walk where
  x0 : ℤ
  y0 : ℤ
  err : ℤ
deriving DecidableEq, Repr

def walkStep (dx dy sx sy : ℤ) (walk : Walk) : Option Walk := do
  let e2 := walk.err
  let walk ← if e2 > -dx then do
      let err ← int (walk.err - dy)
      let x0 ← int (walk.x0 + sx)
      some { walk with err, x0 }
    else some walk
  if e2 < dy then do
    let err ← int (walk.err + dx)
    let y0 ← int (walk.y0 + sy)
    some { walk with err, y0 }
  else some walk

def lineLoop (width height x1 y1 dx dy sx sy : ℤ) (colour : Colour) :
    ℕ → Screen → Walk → Option Screen
  | 0, _, _ => none
  | rounds + 1, screen, walk => do
    let screen ← setPixel screen width height walk.x0 walk.y0 colour
    if walk.x0 = x1 ∧ walk.y0 = y1 then some screen
    else do
      let walk ← walkStep dx dy sx sy walk
      lineLoop width height x1 y1 dx dy sx sy colour rounds screen walk

/-- No line takes more rounds than the two distances allow. -/
def line (screen : Screen) (width height x0 y0 x1 y1 : ℤ) (colour : Colour) : Option Screen := do
  let dx ← int |x1 - x0|
  let sx := if x0 < x1 then 1 else -1
  let dy ← int |y1 - y0|
  let sy := if y0 < y1 then 1 else -1
  let err := (if dx > dy then dx else -dy).tdiv 2
  lineLoop width height x1 y1 dx dy sx sy colour (dx + dy + 1).toNat screen ⟨x0, y0, err⟩

section Walk

variable {x0 y0 x1 y1 : ℤ}

/-- Coordinates whose differences and sums fit an `int`. -/
structure Moderate (x0 y0 x1 y1 : ℤ) : Prop where
  x0_lt : |x0| < 2 ^ 28
  y0_lt : |y0| < 2 ^ 28
  x1_lt : |x1| < 2 ^ 28
  y1_lt : |y1| < 2 ^ 28

/-- The error term: the remainder of the stair, or its negation where the line is tall. -/
def errorTerm (x0 y0 x1 y1 : ℤ) (k : ℕ) : ℤ :=
  if distance y0 y1 < distance x0 x1 then remainder (distance x0 x1) (distance y0 y1) k
  else -remainder (distance y0 y1) (distance x0 x1) k

def walkAt (x0 y0 x1 y1 : ℤ) (k : ℕ) : Walk :=
  ⟨(point x0 y0 x1 y1 k).1, (point x0 y0 x1 y1 k).2, errorTerm x0 y0 x1 y1 k⟩

theorem int_of_abs {v : ℤ} (h : |v| < 2147483648) : int v = some v := by
  rw [abs_lt] at h
  rw [int, if_pos (by omega)]

theorem distance_lt {a b : ℤ} (ha : |a| < 2 ^ 28) (hb : |b| < 2 ^ 28) :
    distance a b < 2 ^ 29 := by
  rw [abs_lt] at ha hb
  rw [distance]
  omega

theorem remainder_zero (M m : ℕ) : remainder M m 0 = (M / 2 : ℕ) := by
  simp [remainder, stair_zero]

theorem walkStep_eq {dx dy sx sy : ℤ} (walk : Walk) (hdx : 0 ≤ dx) (hdy : 0 ≤ dy)
    (herr : |walk.err| + dx + dy < 2147483648) (hx : |walk.x0 + sx| < 2147483648)
    (hy : |walk.y0 + sy| < 2147483648) :
    walkStep dx dy sx sy walk = some
      { x0 := if -dx < walk.err then walk.x0 + sx else walk.x0
        y0 := if walk.err < dy then walk.y0 + sy else walk.y0
        err := walk.err - (if -dx < walk.err then dy else 0) +
          if walk.err < dy then dx else 0 } := by
  have hwide : int (walk.err - dy) = some (walk.err - dy) := by
    refine int_of_abs (lt_of_le_of_lt (abs_sub _ _) ?_)
    rw [abs_of_nonneg hdy]
    omega
  have htall : int (walk.err + dx) = some (walk.err + dx) := by
    refine int_of_abs (lt_of_le_of_lt (abs_add_le _ _) ?_)
    rw [abs_of_nonneg hdx]
    omega
  have hboth : int (walk.err - dy + dx) = some (walk.err - dy + dx) := by
    refine int_of_abs (lt_of_le_of_lt (abs_add_le _ _) ?_)
    have hsub := abs_sub walk.err dy
    rw [abs_of_nonneg hdy] at hsub
    rw [abs_of_nonneg hdx]
    omega
  rw [walkStep]
  split_ifs with h h'
  · simp [hwide, hboth, int_of_abs hx, int_of_abs hy]
  · simp [hwide, int_of_abs hx]
  · simp [htall, int_of_abs hy]
  · simp

/-- What is left of a line stays between its ends, so no coordinate leaves the range. -/
theorem abs_between {a b c : ℤ} (ha : |a| < 2 ^ 28) (hb : |b| < 2 ^ 28)
    (hc : min a b ≤ c ∧ c ≤ max a b) : |c + direction a b| < 2147483648 := by
  rw [abs_lt] at ha hb ⊢
  rw [direction]
  split_ifs
  · omega
  · omega

theorem errorTerm_lt (h : Moderate x0 y0 x1 y1) {k : ℕ} (hk : k < steps x0 y0 x1 y1) :
    |errorTerm x0 y0 x1 y1 k| + distance x0 x1 + distance y0 y1 < 2147483648 := by
  have hdx := distance_lt h.x0_lt h.x1_lt
  have hdy := distance_lt h.y0_lt h.y1_lt
  have hmem := remainder_mem (m := min (distance x0 x1) (distance y0 y1)) (k := k)
    (Nat.zero_lt_of_lt hk)
  rw [errorTerm]
  split_ifs with hwide
  · rw [steps_wide hwide, min_eq_right hwide.le] at hmem
    rw [abs_of_nonneg hmem.1]
    omega
  · rw [steps_tall (not_lt.mp hwide), min_eq_left (not_lt.mp hwide)] at hmem
    rw [abs_neg, abs_of_nonneg hmem.1]
    omega

theorem walkStep_walkAt (h : Moderate x0 y0 x1 y1) {k : ℕ} (hk : k < steps x0 y0 x1 y1) :
    walkStep (distance x0 x1) (distance y0 y1) (direction x0 x1) (direction y0 y1)
      (walkAt x0 y0 x1 y1 k) = some (walkAt x0 y0 x1 y1 (k + 1)) := by
  have hinside := point_inside hk.le
  have hx := abs_between h.x0_lt h.x1_lt hinside.1
  have hy := abs_between h.y0_lt h.y1_lt hinside.2
  rw [walkStep_eq (walkAt x0 y0 x1 y1 k) (Int.natCast_nonneg _) (Int.natCast_nonneg _)
    (errorTerm_lt h hk) hx hy]
  clear hinside hx hy
  rcases lt_or_ge (distance y0 y1) (distance x0 x1) with hwide | htall
  · rw [steps_wide hwide] at hk
    have hpos := Nat.zero_lt_of_lt hk
    have hstair := stair_succ (k := k) hpos hwide.le
    have hremainder := remainder_succ (k := k) hpos hwide.le
    have hforward : -(distance x0 x1 : ℤ) < remainder (distance x0 x1) (distance y0 y1) k :=
      lt_of_lt_of_le (by omega) (remainder_mem hpos).1
    simp only [walkAt, errorTerm, point_wide hwide, if_pos hwide, hstair, hremainder,
      if_pos hforward]
    split_ifs with hup
    · simp only [Option.some.injEq, Walk.mk.injEq]
      push_cast
      exact ⟨by ring, by ring, trivial⟩
    · simp only [Option.some.injEq, Walk.mk.injEq]
      push_cast
      exact ⟨by ring, trivial, add_zero _⟩
  · rw [steps_tall htall] at hk
    have hpos := Nat.zero_lt_of_lt hk
    have hstair := stair_succ (k := k) hpos htall
    have hremainder := remainder_succ (k := k) hpos htall
    have hforward : -remainder (distance y0 y1) (distance x0 x1) k < distance y0 y1 :=
      lt_of_le_of_lt (neg_nonpos.mpr (remainder_mem hpos).1) (by omega)
    simp only [walkAt, errorTerm, point_tall htall, if_neg htall.not_gt, hstair, hremainder,
      neg_lt_neg_iff, if_pos hforward]
    split_ifs with hup
    · simp only [Option.some.injEq, Walk.mk.injEq]
      push_cast
      exact ⟨by ring, by ring, by ring⟩
    · simp only [Option.some.injEq, Walk.mk.injEq]
      push_cast
      exact ⟨trivial, by ring, by ring⟩

end Walk

section Line

variable {x0 y0 x1 y1 : ℤ} {width height : ℤ} {colour : Colour}

def setPixels (width height : ℤ) (colour : Colour) (l : List (ℤ × ℤ)) (screen : Screen) :
    Option Screen :=
  l.foldlM (fun screen p => setPixel screen width height p.1 p.2 colour) screen

theorem setPixels_cons (p : ℤ × ℤ) (l : List (ℤ × ℤ)) (screen : Screen) :
    setPixels width height colour (p :: l) screen =
      (setPixel screen width height p.1 p.2 colour).bind (setPixels width height colour l) :=
  List.foldlM_cons ..

theorem lineLoop_eq (h : Moderate x0 y0 x1 y1) {n k : ℕ} (hn : k + n = steps x0 y0 x1 y1)
    {rounds : ℕ} (hrounds : n < rounds) (screen : Screen) :
    lineLoop width height x1 y1 (distance x0 x1) (distance y0 y1) (direction x0 x1)
      (direction y0 y1) colour rounds screen (walkAt x0 y0 x1 y1 k) =
      setPixels width height colour
        ((List.range' k (n + 1)).map (point x0 y0 x1 y1)) screen := by
  induction n generalizing k rounds screen with
  | zero =>
    obtain ⟨rounds, rfl⟩ := Nat.exists_eq_succ_of_ne_zero hrounds.ne'
    obtain rfl : k = steps x0 y0 x1 y1 := hn
    have hend : (walkAt x0 y0 x1 y1 (steps x0 y0 x1 y1)).x0 = x1 ∧
        (walkAt x0 y0 x1 y1 (steps x0 y0 x1 y1)).y0 = y1 := by
      rw [walkAt, point_last]
      exact ⟨rfl, rfl⟩
    rw [lineLoop, Nat.zero_add, List.range'_one, List.map_singleton, setPixels_cons, point_last]
    simp only [hend, and_self, if_true]
    rfl
  | succ n ih =>
    obtain ⟨rounds, rfl⟩ := Nat.exists_eq_succ_of_ne_zero (Nat.ne_zero_of_lt hrounds)
    have hk : k < steps x0 y0 x1 y1 := by omega
    have hon : ¬((walkAt x0 y0 x1 y1 k).x0 = x1 ∧ (walkAt x0 y0 x1 y1 k).y0 = y1) := by
      intro hend
      have heq : point x0 y0 x1 y1 k = point x0 y0 x1 y1 (steps x0 y0 x1 y1) := by
        rw [point_last]
        exact Prod.ext hend.1 hend.2
      exact hk.ne (point_injective heq)
    rw [lineLoop, List.range'_succ, List.map_cons, setPixels_cons]
    simp only [if_neg hon, walkStep_walkAt h hk]
    congr 1
    funext screen
    exact ih (by omega) (by omega) screen

theorem line_eq (h : Moderate x0 y0 x1 y1) (screen : Screen) :
    line screen width height x0 y0 x1 y1 colour =
      setPixels width height colour (points x0 y0 x1 y1) screen := by
  have hdx := distance_lt h.x0_lt h.x1_lt
  have hdy := distance_lt h.y0_lt h.y1_lt
  have hstart : walkAt x0 y0 x1 y1 0 = ⟨x0, y0, (if (distance x0 x1 : ℤ) > distance y0 y1 then
      (distance x0 x1 : ℤ) else -distance y0 y1).tdiv 2⟩ := by
    simp only [walkAt, point_zero, errorTerm, remainder_zero, Walk.mk.injEq, true_and,
      gt_iff_lt, Nat.cast_lt]
    split_ifs
    · rw [Int.natCast_tdiv_eq_ediv]
      rfl
    · rw [Int.neg_tdiv, Int.natCast_tdiv_eq_ediv]
      rfl
  have hrounds : steps x0 y0 x1 y1 < distance x0 x1 + distance y0 y1 + 1 := by
    rw [steps]
    omega
  have hint : ∀ a b : ℤ, distance a b < 2 ^ 29 → int |b - a| = some (distance a b : ℤ) := by
    intro a b hlt
    rw [← cast_distance]
    exact int_of_abs (by rw [Nat.abs_cast]; omega)
  have htoNat : ((distance x0 x1 : ℤ) + distance y0 y1 + 1).toNat =
      distance x0 x1 + distance y0 y1 + 1 := by omega
  rw [line, hint x0 x1 hdx, hint y0 y1 hdy]
  simp only [Option.bind_eq_bind, Option.bind_some]
  rw [← hstart, htoNat, points, List.range_eq_range']
  exact lineLoop_eq h (Nat.zero_add _) hrounds screen

end Line

section Painting

variable {width height : ℕ} {colour : Colour} {start screen : Screen}

/-- The four bytes of the pixel in row `y` and column `x`. -/
def Screen.pixel (screen : Screen) (width y x : ℕ) : Option Colour := do
  let r ← screen.buffer[(y * width + x) * 4]?
  let g ← screen.buffer[(y * width + x) * 4 + 1]?
  let b ← screen.buffer[(y * width + x) * 4 + 2]?
  let a ← screen.buffer[(y * width + x) * 4 + 3]?
  some ⟨r, g, b, a⟩

/-- There is a buffer for all the pixels, whose indices fit an `int`. -/
structure Screen.Fits (screen : Screen) (width height : ℕ) : Prop where
  length : height * width * 4 ≤ screen.buffer.length
  range : height * width * 4 ≤ 2147483648

def Outside (width height : ℕ) (p : ℤ × ℤ) : Prop :=
  p.2 < 0 ∨ (width : ℤ) ≤ p.2 ∨ p.1 < 0 ∨ (height : ℤ) ≤ p.1

instance decidableOutside (p : ℤ × ℤ) : Decidable (Outside width height p) :=
  inferInstanceAs (Decidable (_ ∨ _ ∨ _ ∨ _))

/-- The pixels of `l` have got the colour, and nothing else has changed. -/
structure Painted (start : Screen) (width height : ℕ) (colour : Colour) (l : List (ℤ × ℤ))
    (screen : Screen) : Prop where
  length : screen.buffer.length = start.buffer.length
  messages : screen.messages =
    start.messages ++ (l.filter fun p => Outside width height p).map Prod.swap
  pixel : ∀ y < height, ∀ x < width, screen.pixel width y x =
    if ((y : ℤ), (x : ℤ)) ∈ l then some colour else start.pixel width y x
  rest : ∀ k, height * width * 4 ≤ k → screen.buffer[k]? = start.buffer[k]?

theorem painted_nil : Painted start width height colour [] start :=
  ⟨rfl, (List.append_nil _).symm, fun _ _ _ _ => rfl, fun _ _ => rfl⟩

theorem Painted.trans {screen' : Screen} {l l' : List (ℤ × ℤ)}
    (h : Painted start width height colour l screen)
    (h' : Painted screen width height colour l' screen') :
    Painted start width height colour (l ++ l') screen' where
  length := h'.length.trans h.length
  messages := by
    rw [h'.messages, h.messages, List.filter_append, List.map_append, List.append_assoc]
  pixel y hy x hx := by
    rw [h'.pixel y hy x hx, h.pixel y hy x hx]
    simp only [List.mem_append]
    split_ifs with hl' hl <;> simp_all
  rest k hk := (h'.rest k hk).trans (h.rest k hk)

theorem Screen.Fits.of_length (h : start.Fits width height)
    (hlength : screen.buffer.length = start.buffer.length) : screen.Fits width height :=
  ⟨hlength ▸ h.length, h.range⟩

theorem store_natCast {buffer : List UInt8} {k : ℕ} (hk : k < buffer.length) (v : UInt8) :
    store buffer k v = some (buffer.set k v) := by
  rw [store, if_pos (by omega), Int.toNat_natCast]

theorem index_injective {y y' x x' : ℕ} (hx : x < width) (hx' : x' < width)
    (h : y * width + x = y' * width + x') : y = y' ∧ x = x' := by
  have hdiv : ∀ {a b : ℕ}, b < width → (a * width + b) / width = a := fun hb => by
    rw [mul_comm, Nat.mul_add_div (Nat.zero_lt_of_lt hb), Nat.div_eq_of_lt hb, Nat.add_zero]
  have hy : y = y' := by rw [← hdiv (a := y) hx, h, hdiv hx']
  subst hy
  exact ⟨rfl, Nat.add_left_cancel h⟩

theorem index_lt {y x : ℕ} (hy : y < height) (hx : x < width) :
    (y * width + x) * 4 + 3 < height * width * 4 := by
  have hrow : (y + 1) * width ≤ height * width := Nat.mul_le_mul_right _ hy
  rw [Nat.succ_mul] at hrow
  omega

/-- The four bytes at `k`. -/
def putPixel (buffer : List UInt8) (k : ℕ) (colour : Colour) : List UInt8 :=
  (((buffer.set k colour.r).set (k + 1) colour.g).set (k + 2) colour.b).set (k + 3) colour.a

theorem putPixel_other {buffer : List UInt8} {k n : ℕ} (h : n < k ∨ k + 3 < n) :
    (putPixel buffer k colour)[n]? = buffer[n]? := by
  rw [putPixel, List.getElem?_set_ne (by omega), List.getElem?_set_ne (by omega),
    List.getElem?_set_ne (by omega), List.getElem?_set_ne (by omega)]

theorem setPixel_inside (hfits : start.Fits width height) {y x : ℕ} (hy : y < height)
    (hx : x < width) : setPixel start width height y x colour =
      some { start with buffer := putPixel start.buffer ((y * width + x) * 4) colour } := by
  have hindex := index_lt hy hx
  have hlength := hfits.length
  have hrange := hfits.range
  have hint : int (((y : ℤ) * width + x) * 4) = some (((y * width + x) * 4 : ℕ) : ℤ) := by
    rw [int_of_abs]
    · push_cast
      rfl
    · have hcast : ((y : ℤ) * width + x) * 4 = ((y * width + x) * 4 : ℕ) := by push_cast; rfl
      rw [hcast, Nat.abs_cast]
      omega
  generalize (y * width + x) * 4 = k at *
  rw [setPixel, if_neg (by omega), hint]
  have hstore : ∀ (buffer : List UInt8) (c : ℕ) (v : UInt8), k + c < buffer.length →
      store buffer ((k : ℤ) + c) v = some (buffer.set (k + c) v) := fun buffer c v h =>
    store_natCast h v
  have h0 := hstore start.buffer 0 colour.r (by omega)
  have h1 := hstore (start.buffer.set k colour.r) 1 colour.g (by simp; omega)
  have h2 := hstore ((start.buffer.set k colour.r).set (k + 1) colour.g) 2 colour.b (by simp; omega)
  have h3 := hstore (((start.buffer.set k colour.r).set (k + 1) colour.g).set (k + 2) colour.b) 3
    colour.a (by simp; omega)
  simp only [Nat.cast_zero, Nat.cast_one, Nat.cast_ofNat, Nat.add_zero] at h0 h1 h2 h3
  simp only [Option.bind_eq_bind, Option.bind_some, h0, h1, h2, h3]
  rfl

theorem setPixel_painted (hfits : start.Fits width height) (colour : Colour) (p : ℤ × ℤ) :
    ∃ screen, setPixel start width height p.1 p.2 colour = some screen ∧
      Painted start width height colour [p] screen := by
  by_cases hp : Outside width height p
  · refine ⟨_, if_pos hp, rfl, ?_, ?_, fun _ _ => rfl⟩
    · rw [List.filter_singleton, decide_eq_true hp]
      rfl
    · intro y hy x hx
      have hne : ((y : ℤ), (x : ℤ)) ∉ [p] := by
        rintro hmem
        rw [List.mem_singleton] at hmem
        subst hmem
        simp only [Outside] at hp
        omega
      rw [if_neg hne]
      rfl
  · obtain ⟨y, x, rfl, hy, hx⟩ : ∃ y x : ℕ, p = (↑y, ↑x) ∧ y < height ∧ x < width := by
      rw [Outside] at hp
      exact ⟨p.1.toNat, p.2.toNat, Prod.ext (by omega) (by omega), by omega, by omega⟩
    have hindex := index_lt hy hx
    have hlength := hfits.length
    refine ⟨_, setPixel_inside hfits hy hx, by simp [putPixel], by simp [hp], ?_, ?_⟩
    · intro y' hy' x' hx'
      have hmem : ((y' : ℤ), (x' : ℤ)) ∈ [((y : ℤ), (x : ℤ))] ↔ y' = y ∧ x' = x := by simp
      simp only [hmem]
      split_ifs with heq
      · obtain ⟨rfl, rfl⟩ := heq
        have hk : (y' * width + x') * 4 + 3 < start.buffer.length := by omega
        simp only [Screen.pixel, putPixel]
        generalize (y' * width + x') * 4 = k at *
        simp [hk, show k < start.buffer.length by omega,
          show k + 1 < start.buffer.length by omega, show k + 2 < start.buffer.length by omega]
      · have hne : y' * width + x' ≠ y * width + x := fun h => heq (index_injective hx' hx h)
        have hother : ∀ c < 4, (putPixel start.buffer ((y * width + x) * 4) colour)[
            (y' * width + x') * 4 + c]? = start.buffer[(y' * width + x') * 4 + c]? :=
          fun c hc => putPixel_other (by omega)
        have h0 := hother 0 (by omega)
        have h1 := hother 1 (by omega)
        have h2 := hother 2 (by omega)
        have h3 := hother 3 (by omega)
        simp only [Nat.add_zero] at h0
        simp only [Screen.pixel, h0, h1, h2, h3]
    · intro k hk
      exact putPixel_other (by omega)

theorem setPixels_painted (hfits : start.Fits width height) (colour : Colour)
    (l : List (ℤ × ℤ)) :
    ∃ screen, setPixels width height colour l start = some screen ∧
      Painted start width height colour l screen := by
  induction l generalizing start with
  | nil => exact ⟨start, rfl, painted_nil⟩
  | cons p l ih =>
    obtain ⟨screen, hset, hp⟩ := setPixel_painted hfits colour p
    obtain ⟨screen', hset', hl⟩ := ih (hfits.of_length hp.length)
    refine ⟨screen', ?_, hp.trans hl⟩
    rw [setPixels_cons, hset, Option.bind_some, hset']

/-- A line is drawn whole and ends, however many of its pixels are outside the picture. -/
theorem line_drawn {x0 y0 x1 y1 : ℤ} (h : Moderate x0 y0 x1 y1) :
    ∃ l : List (ℤ × ℤ), IsLine x0 y0 x1 y1 l ∧
      ∀ (screen : Screen) (width height : ℕ) (colour : Colour), screen.Fits width height →
        ∃ screen', line screen width height x0 y0 x1 y1 colour = some screen' ∧
          Painted screen width height colour l screen' := by
  refine ⟨points x0 y0 x1 y1, points_isLine x0 y0 x1 y1, ?_⟩
  intro screen width height colour hfits
  rw [line_eq h]
  exact setPixels_painted hfits colour _

theorem line_drawn_corners :
    ∃ l : List (ℤ × ℤ), IsLine (-1) 2 3 0 l ∧
      ∀ (screen : Screen) (width height : ℕ) (colour : Colour), screen.Fits width height →
        ∃ screen', line screen width height (-1) 2 3 0 colour = some screen' ∧
          Painted screen width height colour l screen' :=
  line_drawn ⟨by decide, by decide, by decide, by decide⟩

end Painting

end XWebQL.LineDrawing
