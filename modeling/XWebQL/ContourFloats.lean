import XWebQL.ContourLines

/-! The ends of the contour lines in single precision.
A line does not leave its box by more than what the rounding to the next pixel takes
back: the two products that are added for a crossing have the same sign, so nothing
cancels, and what the roundings add is far less than half a pixel. -/

namespace XWebQL.ContourFloats

open Conrec ContourLines FloatArithmetic FloatFormat
open FloatFormat.Format (round_zero)

section Closeness

def error : ℚ := 1 / 2 ^ 23

theorem single_close {q : ℚ} (hq : q = 0 ∨ 2 ^ (-126 : ℤ) ≤ |q|) :
    |single.round q - q| ≤ error * |q| := by
  rcases hq with rfl | hq
  · rw [round_zero, sub_zero, abs_zero, mul_zero]
  · have hclose := round_relative (F := single) (k := -126) (by decide) hq
    rw [error, div_mul_eq_mul_div, one_mul]
    exact hclose

/-- A result on a grid has this error too, since no number of the grid is too small. -/
theorem single_close_onGrid {q : ℚ} {k : ℤ} (hk : -126 ≤ k) (hq : OnGrid k q) :
    |single.round q - q| ≤ error * |q| := by
  refine single_close ?_
  rcases eq_or_ne q 0 with h | h
  · exact .inl h
  · exact .inr ((zpow_le_zpow_right₀ one_le_two hk).trans (hq.zpow_le_abs h))

theorem close_of_sign {s p q : ℚ} (hs : s * s = 1) (hq : 0 ≤ s * q)
    (hclose : |p - q| ≤ error * |q|) :
    (1 - error) * (s * q) ≤ s * p ∧ s * p ≤ (1 + error) * (s * q) := by
  have habs : |s| = 1 := by
    have := abs_mul_abs_self s
    rw [hs] at this
    nlinarith [abs_nonneg s]
  have hmul : ∀ x, |s * x| = |x| := fun x => by rw [abs_mul, habs, one_mul]
  rw [← hmul q, ← hmul (p - q), abs_of_nonneg hq, mul_sub, abs_le] at hclose
  constructor <;> linarith

end Closeness

section Crossing

variable {n : ℕ}

theorem quotient_bounds (hn : n < 2 ^ 18) {t u d t' u' v d' r : ℚ} (hd : 0 < d)
    (hlow : n * d ≤ t + u) (hhigh : t + u ≤ (n + 1) * d)
    (ht : (1 - error) * t ≤ t' ∧ t' ≤ (1 + error) * t)
    (hu : (1 - error) * u ≤ u' ∧ u' ≤ (1 + error) * u)
    (hv : (1 - error) * (t' + u') ≤ v ∧ v ≤ (1 + error) * (t' + u'))
    (hd' : (1 - error) * d ≤ d' ∧ d' ≤ (1 + error) * d)
    (hr : (1 - error) * (v / d') ≤ r ∧ r ≤ (1 + error) * (v / d')) :
    n - 1 / 2 < r ∧ r < n + 3 / 2 := by
  have hn' : (n : ℚ) + 1 ≤ 2 ^ 18 := by exact_mod_cast hn
  have hnonneg : (0 : ℚ) ≤ n := Nat.cast_nonneg n
  have herror : error = 1 / 2 ^ 23 := rfl
  have hlt : error < 1 := by rw [herror]; norm_num
  have hpos : 0 < error := by rw [herror]; norm_num
  have hd0 : 0 < d' := (mul_pos (sub_pos.mpr hlt) hd).trans_le hd'.1
  -- the sum of the products
  have hsum : (1 - error) * (t + u) ≤ t' + u' ∧ t' + u' ≤ (1 + error) * (t + u) := by
    constructor <;> linarith
  have hv' : (1 - error) ^ 2 * (n * d) ≤ v ∧ v ≤ (1 + error) ^ 2 * ((n + 1) * d) := by
    constructor
    · calc (1 - error) ^ 2 * (n * d) = (1 - error) * ((1 - error) * (n * d)) := by ring
        _ ≤ (1 - error) * ((1 - error) * (t + u)) := by gcongr
        _ ≤ (1 - error) * (t' + u') := by gcongr; exact hsum.1
        _ ≤ v := hv.1
    · calc v ≤ (1 + error) * (t' + u') := hv.2
        _ ≤ (1 + error) * ((1 + error) * (t + u)) := by gcongr; exact hsum.2
        _ ≤ (1 + error) * ((1 + error) * ((n + 1) * d)) := by gcongr
        _ = (1 + error) ^ 2 * ((n + 1) * d) := by ring
  have hquotient : (1 - error) ^ 2 * n ≤ (1 + error) * (v / d') ∧
      (1 - error) * (v / d') ≤ (1 + error) ^ 2 * (n + 1) := by
    constructor
    · rw [← mul_div_assoc, le_div_iff₀ hd0]
      calc (1 - error) ^ 2 * n * d' ≤ (1 - error) ^ 2 * n * ((1 + error) * d) := by
            gcongr
            exact hd'.2
        _ = (1 + error) * ((1 - error) ^ 2 * (n * d)) := by ring
        _ ≤ (1 + error) * v := by gcongr; exact hv'.1
    · rw [← mul_div_assoc, div_le_iff₀ hd0]
      calc (1 - error) * v ≤ (1 - error) * ((1 + error) ^ 2 * ((n + 1) * d)) := by
            gcongr
            exact hv'.2
        _ = (1 + error) ^ 2 * (n + 1) * ((1 - error) * d) := by ring
        _ ≤ (1 + error) ^ 2 * (n + 1) * d' := by gcongr; exact hd'.1
  obtain ⟨hr1, hr2⟩ := hr
  obtain ⟨hq1, hq2⟩ := hquotient
  rw [herror] at *
  generalize v / d' = w at *
  constructor
  · norm_num at *
    linarith
  · norm_num at *
    linarith

structure Height (h : ℚ) : Prop where
  onGrid : OnGrid (-50) h
  abs_le : |h| ≤ 2 ^ 41

structure Coordinate (n : ℕ) (a : ℚ) : Prop where
  onGrid : OnGrid (-1) a
  low : n ≤ a
  high : a ≤ n + 1

theorem quotient_close {v d : ℚ} (hv : OnGrid (-51) v) (hd : d ≠ 0) (hle : |d| ≤ 2 ^ (44 : ℤ)) :
    |single.round (v / d) - v / d| ≤ error * |v / d| := by
  refine single_close ?_
  rcases eq_or_ne v 0 with rfl | hne
  · exact .inl (zero_div d)
  · refine .inr ?_
    rw [abs_div, le_div_iff₀ (abs_pos.mpr hd)]
    calc (2 : ℚ) ^ (-126 : ℤ) * |d| ≤ 2 ^ (-126 : ℤ) * 2 ^ (44 : ℤ) := by gcongr
      _ ≤ 2 ^ (-51 : ℤ) := by norm_num
      _ ≤ |v| := hv.zpow_le_abs hne

theorem sect_near (hn : n < 2 ^ 18) {f : Vertex → ℚ} {p q : Vertex} (hp : Height p.h)
    (hq : Height q.h) (hfp : Coordinate n (f p)) (hfq : Coordinate n (f q))
    (hopposite : p.h * q.h < 0) {r : ℚ} (hr : sect (floats single) f p q = some r) :
    n - 1 / 2 < r ∧ r < n + 3 / 2 := by
  obtain ⟨s, hs, hsq, hsp⟩ : ∃ s : ℚ, s * s = 1 ∧ 0 < s * q.h ∧ 0 < s * -p.h := by
    rcases mul_neg_iff.mp hopposite with ⟨hp', hq'⟩ | ⟨hp', hq'⟩
    · exact ⟨-1, by norm_num, by linarith, by linarith⟩
    · exact ⟨1, by norm_num, by linarith, by linarith⟩
  have hn' : (0 : ℚ) ≤ n := Nat.cast_nonneg n
  have hfp0 : 0 ≤ f p := hn'.trans hfp.low
  have hfq0 : 0 ≤ f q := hn'.trans hfq.low
  have hs' : -s * -s = 1 := by rw [neg_mul_neg, hs]
  have herror : error < 1 := by norm_num [error]
  -- the two products, their difference, the divisor, and the quotient
  have ht := hq.onGrid.mul hfp.onGrid
  have hu := hp.onGrid.mul hfq.onGrid
  have hv : OnGrid (-51) (single.round (q.h * f p) - single.round (p.h * f q)) :=
    ht.round.sub hu.round
  have hd := hq.onGrid.sub hp.onGrid
  have ht0 : 0 ≤ s * (q.h * f p) := by
    rw [← mul_assoc]
    exact mul_nonneg hsq.le hfp0
  have hu0 : 0 ≤ -s * (p.h * f q) := by
    rw [← mul_assoc, neg_mul, ← mul_neg]
    exact mul_nonneg hsp.le hfq0
  have hct := close_of_sign hs ht0 (single_close_onGrid (by norm_num) ht)
  have hcu := close_of_sign hs' hu0 (single_close_onGrid (by norm_num) hu)
  have hv0 : 0 ≤ s * (single.round (q.h * f p) - single.round (p.h * f q)) := by
    have ht1 := (mul_nonneg (sub_pos.mpr herror).le ht0).trans hct.1
    have hu1 := (mul_nonneg (sub_pos.mpr herror).le hu0).trans hcu.1
    linarith
  have hd0 : 0 < s * (q.h - p.h) := by linarith
  have hcv := close_of_sign hs hv0 (single_close_onGrid (by norm_num) hv)
  have hcd := close_of_sign hs hd0.le (single_close_onGrid (by norm_num) hd)
  rw [sect] at hr
  split_ifs at hr with hzero
  obtain rfl := Option.some.inj hr
  simp only [floats] at hzero ⊢
  have hdle : |q.h - p.h| ≤ 2 ^ (44 : ℤ) := by
    refine (abs_sub _ _).trans ((add_le_add hq.abs_le hp.abs_le).trans ?_)
    norm_num
  have hcr := quotient_close (hv.round (F := single)) hzero
    (abs_round_le_zpow (by decide) hdle)
  have hlow := add_le_add (mul_le_mul_of_nonneg_left hfp.low hsq.le)
    (mul_le_mul_of_nonneg_left hfq.low hsp.le)
  have hhigh := add_le_add (mul_le_mul_of_nonneg_left hfp.high hsq.le)
    (mul_le_mul_of_nonneg_left hfq.high hsp.le)
  generalize single.round (q.h * f p) = t' at *
  generalize single.round (p.h * f q) = u' at *
  generalize single.round (t' - u') = v at *
  generalize single.round (q.h - p.h) = d' at *
  have hs0 : s ≠ 0 := left_ne_zero_of_mul_eq_one hs
  have hsum : s * t' + -s * u' = s * (t' - u') := by ring
  have hquotient : s * v / (s * d') = v / d' := mul_div_mul_left v d' hs0
  have hquotient0 : 0 ≤ v / d' := by
    rw [← hquotient]
    exact div_nonneg ((mul_nonneg (sub_pos.mpr herror).le hv0).trans hcv.1)
      ((mul_nonneg (sub_pos.mpr herror).le hd0.le).trans hcd.1)
  rw [abs_of_nonneg hquotient0, abs_le] at hcr
  refine quotient_bounds hn hd0 ?_ ?_ hct hcu (hsum ▸ hcv) hcd ?_
  · linarith
  · linarith
  · rw [hquotient]
    constructor <;> linarith

end Crossing

section Ends

variable {i j : ℕ} {v p q p' q' : Vertex} {s : Segment}

def Near (n : ℕ) (r : ℚ) : Prop := n - 1 / 2 < r ∧ r < n + 3 / 2

theorem roundf_near {n : ℕ} {r : ℚ} (h : Near n r) :
    ⌊Colourmap.roundf r⌋ = n ∨ ⌊Colourmap.roundf r⌋ = n + 1 := by
  obtain ⟨hlow, hhigh⟩ := h
  rw [Colourmap.roundf]
  split_ifs with hr
  · have hlow' : (n : ℤ) ≤ ⌊r + 1 / 2⌋ := Int.le_floor.mpr (by push_cast; linarith)
    have hhigh' : ⌊r + 1 / 2⌋ < (n : ℤ) + 2 := Int.floor_lt.mpr (by push_cast; linarith)
    rw [Int.floor_intCast]
    omega
  · have hn : (n : ℚ) < 1 := by linarith
    obtain rfl : n = 0 := Nat.lt_one_iff.mp (by exact_mod_cast hn)
    have hceil : ⌈r - 1 / 2⌉ = 0 := by
      rw [Int.ceil_eq_iff]
      push_cast at hlow ⊢
      constructor <;> linarith
    exact .inl (by rw [hceil, Int.floor_intCast]; rfl)

theorem Coordinate.near {n : ℕ} {a : ℚ} (h : Coordinate n a) : Near n a :=
  ⟨by linarith [h.low], by linarith [h.high]⟩

/-- A vertex of a triangle in the box between `(i, j)` and `(i + 1, j + 1)`. -/
structure InBox (i j : ℕ) (v : Vertex) : Prop where
  height : Height v.h
  x : Coordinate i v.x
  y : Coordinate j v.y

structure SegmentNear (i j : ℕ) (s : Segment) : Prop where
  x1 : Near i s.x1
  y1 : Near j s.y1
  x2 : Near i s.x2
  y2 : Near j s.y2

theorem vertexSide_near (hi : i < 2 ^ 18) (hj : j < 2 ^ 18) (hv : InBox i j v) (hp : InBox i j p)
    (hq : InBox i j q) (hopposite : p.h * q.h < 0)
    (h : vertexSide (floats single) v p q = some s) : SegmentNear i j s := by
  obtain ⟨x2, hx2, h⟩ := Option.bind_eq_some_iff.mp h
  obtain ⟨y2, hy2, h⟩ := Option.bind_eq_some_iff.mp h
  obtain rfl := Option.some.inj h
  exact ⟨hv.x.near, hv.y.near, sect_near hi hp.height hq.height hp.x hq.x hopposite hx2,
    sect_near hj hp.height hq.height hp.y hq.y hopposite hy2⟩

theorem sideSide_near (hi : i < 2 ^ 18) (hj : j < 2 ^ 18) (hp : InBox i j p) (hq : InBox i j q)
    (hp' : InBox i j p') (hq' : InBox i j q') (hopposite : p.h * q.h < 0)
    (hopposite' : p'.h * q'.h < 0) (h : sideSide (floats single) p q p' q' = some s) :
    SegmentNear i j s := by
  obtain ⟨x1, hx1, h⟩ := Option.bind_eq_some_iff.mp h
  obtain ⟨y1, hy1, h⟩ := Option.bind_eq_some_iff.mp h
  obtain ⟨x2, hx2, h⟩ := Option.bind_eq_some_iff.mp h
  obtain ⟨y2, hy2, h⟩ := Option.bind_eq_some_iff.mp h
  obtain rfl := Option.some.inj h
  exact ⟨sect_near hi hp.height hq.height hp.x hq.x hopposite hx1,
    sect_near hj hp.height hq.height hp.y hq.y hopposite hy1,
    sect_near hi hp'.height hq'.height hp'.x hq'.x hopposite' hx2,
    sect_near hj hp'.height hq'.height hp'.y hq'.y hopposite' hy2⟩

/-- No line of a triangle leaves the box of the triangle by half a pixel. -/
theorem line_near (hi : i < 2 ^ 18) (hj : j < 2 ^ 18) {t : Triangle}
    (ht : ∀ v ∈ [t.v1, t.v2, t.v3], InBox i j v) (h : t.line (floats single) = some s) :
    SegmentNear i j s := by
  rcases line_cases h with ⟨v, hv, p, hp, rfl⟩ | ⟨v, hv, p, hp, q, hq, hopposite, h⟩ |
    ⟨p, hp, q, hq, p', hp', q', hq', hopposite, hopposite', h⟩
  · exact ⟨(ht v hv).x.near, (ht v hv).y.near, (ht p hp).x.near, (ht p hp).y.near⟩
  · exact vertexSide_near hi hj (ht v hv) (ht p hp) (ht q hq) hopposite h
  · exact sideSide_near hi hj (ht p hp) (ht q hq) (ht p' hp') (ht q' hq') hopposite hopposite' h

end Ends

end XWebQL.ContourFloats
