import Mathlib.Algebra.Order.Group.Unbundled.Int
import Mathlib.Algebra.Order.Ring.Abs
import Mathlib.Data.List.Nodup
import Mathlib.Data.List.Range
import Mathlib.Tactic.IntervalCases
import Mathlib.Tactic.Linarith
import Mathlib.Tactic.LinearCombination
import Mathlib.Tactic.Ring

/-! Straight lines on a grid of pixels.
A line that runs through `M` columns while it climbs `m` rows is drawn as a stair: every
column has one pixel, in the row that is nearest to the line. What is left to the next
step up is kept as a remainder, which one addition carries on to the next column. -/

namespace XWebQL.DigitalLine

section Stair

variable {M m k : ℕ}

/-- The row of column `k`. -/
def stair (M m k : ℕ) : ℕ := (k * m + (M - 1) / 2) / M

def remainder (M m k : ℕ) : ℤ := (M / 2 : ℕ) - k * m + M * stair M m k

/-- The remainder counts down where the remainder of the division counts up. -/
theorem remainder_eq (hM : 0 < M) :
    remainder M m k = M - 1 - ((k * m + (M - 1) / 2 : ℕ) % M : ℕ) := by
  have hdivision : M * stair M m k + (k * m + (M - 1) / 2) % M = k * m + (M - 1) / 2 :=
    Nat.div_add_mod _ _
  have hcast : (M * stair M m k : ℤ) + ((k * m + (M - 1) / 2 : ℕ) % M : ℕ) =
      k * m + ((M - 1) / 2 : ℕ) := by exact_mod_cast hdivision
  rw [remainder]
  have hhalves : ((M / 2 : ℕ) : ℤ) + ((M - 1) / 2 : ℕ) = M - 1 := by omega
  linarith

theorem remainder_mem (hM : 0 < M) : 0 ≤ remainder M m k ∧ remainder M m k < M := by
  have hmod := Nat.mod_lt (k * m + (M - 1) / 2) hM
  rw [remainder_eq hM]
  omega

theorem stair_zero (M m : ℕ) : stair M m 0 = 0 := by
  rw [stair, Nat.zero_mul, Nat.zero_add]
  rcases M.eq_zero_or_pos with rfl | hM
  · rfl
  · exact Nat.div_eq_of_lt (by omega)

theorem stair_last (hm : m ≤ M) : stair M m M = m := by
  rcases M.eq_zero_or_pos with rfl | hM
  · rw [stair_zero]
    omega
  · have hhalf : (M - 1) / 2 / M = 0 := Nat.div_eq_of_lt (by omega)
    rw [stair, Nat.mul_add_div hM, hhalf, Nat.add_zero]

theorem stair_mono {k' : ℕ} (h : k ≤ k') : stair M m k ≤ stair M m k' :=
  Nat.div_le_div_right (Nat.add_le_add_right (Nat.mul_le_mul_right m h) _)

theorem stair_succ (hM : 0 < M) (hm : m ≤ M) :
    stair M m (k + 1) = if remainder M m k < m then stair M m k + 1 else stair M m k := by
  have hmod := Nat.mod_lt (k * m + (M - 1) / 2) hM
  have hdivision := Nat.div_add_mod (k * m + (M - 1) / 2) M
  have hnext : (k + 1) * m + (M - 1) / 2 =
      M * stair M m k + ((k * m + (M - 1) / 2) % M + m) := by
    rw [Nat.succ_mul, stair]
    omega
  rw [remainder_eq hM, stair, hnext, Nat.mul_add_div hM]
  split_ifs with h
  · have hone : ((k * m + (M - 1) / 2) % M + m) / M = 1 :=
      Nat.div_eq_of_lt_le (by omega) (by omega)
    rw [hone]
  · have hnone : ((k * m + (M - 1) / 2) % M + m) / M = 0 := Nat.div_eq_of_lt (by omega)
    rw [hnone, Nat.add_zero]

theorem remainder_succ (hM : 0 < M) (hm : m ≤ M) :
    remainder M m (k + 1) =
      if remainder M m k < m then remainder M m k - m + M else remainder M m k - m := by
  have hstair := stair_succ (k := k) hM hm
  split_ifs at hstair ⊢ with h
  · rw [remainder, hstair, remainder]
    push_cast
    ring
  · rw [remainder, hstair, remainder]
    push_cast
    ring

theorem stair_touching (hM : 0 < M) (hm : m ≤ M) :
    stair M m k ≤ stair M m (k + 1) ∧ stair M m (k + 1) ≤ stair M m k + 1 := by
  rw [stair_succ hM hm]
  split_ifs
  · omega
  · omega

theorem stair_near (hk : k ≤ M) : 2 * |(k * m : ℤ) - stair M m k * M| ≤ M := by
  rcases M.eq_zero_or_pos with rfl | hM
  · obtain rfl := Nat.le_zero.mp hk
    simp
  · have hmem := remainder_mem (M := M) (m := m) (k := k) hM
    rw [remainder, mul_comm (M : ℤ)] at hmem
    have hnear : |(k * m : ℤ) - stair M m k * M| ≤ (M / 2 : ℕ) := by
      rw [abs_le]
      omega
    omega

theorem stair_le (hm : m ≤ M) (hk : k ≤ M) : stair M m k ≤ m :=
  (stair_mono hk).trans (stair_last hm).le

end Stair

section Points

/-- The distance of two columns or rows, and the direction from the first to the second. -/
def distance (a b : ℤ) : ℕ := (b - a).natAbs

def direction (a b : ℤ) : ℤ := if a < b then 1 else -1

variable {a b : ℤ}

theorem direction_mul_distance (a b : ℤ) : direction a b * distance a b = b - a := by
  rw [direction, distance]
  split_ifs with h
  · omega
  · omega

theorem abs_direction_mul (a b n : ℤ) : |direction a b * n| = |n| := by
  rw [direction]
  split_ifs
  · rw [one_mul]
  · rw [neg_one_mul, abs_neg]

theorem cast_distance (a b : ℤ) : (distance a b : ℤ) = |b - a| := Int.natCast_natAbs _

theorem between_of_le {k : ℕ} (h : k ≤ distance a b) :
    min a b ≤ a + direction a b * k ∧ a + direction a b * k ≤ max a b := by
  rw [distance] at h
  rw [direction]
  split_ifs with hab
  · omega
  · omega

/-- The pixel number `k` of the line from `(x0, y0)` to `(x1, y1)`. -/
def point (x0 y0 x1 y1 : ℤ) (k : ℕ) : ℤ × ℤ :=
  if distance y0 y1 < distance x0 x1 then
    (x0 + direction x0 x1 * k,
      y0 + direction y0 y1 * stair (distance x0 x1) (distance y0 y1) k)
  else
    (x0 + direction x0 x1 * stair (distance y0 y1) (distance x0 x1) k,
      y0 + direction y0 y1 * k)

def steps (x0 y0 x1 y1 : ℤ) : ℕ := max (distance x0 x1) (distance y0 y1)

def points (x0 y0 x1 y1 : ℤ) : List (ℤ × ℤ) :=
  (List.range (steps x0 y0 x1 y1 + 1)).map (point x0 y0 x1 y1)

/-- What makes a list of pixels a line between two pixels: it leads from the one to the
other, every pixel touches the next one, and none is farther than half a pixel from the
straight line, measured along the shorter distance. -/
structure IsLine (x0 y0 x1 y1 : ℤ) (l : List (ℤ × ℤ)) : Prop where
  head : l.head? = some (x0, y0)
  last : l.getLast? = some (x1, y1)
  touching : l.IsChain fun p q => p ≠ q ∧ |q.1 - p.1| ≤ 1 ∧ |q.2 - p.2| ≤ 1
  near : ∀ p ∈ l, 2 * |(p.1 - x0) * (y1 - y0) - (p.2 - y0) * (x1 - x0)| ≤
    max |x1 - x0| |y1 - y0|
  inside : ∀ p ∈ l, min x0 x1 ≤ p.1 ∧ p.1 ≤ max x0 x1 ∧ min y0 y1 ≤ p.2 ∧ p.2 ≤ max y0 y1
  nodup : l.Nodup

variable {x0 y0 x1 y1 : ℤ}

theorem point_wide (h : distance y0 y1 < distance x0 x1) (k : ℕ) : point x0 y0 x1 y1 k =
    (x0 + direction x0 x1 * k,
      y0 + direction y0 y1 * stair (distance x0 x1) (distance y0 y1) k) :=
  if_pos h

theorem point_tall (h : distance x0 x1 ≤ distance y0 y1) (k : ℕ) : point x0 y0 x1 y1 k =
    (x0 + direction x0 x1 * stair (distance y0 y1) (distance x0 x1) k,
      y0 + direction y0 y1 * k) :=
  if_neg h.not_gt

theorem steps_wide (h : distance y0 y1 < distance x0 x1) :
    steps x0 y0 x1 y1 = distance x0 x1 := max_eq_left h.le

theorem steps_tall (h : distance x0 x1 ≤ distance y0 y1) :
    steps x0 y0 x1 y1 = distance y0 y1 := max_eq_right h

theorem point_zero : point x0 y0 x1 y1 0 = (x0, y0) := by
  rw [point]
  split_ifs <;> simp [stair_zero]

theorem point_last : point x0 y0 x1 y1 (steps x0 y0 x1 y1) = (x1, y1) := by
  have hx := direction_mul_distance x0 x1
  have hy := direction_mul_distance y0 y1
  rcases lt_or_ge (distance y0 y1) (distance x0 x1) with h | h
  · rw [steps_wide h, point_wide h, stair_last h.le]
    ext <;> linarith
  · rw [steps_tall h, point_tall h, stair_last h]
    ext <;> linarith

theorem point_touching {k : ℕ} (hk : k < steps x0 y0 x1 y1) :
    point x0 y0 x1 y1 k ≠ point x0 y0 x1 y1 (k + 1) ∧
      |(point x0 y0 x1 y1 (k + 1)).1 - (point x0 y0 x1 y1 k).1| ≤ 1 ∧
      |(point x0 y0 x1 y1 (k + 1)).2 - (point x0 y0 x1 y1 k).2| ≤ 1 := by
  have hmove : ∀ (a b c : ℤ) (s t : ℕ), |c + direction a b * t - (c + direction a b * s)| =
      |(t : ℤ) - s| := fun a b c s t => by
    rw [add_sub_add_left_eq_sub, ← mul_sub, abs_direction_mul]
  have hone : |((k + 1 : ℕ) : ℤ) - k| = 1 := by
    rw [Nat.cast_succ, add_sub_cancel_left, abs_one]
  have hfar : ∀ {p q : ℤ × ℤ}, |q.1 - p.1| = 1 ∨ |q.2 - p.2| = 1 → p ≠ q := by
    rintro p q h rfl
    simp at h
  rcases lt_or_ge (distance y0 y1) (distance x0 x1) with h | h
  · rw [steps_wide h] at hk
    have hstair := stair_touching (k := k) (Nat.zero_lt_of_lt hk) h.le
    simp only [point_wide h, hmove, hone]
    refine ⟨hfar (.inl ?_), le_rfl, ?_⟩
    · rw [hmove, hone]
    · rw [abs_le]
      omega
  · rw [steps_tall h] at hk
    have hstair := stair_touching (k := k) (Nat.zero_lt_of_lt hk) h
    simp only [point_tall h, hmove, hone]
    refine ⟨hfar (.inr ?_), ?_, le_rfl⟩
    · rw [hmove, hone]
    · rw [abs_le]
      omega

theorem point_near {k : ℕ} (hk : k ≤ steps x0 y0 x1 y1) :
    2 * |((point x0 y0 x1 y1 k).1 - x0) * (y1 - y0) - ((point x0 y0 x1 y1 k).2 - y0) * (x1 - x0)|
      ≤ max |x1 - x0| |y1 - y0| := by
  have hx := direction_mul_distance x0 x1
  have hy := direction_mul_distance y0 y1
  rw [← cast_distance x0 x1, ← cast_distance y0 y1]
  rcases lt_or_ge (distance y0 y1) (distance x0 x1) with h | h
  · rw [steps_wide h] at hk
    rw [max_eq_left (by exact_mod_cast h.le), point_wide h, ← hx, ← hy]
    dsimp only
    have hcross : (x0 + direction x0 x1 * k - x0) * (direction y0 y1 * distance y0 y1) -
        (y0 + direction y0 y1 * stair (distance x0 x1) (distance y0 y1) k - y0) *
          (direction x0 x1 * distance x0 x1) =
        direction x0 x1 * (direction y0 y1 * (k * distance y0 y1 -
          stair (distance x0 x1) (distance y0 y1) k * distance x0 x1)) := by ring
    rw [hcross, abs_direction_mul, abs_direction_mul]
    exact stair_near hk
  · rw [steps_tall h] at hk
    rw [max_eq_right (by exact_mod_cast h), point_tall h, ← hx, ← hy]
    dsimp only
    have hcross : (x0 + direction x0 x1 * stair (distance y0 y1) (distance x0 x1) k - x0) *
          (direction y0 y1 * distance y0 y1) -
        (y0 + direction y0 y1 * k - y0) * (direction x0 x1 * distance x0 x1) =
        direction x0 x1 * (direction y0 y1 *
          -(k * distance x0 x1 - stair (distance y0 y1) (distance x0 x1) k * distance y0 y1)) := by
      ring
    rw [hcross, abs_direction_mul, abs_direction_mul, abs_neg]
    exact stair_near hk

theorem point_inside {k : ℕ} (hk : k ≤ steps x0 y0 x1 y1) :
    (min x0 x1 ≤ (point x0 y0 x1 y1 k).1 ∧ (point x0 y0 x1 y1 k).1 ≤ max x0 x1) ∧
      min y0 y1 ≤ (point x0 y0 x1 y1 k).2 ∧ (point x0 y0 x1 y1 k).2 ≤ max y0 y1 := by
  rcases lt_or_ge (distance y0 y1) (distance x0 x1) with h | h
  · rw [steps_wide h] at hk
    rw [point_wide h]
    exact ⟨between_of_le hk, between_of_le (stair_le h.le hk)⟩
  · rw [steps_tall h] at hk
    rw [point_tall h]
    exact ⟨between_of_le (stair_le h hk), between_of_le hk⟩

theorem point_injective : Function.Injective (point x0 y0 x1 y1) := by
  have hmove : ∀ {a b c : ℤ} {k k' : ℕ},
      c + direction a b * k = c + direction a b * k' → k = k' := by
    intro a b c k k' h
    have hzero : |direction a b * ((k : ℤ) - k')| = 0 := by
      rw [abs_eq_zero]
      linarith
    rw [abs_direction_mul, abs_eq_zero] at hzero
    omega
  intro k k' heq
  rcases lt_or_ge (distance y0 y1) (distance x0 x1) with h | h
  · rw [point_wide h, point_wide h] at heq
    exact hmove (Prod.ext_iff.mp heq).1
  · rw [point_tall h, point_tall h] at heq
    exact hmove (Prod.ext_iff.mp heq).2

theorem points_isLine (x0 y0 x1 y1 : ℤ) : IsLine x0 y0 x1 y1 (points x0 y0 x1 y1) where
  head := by
    rw [points, List.range_succ_eq_map, List.map_cons, List.head?_cons, point_zero]
  last := by
    rw [points, List.range_succ, List.map_append, List.map_singleton, List.getLast?_concat,
      point_last]
  touching := by
    rw [points, List.isChain_map, List.isChain_range_succ]
    exact fun k hk => point_touching hk
  near p hp := by
    obtain ⟨k, hk, rfl⟩ := List.mem_map.mp hp
    exact point_near (Nat.lt_succ_iff.mp (List.mem_range.mp hk))
  inside p hp := by
    obtain ⟨k, hk, rfl⟩ := List.mem_map.mp hp
    obtain ⟨hx, hy⟩ := point_inside (Nat.lt_succ_iff.mp (List.mem_range.mp hk))
    exact ⟨hx.1, hx.2, hy⟩
  nodup := List.Nodup.map point_injective List.nodup_range

theorem mem_points_of_steps_le (h : steps x0 y0 x1 y1 ≤ 1) {q : ℤ × ℤ} :
    q ∈ points x0 y0 x1 y1 ↔ q = (x0, y0) ∨ q = (x1, y1) := by
  have hzero : point x0 y0 x1 y1 0 = (x0, y0) := point_zero
  have hlast : point x0 y0 x1 y1 (steps x0 y0 x1 y1) = (x1, y1) := point_last
  rw [points]
  generalize steps x0 y0 x1 y1 = n at *
  interval_cases n
  · rw [hzero] at hlast
    simp [hzero, ← hlast]
  · simp [List.range_succ, hzero, hlast]

end Points

end XWebQL.DigitalLine
