import Mathlib.Algebra.BigOperators.Group.Finset.Piecewise
import Mathlib.Algebra.BigOperators.Group.List.Basic
import Mathlib.Algebra.Order.BigOperators.Group.List
import Mathlib.Algebra.Order.Ring.Rat
import Mathlib.Tactic.Linarith
import Mathlib.Tactic.NormNum

/-! Integer points counted in the unit bins of a rectangle.
A histogram routine is given by its counts and by the one thing that is relied
on: a point is counted in the unit bin that contains it. Everything else is
about the grid of counts: its total, and the grid of a smaller rectangle. -/

namespace XWebQL.UnitGrid

/-- `(lo-0.5):1:(hi+0.5)` -/
def unitEdges (lo hi : ℤ) : List ℚ :=
  (List.range (hi + 2 - lo).toNat).map fun i : ℕ => (lo : ℚ) - 1 / 2 + i

/-- The value lies between the edges `i` and `i+1`, counted from zero. -/
def InUnitBin (lo : ℤ) (i : ℕ) (v : ℤ) : Prop :=
  (lo : ℚ) - 1 / 2 + i ≤ v ∧ (v : ℚ) < lo - 1 / 2 + (i + 1)

instance (lo : ℤ) (i : ℕ) (v : ℤ) : Decidable (InUnitBin lo i v) :=
  inferInstanceAs (Decidable (_ ∧ _))

def grid (width height : ℕ) (count : ℕ → ℕ → ℕ) : List (List ℕ) :=
  (List.range width).map fun i => (List.range height).map (count i)

def total (cells : List (List ℕ)) : ℕ := (cells.map List.sum).sum

def window (cells : List (List ℕ)) (x₁ x₂ y₁ y₂ : ℕ) : List (List ℕ) :=
  ((cells.drop x₁).take (x₂ + 1 - x₁)).map fun column => (column.drop y₁).take (y₂ + 1 - y₁)

structure Rectangle where
  x₁ : ℤ
  x₂ : ℤ
  y₁ : ℤ
  y₂ : ℤ
deriving DecidableEq

def Rectangle.Contains (r : Rectangle) (p : ℤ × ℤ) : Prop :=
  r.x₁ ≤ p.1 ∧ p.1 ≤ r.x₂ ∧ r.y₁ ≤ p.2 ∧ p.2 ≤ r.y₂

instance (r : Rectangle) (p : ℤ × ℤ) : Decidable (r.Contains p) :=
  inferInstanceAs (Decidable (_ ∧ _))

def Rectangle.width (r : Rectangle) : ℕ := (r.x₂ + 1 - r.x₁).toNat

def Rectangle.height (r : Rectangle) : ℕ := (r.y₂ + 1 - r.y₁).toNat

/-- A two-dimensional histogram that counts, over unit bins around the pixels of
a rectangle, every point of the rectangle in the bin that contains it. -/
structure Hist2D where
  bincounts : List (ℤ × ℤ) → List ℚ → List ℚ → List (List ℕ)
  unit_bins : ∀ (points : List (ℤ × ℤ)) (r : Rectangle), (∀ p ∈ points, r.Contains p) →
    bincounts points (unitEdges r.x₁ r.x₂) (unitEdges r.y₁ r.y₂) =
      grid r.width r.height fun i j =>
        points.countP fun p => InUnitBin r.x₁ i p.1 ∧ InUnitBin r.y₁ j p.2

def pixelCounts (points : List (ℤ × ℤ)) (r : Rectangle) : List (List ℕ) :=
  grid r.width r.height fun i j => points.countP fun p => p = (r.x₁ + i, r.y₁ + j)

theorem inUnitBin_iff {lo : ℤ} {i : ℕ} {v : ℤ} : InUnitBin lo i v ↔ v = lo + i := by
  constructor
  · rintro ⟨h₁, h₂⟩
    have h₁' : ((lo + i : ℤ) : ℚ) < ((v + 1 : ℤ) : ℚ) := by
      push_cast
      linarith
    have h₂' : (v : ℚ) < ((lo + i + 1 : ℤ) : ℚ) := by
      push_cast
      linarith
    have := Int.cast_lt.mp h₁'
    have := Int.cast_lt.mp h₂'
    omega
  · rintro rfl
    constructor <;> push_cast <;> linarith

theorem grid_congr {width height : ℕ} {f g : ℕ → ℕ → ℕ}
    (h : ∀ i j, i < width → j < height → f i j = g i j) :
    grid width height f = grid width height g :=
  List.map_congr_left fun i hi => List.map_congr_left fun j hj =>
    h i j (List.mem_range.mp hi) (List.mem_range.mp hj)

theorem Hist2D.bincounts_eq (hist : Hist2D) {points : List (ℤ × ℤ)} {r : Rectangle}
    (inside : ∀ p ∈ points, r.Contains p) :
    hist.bincounts points (unitEdges r.x₁ r.x₂) (unitEdges r.y₁ r.y₂) = pixelCounts points r := by
  rw [hist.unit_bins points r inside]
  refine grid_congr fun i j _ _ => List.countP_congr fun p _ => ?_
  simp [inUnitBin_iff, Prod.ext_iff]

theorem pixelCounts_filter (points : List (ℤ × ℤ)) (r : Rectangle) :
    pixelCounts (points.filter fun p => r.Contains p) r = pixelCounts points r := by
  apply grid_congr
  intro i j hi hj
  rw [List.countP_filter]
  apply List.countP_congr
  intro p _
  simp only [Bool.and_eq_true, decide_eq_true_eq, and_iff_left_iff_imp]
  rintro rfl
  simp only [Rectangle.width, Rectangle.height] at hi hj
  refine ⟨?_, ?_, ?_, ?_⟩ <;> simp only <;> omega

theorem sum_countP_range {α : Type*} (n : ℕ) (lo : ℤ) (f : α → ℤ) (q : α → Prop)
    [DecidablePred q] (l : List α) (h : ∀ a ∈ l, q a → lo ≤ f a ∧ f a < lo + n) :
    ((List.range n).map fun i : ℕ => l.countP fun a => f a = lo + i ∧ q a).sum =
      l.countP fun a => q a := by
  induction l with
  | nil => simp
  | cons a l ih =>
    simp only [List.countP_cons, List.sum_map_add]
    rw [ih fun b hb => h b (List.mem_cons_of_mem a hb)]
    congr 1
    by_cases hq : q a
    · obtain ⟨h₁, h₂⟩ := h a (by simp) hq
      obtain ⟨k, hk⟩ := Int.eq_ofNat_of_zero_le (sub_nonneg.mpr h₁)
      have hmem : k ∈ List.range n := by
        rw [List.mem_range]
        omega
      have hone : ∀ i : ℕ, f a = lo + i ↔ i = k := fun i => by omega
      simp only [hone, hq, and_true, decide_true, if_true, decide_eq_true_eq]
      exact (Finset.sum_ite_eq' (Finset.range n) k fun _ => 1).trans
        (if_pos (Finset.mem_range.mpr (List.mem_range.mp hmem)))
    · simp [hq]

theorem total_pixelCounts {points : List (ℤ × ℤ)} {r : Rectangle}
    (inside : ∀ p ∈ points, r.Contains p) : total (pixelCounts points r) = points.length := by
  have column : ∀ i : ℕ, ((List.range r.height).map fun j : ℕ =>
      points.countP fun p => p = (r.x₁ + i, r.y₁ + j)).sum =
        points.countP fun p => p.1 = r.x₁ + i ∧ True := by
    intro i
    rw [← sum_countP_range r.height r.y₁ Prod.snd (fun p => p.1 = r.x₁ + i ∧ True) points]
    · congr 1
      refine List.map_congr_left fun j _ => List.countP_congr fun p _ => ?_
      simp [Prod.ext_iff, and_comm]
    · intro p hp _
      obtain ⟨_, _, h₁, h₂⟩ := inside p hp
      simp only [Rectangle.height]
      omega
  rw [total, pixelCounts, grid, List.map_map]
  simp only [Function.comp_def, column]
  rw [sum_countP_range r.width r.x₁ Prod.fst (fun _ => True) points]
  · simp
  · intro p hp _
    obtain ⟨h₁, h₂, _⟩ := inside p hp
    simp only [Rectangle.width]
    omega

theorem window_grid {width height : ℕ} (count : ℕ → ℕ → ℕ) {x₁ x₂ y₁ y₂ : ℕ}
    (hx : x₂ < width) (hy : y₂ < height) :
    window (grid width height count) x₁ x₂ y₁ y₂ =
      grid (x₂ + 1 - x₁) (y₂ + 1 - y₁) fun i j => count (x₁ + i) (y₁ + j) := by
  have part : ∀ {α : Type} (n a b : ℕ) (f : ℕ → α), b < n →
      (((List.range n).map f).drop a).take (b + 1 - a) =
        (List.range (b + 1 - a)).map fun i => f (a + i) := by
    intro α n a b f hb
    apply List.ext_getElem?
    intro i
    by_cases hi : i < b + 1 - a
    · simp [hi, show a + i < n by omega]
    · simp [hi]
  rw [window, grid, part width x₁ x₂ _ hx, List.map_map, grid]
  apply List.map_congr_left
  intro i _
  exact part height y₁ y₂ (count (x₁ + i)) hy

theorem window_pixelCounts (points : List (ℤ × ℤ)) (r : Rectangle) {x₁ x₂ y₁ y₂ : ℕ}
    (hx : x₂ < r.width) (hy : y₂ < r.height) :
    window (pixelCounts points r) x₁ x₂ y₁ y₂ =
      pixelCounts points ⟨r.x₁ + x₁, r.x₁ + x₂, r.y₁ + y₁, r.y₁ + y₂⟩ := by
  rw [pixelCounts, window_grid _ hx hy, pixelCounts]
  have hwidth : (⟨r.x₁ + x₁, r.x₁ + x₂, r.y₁ + y₁, r.y₁ + y₂⟩ : Rectangle).width =
      x₂ + 1 - x₁ := by
    simp only [Rectangle.width]
    omega
  have hheight : (⟨r.x₁ + x₁, r.x₁ + x₂, r.y₁ + y₁, r.y₁ + y₂⟩ : Rectangle).height =
      y₂ + 1 - y₁ := by
    simp only [Rectangle.height]
    omega
  rw [hwidth, hheight]
  apply grid_congr
  intro i j _ _
  simp only [Nat.cast_add, add_assoc]

def countingBins (points : List (ℤ × ℤ)) (xedges yedges : List ℚ) : List (List ℕ) :=
  grid (xedges.length - 1) (yedges.length - 1) fun i j =>
    points.countP fun p =>
      (xedges.getD i 0 ≤ p.1 ∧ (p.1 : ℚ) < xedges.getD (i + 1) 0) ∧
        yedges.getD j 0 ≤ p.2 ∧ (p.2 : ℚ) < yedges.getD (j + 1) 0

theorem unitEdges_getD {lo hi : ℤ} {i : ℕ} (h : i < (hi + 2 - lo).toNat) :
    (unitEdges lo hi).getD i 0 = (lo : ℚ) - 1 / 2 + i := by
  simp [unitEdges, List.getElem?_range h]

def Hist2D.counting : Hist2D where
  bincounts := countingBins
  unit_bins points r _ := by
    have hwidth : (unitEdges r.x₁ r.x₂).length - 1 = r.width := by
      simp only [unitEdges, List.length_map, List.length_range, Rectangle.width]
      omega
    have hheight : (unitEdges r.y₁ r.y₂).length - 1 = r.height := by
      simp only [unitEdges, List.length_map, List.length_range, Rectangle.height]
      omega
    rw [countingBins, hwidth, hheight]
    refine grid_congr fun i j hi hj => List.countP_congr fun p _ => ?_
    simp only [Rectangle.width, Rectangle.height] at hi hj
    rw [unitEdges_getD (by omega), unitEdges_getD (by omega), unitEdges_getD (by omega),
      unitEdges_getD (by omega)]
    rw [decide_eq_true_iff, decide_eq_true_iff]
    simp only [InUnitBin, Nat.cast_add, Nat.cast_one]

end XWebQL.UnitGrid
