import Mathlib.Algebra.Order.Group.Unbundled.Int
import Mathlib.Data.Set.Image
import Mathlib.Order.Bounds.Basic
import Mathlib.Tactic.Linarith
import Mathlib.Tactic.Ring

/-! The bounding box of the pixels of an image that hold data.
`true_image_dimensions` runs four scans with early exits over the mask. Each
one ends at an extreme of what it looks for; the scans over the columns read
only the rows that the first two have found. All counters are 32-bit, so the
rows are found as long as the mask has fewer than `2 ^ 31` entries. -/

namespace XWebQL.BoundingBox

structure IsBoundingBox (S : Set (ℤ × ℤ)) (x₁ y₁ width height : ℤ) : Prop where
  contains : ∀ p ∈ S, x₁ ≤ p.1 ∧ p.1 < x₁ + width ∧ y₁ ≤ p.2 ∧ p.2 < y₁ + height
  left : ∃ p ∈ S, p.1 = x₁
  right : ∃ p ∈ S, p.1 = x₁ + width - 1
  top : ∃ p ∈ S, p.2 = y₁
  bottom : ∃ p ∈ S, p.2 = y₁ + height - 1

section Box

variable {S : Set (ℤ × ℤ)} {x₁ x₂ y₁ y₂ : ℤ}

theorem IsBoundingBox.of_extremes (hx₁ : IsLeast (Prod.fst '' S) x₁)
    (hx₂ : IsGreatest (Prod.fst '' S) x₂) (hy₁ : IsLeast (Prod.snd '' S) y₁)
    (hy₂ : IsGreatest (Prod.snd '' S) y₂) :
    IsBoundingBox S x₁ y₁ (|x₂ - x₁| + 1) (|y₂ - y₁| + 1) := by
  have hx : x₁ ≤ x₂ := hx₁.2 hx₂.1
  have hy : y₁ ≤ y₂ := hy₁.2 hy₂.1
  rw [abs_of_nonneg (sub_nonneg.mpr hx), abs_of_nonneg (sub_nonneg.mpr hy)]
  refine ⟨fun p hp => ?_, hx₁.1, ?_, hy₁.1, ?_⟩
  · have hleft := hx₁.2 (Set.mem_image_of_mem _ hp)
    have hright := hx₂.2 (Set.mem_image_of_mem _ hp)
    have htop := hy₁.2 (Set.mem_image_of_mem _ hp)
    have hbottom := hy₂.2 (Set.mem_image_of_mem _ hp)
    refine ⟨hleft, ?_, htop, ?_⟩ <;> omega
  · obtain ⟨p, hp, hpx⟩ := hx₂.1
    exact ⟨p, hp, by omega⟩
  · obtain ⟨p, hp, hpy⟩ := hy₂.1
    exact ⟨p, hp, by omega⟩

theorem IsBoundingBox.smallest {width height a b w h : ℤ}
    (hbox : IsBoundingBox S x₁ y₁ width height)
    (hother : ∀ p ∈ S, a ≤ p.1 ∧ p.1 < a + w ∧ b ≤ p.2 ∧ p.2 < b + h) :
    a ≤ x₁ ∧ x₁ + width ≤ a + w ∧ b ≤ y₁ ∧ y₁ + height ≤ b + h := by
  obtain ⟨p, hp, hpx⟩ := hbox.left
  obtain ⟨q, hq, hqx⟩ := hbox.right
  obtain ⟨r, hr, hry⟩ := hbox.top
  obtain ⟨s, hs, hsy⟩ := hbox.bottom
  have hp' := hother p hp
  have hq' := hother q hq
  have hr' := hother r hr
  have hs' := hother s hs
  refine ⟨?_, ?_, ?_, ?_⟩ <;> omega

end Box

/-! `xwebql.js` -/

/-- `n | 0` -/
def int32 (n : ℤ) : ℤ := Int.bmod n (2 ^ 32)

/-- `for (i = first; ..; i = (i + step) | 0)` over `n` values, left by a `break`
at the first hit. -/
def scan (hit : ℤ → Bool) (step : ℤ) : ℕ → ℤ → Option ℤ
  | 0, _ => none
  | n + 1, i => if hit i then some i else scan hit step n (int32 (i + step))

/-- `alpha[i] > 0`; outside of the array this is `undefined > 0`. -/
def isSet (alpha : List UInt8) (i : ℤ) : Bool :=
  decide (0 ≤ i) && decide (0 < alpha.getD i.toNat 0)

def findY1 (alpha : List UInt8) (linesize length : ℤ) : ℤ :=
  ((scan (isSet alpha) 1 length.toNat 0).map fun i => int32 (i.tdiv linesize)).getD 0

def findY2 (alpha : List UInt8) (linesize length : ℤ) : ℤ :=
  ((scan (isSet alpha) (-1) length.toNat (length - 1)).map fun i =>
    int32 (i.tdiv linesize)).getD 0

def foundData (alpha : List UInt8) (linesize y1 y2 x : ℤ) : Bool :=
  (scan (fun y => isSet alpha (y * linesize + x)) 1 (y2 + 1 - y1).toNat y1).isSome

def findX1 (alpha : List UInt8) (width linesize y1 y2 : ℤ) : ℤ :=
  (scan (foundData alpha linesize y1 y2) 1 width.toNat 0).getD 0

def findX2 (alpha : List UInt8) (width linesize y1 y2 : ℤ) : ℤ :=
  (scan (foundData alpha linesize y1 y2) (-1) width.toNat (int32 (width - 1))).getD 0

structure Dimensions where
  x1 : ℤ
  y1 : ℤ
  x2 : ℤ
  y2 : ℤ
  width : ℤ
  height : ℤ
deriving DecidableEq

def trueImageDimensions (alpha : List UInt8) (width height : ℤ) : Dimensions :=
  let width := int32 width
  let height := int32 height
  let linesize := int32 width
  let length := int32 (width * height)
  let y1 := findY1 alpha linesize length
  let y2 := findY2 alpha linesize length
  let x1 := findX1 alpha width linesize y1 y2
  let x2 := findX2 alpha width linesize y1 y2
  { x1 := x1
    y1 := y1
    x2 := x2
    y2 := (height - 1) - y2
    width := |x2 - x1| + 1
    height := |y2 - y1| + 1 }

/-! What one scan finds. -/

theorem int32_of_mem {n : ℤ} (hlow : -2 ^ 31 ≤ n) (hhigh : n < 2 ^ 31) : int32 n = n := by
  rw [int32, Int.bmod_eq_of_le] <;> omega

theorem scan_cases {hit : ℤ → Bool} {step : ℤ} {n : ℕ} {i : ℤ}
    (hrange : ∀ k : ℕ, k ≤ n → -2 ^ 31 ≤ i + k * step ∧ i + k * step < 2 ^ 31) :
    (∃ k : ℕ, k < n ∧ scan hit step n i = some (i + k * step) ∧ hit (i + k * step) ∧
        ∀ j : ℕ, j < k → ¬hit (i + j * step)) ∨
      scan hit step n i = none ∧ ∀ j : ℕ, j < n → ¬hit (i + j * step) := by
  induction n generalizing i with
  | zero => exact .inr ⟨rfl, fun j hj => absurd hj (Nat.not_lt_zero j)⟩
  | succ n ih =>
    rw [scan]
    split_ifs with hi
    · refine .inl ⟨0, n.succ_pos, ?_, ?_, fun j hj => absurd hj (Nat.not_lt_zero j)⟩ <;> simp [hi]
    · have hmove (k : ℕ) : i + step + k * step = i + (k + 1 : ℕ) * step := by
        push_cast
        ring
      have hprefix (m : ℕ) (h : ∀ j : ℕ, j < m → ¬hit (i + step + j * step)) :
          ∀ j : ℕ, j < m + 1 → ¬hit (i + j * step) := by
        intro j hj
        cases j with
        | zero => simpa using hi
        | succ j =>
          rw [← hmove]
          exact h j (by omega)
      have hnext : int32 (i + step) = i + step := by
        have hstep := hrange 1 (by omega)
        rw [Nat.cast_one, one_mul] at hstep
        exact int32_of_mem hstep.1 hstep.2
      have hrest : ∀ k : ℕ, k ≤ n →
          -2 ^ 31 ≤ i + step + k * step ∧ i + step + k * step < 2 ^ 31 := by
        intro k hk
        rw [hmove]
        exact hrange (k + 1) (by omega)
      rw [hnext]
      rcases ih hrest with ⟨k, hk, hscan, hhit, hall⟩ | ⟨hscan, hall⟩
      · rw [hmove] at hscan hhit
        exact .inl ⟨k + 1, by omega, hscan, hhit, hprefix k hall⟩
      · exact .inr ⟨hscan, hprefix n hall⟩

section Range

variable {hit : ℤ → Bool} {first last : ℤ}

theorem scan_up_cases (hlow : 0 ≤ first) (hle : first ≤ last) (hhigh : last < 2 ^ 31) :
    (∃ r, scan hit 1 (last - first).toNat first = some r ∧
        IsLeast {j | (first ≤ j ∧ j < last) ∧ hit j} r) ∨
      scan hit 1 (last - first).toNat first = none ∧ ∀ j, first ≤ j → j < last → ¬hit j := by
  have hindex (j : ℤ) (hj : first ≤ j) : first + (j - first).toNat * 1 = j := by omega
  have hrange : ∀ k : ℕ, k ≤ (last - first).toNat →
      -2 ^ 31 ≤ first + k * (1 : ℤ) ∧ first + k * (1 : ℤ) < 2 ^ 31 := by
    intro k hk
    omega
  rcases scan_cases hrange with ⟨k, hk, hscan, hhit, hall⟩ | ⟨hscan, hall⟩
  · refine .inl ⟨_, hscan, ⟨⟨by omega, by omega⟩, hhit⟩, ?_⟩
    rintro j ⟨⟨hfirst, hlast⟩, hj⟩
    by_contra hlt
    exact hall (j - first).toNat (by omega) (by rwa [hindex j hfirst])
  · refine .inr ⟨hscan, fun j hfirst hlast hj => ?_⟩
    exact hall (j - first).toNat (by omega) (by rwa [hindex j hfirst])

theorem scan_down_cases (hlow : 0 ≤ first) (hle : first ≤ last) (hhigh : last < 2 ^ 31) :
    (∃ r, scan hit (-1) (last - first).toNat (last - 1) = some r ∧
        IsGreatest {j | (first ≤ j ∧ j < last) ∧ hit j} r) ∨
      scan hit (-1) (last - first).toNat (last - 1) = none ∧
        ∀ j, first ≤ j → j < last → ¬hit j := by
  have hindex (j : ℤ) (hj : j < last) : last - 1 + (last - 1 - j).toNat * (-1) = j := by omega
  have hrange : ∀ k : ℕ, k ≤ (last - first).toNat →
      -2 ^ 31 ≤ last - 1 + k * (-1 : ℤ) ∧ last - 1 + k * (-1 : ℤ) < 2 ^ 31 := by
    intro k hk
    omega
  rcases scan_cases hrange with ⟨k, hk, hscan, hhit, hall⟩ | ⟨hscan, hall⟩
  · refine .inl ⟨_, hscan, ⟨⟨by omega, by omega⟩, hhit⟩, ?_⟩
    rintro j ⟨⟨hfirst, hlast⟩, hj⟩
    by_contra hlt
    exact hall (last - 1 - j).toNat (by omega) (by rwa [hindex j hlast])
  · refine .inr ⟨hscan, fun j hfirst hlast hj => ?_⟩
    exact hall (last - 1 - j).toNat (by omega) (by rwa [hindex j hlast])

theorem scan_up_isLeast (hlow : 0 ≤ first) (hhigh : last < 2 ^ 31)
    (h : ∃ j, (first ≤ j ∧ j < last) ∧ hit j) :
    ∃ r, scan hit 1 (last - first).toNat first = some r ∧
      IsLeast {j | (first ≤ j ∧ j < last) ∧ hit j} r := by
  obtain ⟨j, ⟨hfirst, hlast⟩, hj⟩ := h
  rcases scan_up_cases hlow (hfirst.trans hlast.le) hhigh with hfound | ⟨-, hnone⟩
  · exact hfound
  · exact absurd hj (hnone j hfirst hlast)

theorem scan_down_isGreatest (hlow : 0 ≤ first) (hhigh : last < 2 ^ 31)
    (h : ∃ j, (first ≤ j ∧ j < last) ∧ hit j) :
    ∃ r, scan hit (-1) (last - first).toNat (last - 1) = some r ∧
      IsGreatest {j | (first ≤ j ∧ j < last) ∧ hit j} r := by
  obtain ⟨j, ⟨hfirst, hlast⟩, hj⟩ := h
  rcases scan_down_cases hlow (hfirst.trans hlast.le) hhigh with hfound | ⟨-, hnone⟩
  · exact hfound
  · exact absurd hj (hnone j hfirst hlast)

theorem scan_up_isSome_iff (hlow : 0 ≤ first) (hle : first ≤ last) (hhigh : last < 2 ^ 31) :
    (scan hit 1 (last - first).toNat first).isSome ↔
      ∃ j, (first ≤ j ∧ j < last) ∧ hit j := by
  constructor
  · intro h
    rcases scan_up_cases hlow hle hhigh with ⟨r, -, hleast⟩ | ⟨hnone, -⟩
    · exact ⟨r, hleast.1⟩
    · rw [hnone] at h
      exact absurd h Bool.false_ne_true
  · intro h
    obtain ⟨r, hr, -⟩ := scan_up_isLeast hlow hhigh h
    rw [hr]
    rfl

end Range

/-! The pixels that are set, by their columns and rows. -/

def setPixels (alpha : List UInt8) (width height : ℤ) : Set (ℤ × ℤ) :=
  {p | (0 ≤ p.1 ∧ p.1 < width) ∧ (0 ≤ p.2 ∧ p.2 < height) ∧ isSet alpha (p.2 * width + p.1)}

section Scans

variable {alpha : List UInt8} {width height : ℤ}

theorem mem_setPixels_of_index (hw : 0 < width) {i : ℤ} (hlow : 0 ≤ i) (hhigh : i < width * height)
    (hi : isSet alpha i) : (i % width, i / width) ∈ setPixels alpha width height := by
  refine ⟨⟨Int.emod_nonneg _ hw.ne', Int.emod_lt_of_pos _ hw⟩,
    ⟨Int.ediv_nonneg hlow hw.le, Int.ediv_lt_of_lt_mul hw ?_⟩, ?_⟩
  · rw [mul_comm]
    exact hhigh
  · rw [Int.ediv_mul_add_emod]
    exact hi

theorem index_lt {x y : ℤ} (hx : x < width) (hy : y < height) (hw : 0 ≤ width) :
    y * width + x < width * height := by
  nlinarith

theorem index_div {x y : ℤ} (hx₀ : 0 ≤ x) (hx : x < width) : (y * width + x) / width = y := by
  rw [add_comm, Int.add_mul_ediv_right _ _ (by omega), Int.ediv_eq_zero_of_lt hx₀ hx, zero_add]

def setIndices (alpha : List UInt8) (width height : ℤ) : Set ℤ :=
  {i | (0 ≤ i ∧ i < width * height) ∧ isSet alpha i}

theorem index_mem {p : ℤ × ℤ} (h : p ∈ setPixels alpha width height) :
    p.2 * width + p.1 ∈ setIndices alpha width height := by
  obtain ⟨⟨hx₀, hx⟩, ⟨hy₀, hy⟩, hp⟩ := h
  have hw : 0 ≤ width := hx₀.trans hx.le
  exact ⟨⟨by positivity, index_lt hx hy hw⟩, hp⟩

theorem rows_eq (hw : 0 < width) :
    Prod.snd '' setPixels alpha width height = (· / width) '' setIndices alpha width height := by
  ext y
  constructor
  · rintro ⟨p, hp, rfl⟩
    exact ⟨_, index_mem hp, index_div hp.1.1 hp.1.2⟩
  · rintro ⟨i, ⟨⟨hlow, hhigh⟩, hi⟩, rfl⟩
    exact ⟨_, mem_setPixels_of_index hw hlow hhigh hi, rfl⟩

theorem int32_row (hw : 0 < width) {i : ℤ} (hlow : 0 ≤ i) (hhigh : i < 2 ^ 31) :
    int32 (i.tdiv width) = i / width := by
  have hle := Int.ediv_le_self width hlow
  have hnonneg := Int.ediv_nonneg hlow hw.le
  rw [Int.tdiv_eq_ediv_of_nonneg hlow]
  exact int32_of_mem (by omega) (by omega)

variable (hw : 0 < width) (hsize : width * height < 2 ^ 31)
  (hne : (setIndices alpha width height).Nonempty)

include hw hsize hne in
theorem findY1_isLeast :
    IsLeast (Prod.snd '' setPixels alpha width height)
      (findY1 alpha width (width * height)) := by
  obtain ⟨i, hscan, hleast⟩ := scan_up_isLeast le_rfl hsize hne
  obtain ⟨⟨hlow, hhigh⟩, -⟩ := hleast.1
  rw [sub_zero] at hscan
  rw [findY1, hscan, Option.map_some, Option.getD_some, int32_row hw hlow (by omega), rows_eq hw]
  have hmono : Monotone fun j : ℤ => j / width := fun _ _ h => Int.ediv_le_ediv hw h
  exact hmono.map_isLeast hleast

include hw hsize hne in
theorem findY2_isGreatest :
    IsGreatest (Prod.snd '' setPixels alpha width height)
      (findY2 alpha width (width * height)) := by
  obtain ⟨i, hscan, hgreatest⟩ := scan_down_isGreatest le_rfl hsize hne
  obtain ⟨⟨hlow, hhigh⟩, -⟩ := hgreatest.1
  rw [sub_zero] at hscan
  rw [findY2, hscan, Option.map_some, Option.getD_some, int32_row hw hlow (by omega), rows_eq hw]
  have hmono : Monotone fun j : ℤ => j / width := fun _ _ h => Int.ediv_le_ediv hw h
  exact hmono.map_isGreatest hgreatest

end Scans

section Columns

variable {alpha : List UInt8} {width height y1 y2 : ℤ}

theorem foundData_iff (hy₁ : IsLeast (Prod.snd '' setPixels alpha width height) y1)
    (hy₂ : IsGreatest (Prod.snd '' setPixels alpha width height) y2) (hheight : height < 2 ^ 31)
    {x : ℤ} (hx : 0 ≤ x ∧ x < width) :
    foundData alpha width y1 y2 x ↔ x ∈ Prod.fst '' setPixels alpha width height := by
  obtain ⟨p, ⟨-, ⟨hp₀, -⟩, -⟩, rfl⟩ := hy₁.1
  obtain ⟨q, ⟨-, ⟨-, hq⟩, -⟩, rfl⟩ := hy₂.1
  have hle : p.2 ≤ q.2 := hy₁.2 hy₂.1
  rw [foundData, scan_up_isSome_iff hp₀ (by omega) (by omega)]
  constructor
  · rintro ⟨y, ⟨hy, hy'⟩, hset⟩
    exact ⟨(x, y), ⟨hx, ⟨by omega, by omega⟩, hset⟩, rfl⟩
  · rintro ⟨r, hr, rfl⟩
    have hlow : p.2 ≤ r.2 := hy₁.2 (Set.mem_image_of_mem _ hr)
    have hhigh : r.2 ≤ q.2 := hy₂.2 (Set.mem_image_of_mem _ hr)
    exact ⟨r.2, ⟨hlow, by omega⟩, hr.2.2⟩

theorem columns_eq (hy₁ : IsLeast (Prod.snd '' setPixels alpha width height) y1)
    (hy₂ : IsGreatest (Prod.snd '' setPixels alpha width height) y2) (hheight : height < 2 ^ 31) :
    {x | (0 ≤ x ∧ x < width) ∧ foundData alpha width y1 y2 x} =
      Prod.fst '' setPixels alpha width height := by
  ext x
  constructor
  · rintro ⟨hx, hfound⟩
    exact (foundData_iff hy₁ hy₂ hheight hx).mp hfound
  · intro h
    obtain ⟨p, hp, rfl⟩ := h
    exact ⟨hp.1, (foundData_iff hy₁ hy₂ hheight hp.1).mpr ⟨p, hp, rfl⟩⟩

theorem exists_foundData (hy₁ : IsLeast (Prod.snd '' setPixels alpha width height) y1)
    (hy₂ : IsGreatest (Prod.snd '' setPixels alpha width height) y2) (hheight : height < 2 ^ 31) :
    ∃ x, (0 ≤ x ∧ x < width) ∧ foundData alpha width y1 y2 x := by
  obtain ⟨p, hp, -⟩ := hy₁.1
  exact ⟨p.1, hp.1, (foundData_iff hy₁ hy₂ hheight hp.1).mpr ⟨p, hp, rfl⟩⟩

theorem findX1_isLeast (hy₁ : IsLeast (Prod.snd '' setPixels alpha width height) y1)
    (hy₂ : IsGreatest (Prod.snd '' setPixels alpha width height) y2) (hwidth : width < 2 ^ 31)
    (hheight : height < 2 ^ 31) :
    IsLeast (Prod.fst '' setPixels alpha width height) (findX1 alpha width width y1 y2) := by
  have hcolumns := columns_eq hy₁ hy₂ hheight
  obtain ⟨x, hscan, hleast⟩ := scan_up_isLeast le_rfl hwidth (exists_foundData hy₁ hy₂ hheight)
  rw [sub_zero] at hscan
  rw [findX1, hscan, Option.getD_some, ← hcolumns]
  exact hleast

theorem findX2_isGreatest (hy₁ : IsLeast (Prod.snd '' setPixels alpha width height) y1)
    (hy₂ : IsGreatest (Prod.snd '' setPixels alpha width height) y2) (hwidth : width < 2 ^ 31)
    (hheight : height < 2 ^ 31) :
    IsGreatest (Prod.fst '' setPixels alpha width height) (findX2 alpha width width y1 y2) := by
  have hcolumns := columns_eq hy₁ hy₂ hheight
  have hsome := exists_foundData hy₁ hy₂ hheight
  obtain ⟨x, hscan, hgreatest⟩ := scan_down_isGreatest le_rfl hwidth hsome
  obtain ⟨c, hc, -⟩ := hsome
  have hpos : 0 < width := hc.1.trans_lt hc.2
  rw [sub_zero] at hscan
  rw [findX2, int32_of_mem (by omega) (by omega), hscan, Option.getD_some, ← hcolumns]
  exact hgreatest

end Columns

/-- The dimensions describe the least box around the pixels that are set;
`y2` counts from the last row. -/
structure Describes (d : Dimensions) (S : Set (ℤ × ℤ)) (height : ℤ) : Prop where
  box : IsBoundingBox S d.x1 d.y1 d.width d.height
  x2 : IsGreatest (Prod.fst '' S) d.x2
  y2 : IsGreatest (Prod.snd '' S) (height - 1 - d.y2)
  smallest : ∀ a b w h : ℤ, (∀ p ∈ S, a ≤ p.1 ∧ p.1 < a + w ∧ b ≤ p.2 ∧ p.2 < b + h) →
    a ≤ d.x1 ∧ d.x1 + d.width ≤ a + w ∧ b ≤ d.y1 ∧ d.y1 + d.height ≤ b + h

theorem trueImageDimensions_of_nonempty {alpha : List UInt8} {width height : ℤ}
    (hw : 0 < width) (hh : 0 < height) (hsize : width * height < 2 ^ 31)
    (hne : (setIndices alpha width height).Nonempty) :
    Describes (trueImageDimensions alpha width height) (setPixels alpha width height) height := by
  have hwidth : width < 2 ^ 31 := (le_mul_of_one_le_right hw.le hh).trans_lt hsize
  have hheight : height < 2 ^ 31 := (le_mul_of_one_le_left hh.le hw).trans_lt hsize
  have hy₁ := findY1_isLeast hw hsize hne
  have hy₂ := findY2_isGreatest hw hsize hne
  have hx₁ := findX1_isLeast hy₁ hy₂ hwidth hheight
  have hx₂ := findX2_isGreatest hy₁ hy₂ hwidth hheight
  have hbox := IsBoundingBox.of_extremes hx₁ hx₂ hy₁ hy₂
  have hpos : 0 < width * height := mul_pos hw hh
  rw [trueImageDimensions, int32_of_mem (by omega) hwidth, int32_of_mem (by omega) hheight,
    int32_of_mem (by omega) hwidth, int32_of_mem (by omega) hsize]
  refine ⟨hbox, hx₂, ?_, fun a b w h => hbox.smallest⟩
  rw [sub_sub_cancel]
  exact hy₂

theorem setIndices_nonempty {alpha : List UInt8} {width height : ℕ}
    (hlength : alpha.length = width * height) (hsome : ∃ a ∈ alpha, a ≠ 0) :
    (setIndices alpha width height).Nonempty := by
  obtain ⟨a, ha, hne⟩ := hsome
  obtain ⟨i, hi, rfl⟩ := List.getElem_of_mem ha
  refine ⟨i, ⟨Int.natCast_nonneg i, ?_⟩, ?_⟩
  · rw [hlength] at hi
    exact_mod_cast hi
  · rw [isSet, Int.toNat_natCast, List.getD_eq_getElem?_getD, List.getElem?_eq_getElem hi]
    simpa using UInt8.pos_iff_ne_zero.mpr hne

theorem trueImageDimensions_describes {alpha : List UInt8} {width height : ℕ}
    (hlength : alpha.length = width * height) (hsome : ∃ a ∈ alpha, a ≠ 0)
    (hsize : width * height < 2 ^ 31) :
    Describes (trueImageDimensions alpha width height) (setPixels alpha width height) height := by
  have hpos : 0 < width * height := by
    obtain ⟨a, ha, -⟩ := hsome
    exact hlength ▸ List.length_pos_of_mem ha
  have hw : 0 < width := Nat.pos_of_mul_pos_right hpos
  have hh : 0 < height := Nat.pos_of_mul_pos_left hpos
  exact trueImageDimensions_of_nonempty (by exact_mod_cast hw) (by exact_mod_cast hh)
    (by exact_mod_cast hsize) (setIndices_nonempty hlength hsome)

theorem trueImageDimensions_describes_corner :
    Describes (trueImageDimensions [0, 0, 0, 7, 9, 0] (3 : ℕ) (2 : ℕ))
      (setPixels [0, 0, 0, 7, 9, 0] (3 : ℕ) (2 : ℕ)) (2 : ℕ) :=
  trueImageDimensions_describes (by decide) (by decide) (by decide)

example : trueImageDimensions [0, 0, 0, 7, 9, 0] 3 2 = ⟨0, 1, 1, 0, 2, 1⟩ := by decide

theorem trueImageDimensions_of_length_nonpos {alpha : List UInt8} {width height : ℤ}
    (h : int32 (int32 width * int32 height) ≤ 0) :
    (trueImageDimensions alpha width height).y1 = 0 ∧
      (trueImageDimensions alpha width height).height = 1 := by
  have hiterations : (int32 (int32 width * int32 height)).toNat = 0 := Int.toNat_of_nonpos h
  simp only [trueImageDimensions, findY1, findY2, hiterations, scan, Option.map_none,
    Option.getD_none, sub_self, abs_zero, zero_add, and_self]

def single (before after : ℕ) : List UInt8 :=
  List.replicate before 0 ++ 1 :: List.replicate after 0

theorem single_length (before after : ℕ) : (single before after).length = before + 1 + after := by
  simp only [single, List.length_append, List.length_cons, List.length_replicate]
  omega

theorem single_isSet (before after : ℕ) : isSet (single before after) before := by
  simp [isSet, single]

/-- With `2 ^ 31` entries the length wraps below zero and no row is scanned. -/
theorem not_describes :
    ¬∀ (alpha : List UInt8) (width height : ℕ), alpha.length = width * height →
      (∃ a ∈ alpha, a ≠ 0) →
      Describes (trueImageDimensions alpha width height) (setPixels alpha width height) height := by
  intro h
  have hlength : (single 65536 2147418111).length = 65536 * 32768 := single_length _ _
  have hsome : ∃ a ∈ single 65536 2147418111, a ≠ 0 :=
    ⟨1, List.mem_append_right _ List.mem_cons_self, by decide⟩
  have hbox := (h (single 65536 2147418111) 65536 32768 hlength hsome).box
  have hwrap : int32 (int32 (65536 : ℕ) * int32 (32768 : ℕ)) ≤ 0 := by decide +kernel
  have hline : (trueImageDimensions (single 65536 2147418111) (65536 : ℕ) (32768 : ℕ)).y1 = 0 ∧
      (trueImageDimensions (single 65536 2147418111) (65536 : ℕ) (32768 : ℕ)).height = 1 :=
    trueImageDimensions_of_length_nonpos hwrap
  have hpixel : ((0 : ℤ), (1 : ℤ)) ∈ setPixels (single 65536 2147418111) (65536 : ℕ) (32768 : ℕ) :=
    ⟨by decide, by decide, single_isSet 65536 2147418111⟩
  have hinside := (hbox.contains _ hpixel).2.2.2
  rw [hline.1, hline.2] at hinside
  exact absurd hinside (by decide)

end XWebQL.BoundingBox
