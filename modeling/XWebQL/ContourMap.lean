import XWebQL.ColourTables
import XWebQL.ContourFloats
import XWebQL.FortranArray

/-! The contours over a decoded frame.
`apply_contour` copies the picture into rows of floats, its first row last, sets the levels
between 0 and 255, and has the lines drawn on the canvas that the colourmap has filled. -/

namespace XWebQL.ContourMap

open Colourmap (Picture Pixel Drawn mask)
open ColourTables (drawFrame)
open Conrec ContourFloats ContourLines DigitalLine FloatArithmetic FloatFormat LineDrawing
open FloatFormat.Format (round_zero round_isFloat isFloat_natCast round_of_isFloat)

/-- The result of an operation on `unsigned int`. -/
def unsigned (v : ℤ) : ℕ := (v % 4294967296).toNat

/-- `d[i][j]` -/
def pixelHeight (h : ℕ) (luma : List UInt8) (stride_luma : ℕ) (alpha : List UInt8)
    (stride_alpha : ℕ) (i j : ℕ) : Option ℚ := do
  let luma_offset := unsigned ((h - 1 - i) * stride_luma)
  let alpha_offset := unsigned ((h - 1 - i) * stride_alpha)
  let pixel ← luma[luma_offset + j]?
  let a ← alpha[alpha_offset + j]?
  let pixel := if mask a = 0 then 0 else pixel
  some pixel.toNat

/-- `(float)(i + 1) * 255.0f / (float)nc` -/
def level (nc : ℤ) (i : ℕ) : ℚ :=
  single.round (single.round (single.round (i + 1) * 255) / single.round nc)

/-- An array without elements is undefined behaviour. -/
def applyContour (canvas : Screen) (w h : ℕ) (luma : List UInt8) (stride_luma : ℕ)
    (alpha : List UInt8) (stride_alpha : ℕ) (nc : ℤ) : Option Plot :=
  if w = 0 ∨ h = 0 ∨ nc ≤ 0 then none
  else do
    let d ← (List.range h).mapM fun i =>
      (List.range w).mapM (pixelHeight h luma stride_luma alpha stride_alpha i)
    let xc := (List.range h).map fun i : ℕ => single.round i
    let yc := (List.range w).map fun i : ℕ => single.round i
    let zc := (List.range nc.toNat).map (level nc)
    conrec (floats single) ⟨d, xc, yc, zc⟩ 0 (h - 1) 0 (w - 1) nc canvas w h

def decodeFrame (colourmap : String) (fill : UInt8) (nc : ℤ) (width height : ℕ) (p : Picture) :
    Option Screen := do
  let canvas ← drawFrame colourmap fill width height p
  if (p.w = width ∧ p.h = height) ∧ 0 < nc then do
    let plot ← applyContour ⟨canvas.cells, []⟩ p.w p.h p.luma p.stride_luma p.alpha
      p.stride_alpha nc
    some plot.screen
  else some ⟨canvas.cells, []⟩

section Levels

variable {nc : ℤ} {i : ℕ}

theorem level_mono (hnc : 0 < nc) : Monotone (level nc) := by
  intro i i' hle
  have hone : (1 : ℚ) ≤ nc := by exact_mod_cast hnc
  refine round_mono single ?_
  have hnonneg : 0 ≤ single.round (nc : ℚ) := round_nonneg (by linarith)
  refine div_le_div_of_nonneg_right (round_mono single ?_) hnonneg
  refine mul_le_mul_of_nonneg_right (round_mono single ?_) (by norm_num)
  have hle' : (i : ℚ) ≤ i' := by exact_mod_cast hle
  linarith

theorem level_mem (hnc : 0 < nc) (hrange : nc < 2147483648) (hi : i < nc.toNat) :
    2 ^ (-24 : ℤ) ≤ level nc i ∧ level nc i ≤ 2 ^ (39 : ℤ) := by
  have hi' : (i : ℚ) + 1 ≤ 2 ^ (31 : ℤ) := by
    have hle : i + 1 ≤ 2147483648 := by omega
    have hcast : ((i + 1 : ℕ) : ℚ) ≤ 2147483648 := by exact_mod_cast hle
    push_cast at hcast
    norm_num
    linarith
  have hnc' : (nc : ℚ) ≤ 2 ^ (31 : ℤ) := by
    have hcast : (nc : ℚ) < 2147483648 := by exact_mod_cast hrange
    norm_num
    linarith
  have hone : (2 : ℚ) ^ (0 : ℤ) ≤ nc := by
    rw [zpow_zero]
    exact_mod_cast hnc
  have hi0 : (2 : ℚ) ^ (0 : ℤ) ≤ (i : ℚ) + 1 := by
    rw [zpow_zero]
    linarith [Nat.cast_nonneg (α := ℚ) i]
  have hdlow := zpow_le_round (F := single) (by decide) hone
  have hdhigh := round_le_zpow (F := single) (by decide) hnc'
  have hnlow := zpow_le_round (F := single) (by decide) hi0
  have hnhigh := round_le_zpow (F := single) (by decide) hi'
  rw [level]
  generalize single.round (nc : ℚ) = d at *
  generalize single.round ((i : ℚ) + 1) = n at *
  rw [zpow_zero] at hdlow hnlow
  have hplow : (2 : ℚ) ^ (7 : ℤ) ≤ single.round (n * 255) :=
    zpow_le_round (by decide) (by norm_num; linarith)
  have hphigh : single.round (n * 255) ≤ (2 : ℚ) ^ (39 : ℤ) :=
    round_le_zpow (by decide) (by norm_num at hnhigh ⊢; linarith)
  generalize single.round (n * 255) = m at *
  have hd0 : 0 < d := by linarith
  constructor
  · refine zpow_le_round (by decide) ?_
    rw [le_div_iff₀ hd0]
    norm_num at *
    linarith
  · refine round_le_zpow (by decide) ?_
    rw [div_le_iff₀ hd0]
    norm_num at *
    linarith

end Levels

section Segments

variable {width height : ℕ} {i j : ℕ} {s : Segment}

def black : Colour := ⟨0, 0, 0, 255⟩

def first (s : Segment) : ℤ × ℤ := (⌊Colourmap.roundf s.x1⌋, ⌊Colourmap.roundf s.y1⌋)

def last (s : Segment) : ℤ × ℤ := (⌊Colourmap.roundf s.x2⌋, ⌊Colourmap.roundf s.y2⌋)

def pixels (s : Segment) : List (ℤ × ℤ) :=
  points (first s).1 (first s).2 (last s).1 (last s).2

def Corner (i j : ℕ) (q : ℤ × ℤ) : Prop :=
  (q.1 = i ∨ q.1 = i + 1) ∧ (q.2 = j ∨ q.2 = j + 1)

theorem first_corner (h : SegmentNear i j s) : Corner i j (first s) :=
  ⟨roundf_near h.x1, roundf_near h.y1⟩

theorem last_corner (h : SegmentNear i j s) : Corner i j (last s) :=
  ⟨roundf_near h.x2, roundf_near h.y2⟩

theorem mem_pixels (h : SegmentNear i j s) {q : ℤ × ℤ} :
    q ∈ pixels s ↔ q = first s ∨ q = last s := by
  have hfirst := first_corner h
  have hlast := last_corner h
  refine mem_points_of_steps_le ?_
  simp only [Corner] at hfirst hlast
  simp only [steps, distance]
  omega

theorem drawSegment_eq (hi : i < 2 ^ 18) (hj : j < 2 ^ 18) (h : SegmentNear i j s) {plot : Plot}
    (hcount : 0 ≤ plot.line_count ∧ plot.line_count < 2147483647) :
    drawSegment width height plot s =
      (setPixels width height black (pixels s) plot.screen).bind fun screen =>
        some ⟨screen, plot.line_count + 1⟩ := by
  have hfirst := first_corner h
  have hlast := last_corner h
  simp only [Corner] at hfirst hlast
  have hint : ∀ v : ℤ, 0 ≤ v ∧ v ≤ 2 ^ 18 → SxsReader.int v = some v := fun v hv =>
    SxsReader.int_eq_some hv.1 (by omega)
  have hmoderate : Moderate (first s).1 (first s).2 (last s).1 (last s).2 := by
    constructor <;> rw [abs_lt] <;> omega
  rw [drawSegment, SxsReader.int_eq_some (by omega) (by omega), hint ⌊Colourmap.roundf s.x1⌋,
    hint ⌊Colourmap.roundf s.y1⌋, hint ⌊Colourmap.roundf s.x2⌋, hint ⌊Colourmap.roundf s.y2⌋]
  · exact congrArg (Option.bind · _) (line_eq hmoderate plot.screen)
  all_goals simp only [first, last] at hfirst hlast; omega

theorem drawSegments_painted {l : List Segment}
    (hl : ∀ s ∈ l, ∃ i j : ℕ, i < 2 ^ 18 ∧ j < 2 ^ 18 ∧ SegmentNear i j s) (plot : Plot)
    (hfits : plot.screen.Fits width height) (hnonneg : 0 ≤ plot.line_count)
    (hcount : plot.line_count + l.length < 2147483648) :
    ∃ plot', drawSegments width height l plot = some plot' ∧
      plot'.line_count = plot.line_count + l.length ∧
      Painted plot.screen width height black (l.flatMap pixels) plot'.screen := by
  induction l generalizing plot with
  | nil => exact ⟨plot, rfl, (add_zero _).symm, painted_nil⟩
  | cons s l ih =>
    rw [List.length_cons] at hcount
    push_cast at hcount
    obtain ⟨i, j, hi, hj, hs⟩ := hl s List.mem_cons_self
    obtain ⟨screen, hset, hpainted⟩ := setPixels_painted hfits black (pixels s)
    have hrest := ih (fun s hs => hl s (List.mem_cons_of_mem _ hs)) ⟨screen, plot.line_count + 1⟩
      (hfits.of_length hpainted.length)
    obtain ⟨plot', hplot', hcount', hpainted'⟩ :=
      hrest (by dsimp only; omega) (by dsimp only; omega)
    refine ⟨plot', ?_, ?_, hpainted.trans hpainted'⟩
    · rw [drawSegments, List.foldlM_cons, drawSegment_eq hi hj hs ⟨hnonneg, by omega⟩, hset]
      exact hplot'
    · rw [hcount', List.length_cons]
      push_cast
      ring

end Segments

section Picture

variable {p : Picture} {nc : ℤ} {i j : ℕ} {z : ℚ}

/-- The luma of a pixel, row `i` from above, or zero where it is masked. -/
def brightness (p : Picture) (i j : ℕ) : ℕ :=
  ((p.lumaAt j i).bind fun l => (p.alphaAt j i).map fun a =>
    (if mask a = 0 then 0 else l).toNat).getD 0

theorem brightness_lt (p : Picture) (i j : ℕ) : brightness p i j < 2 ^ 24 := by
  rw [brightness]
  cases p.lumaAt j i with
  | none => exact Nat.two_pow_pos 24
  | some l =>
    cases p.alphaAt j i with
    | none => exact Nat.two_pow_pos 24
    | some a =>
      have hlt := (if mask a = 0 then 0 else l).toNat_lt
      simp only [Option.bind_some, Option.map_some, Option.getD_some]
      omega

theorem isFloat_brightness (p : Picture) (i j : ℕ) :
    (floats single).IsNumber (brightness p i j : ℚ) :=
  isFloat_natCast (by decide) (brightness_lt p i j)

def levels (nc : ℤ) : List ℚ := (List.range nc.toNat).map (level nc)

theorem isNumber_levels : ∀ z ∈ levels nc, (floats single).IsNumber z := by
  intro z hz
  obtain ⟨k, -, rfl⟩ := List.mem_map.mp hz
  exact round_isFloat _ _

theorem levels_increasing (hnc : 0 < nc) : (levels nc).Pairwise (· ≤ ·) :=
  List.Pairwise.map _ (fun _ _ h => level_mono hnc h.le) List.pairwise_lt_range

theorem levels_ne_nil (hnc : 0 < nc) : levels nc ≠ [] := by
  rw [levels, ne_eq, List.map_eq_nil_iff, List.range_eq_nil]
  omega

def grid (p : Picture) (nc : ℤ) (hnc : 0 < nc) : Grid (floats single) where
  rows := p.h
  cols := p.w
  f i j := brightness p i j
  x i := single.round i
  y j := single.round j
  levels := levels nc
  isNumber_f := isFloat_brightness p
  isNumber_level := isNumber_levels
  increasing := levels_increasing hnc
  levels_ne_nil := levels_ne_nil hnc

theorem unsigned_offset {h stride i : ℕ} (hi : i < h) (hrange : (h - 1) * stride < 2147483648) :
    unsigned ((h - 1 - i) * stride) = (h - 1 - i) * stride := by
  have hcast : ((h : ℤ) - 1 - i) * stride = ((h - 1 - i) * stride : ℕ) := by
    rw [Nat.cast_mul, Nat.sub_sub, Nat.cast_sub (by omega), Nat.cast_add, Nat.cast_one, sub_sub]
  have hle : (h - 1 - i) * stride ≤ (h - 1) * stride := Nat.mul_le_mul_right _ (by omega)
  rw [unsigned, hcast]
  omega

theorem pixelHeight_eq (hrange : p.InRange) (hi : i < p.h) (hj : j < p.w) :
    pixelHeight p.h p.luma p.stride_luma p.alpha p.stride_alpha i j =
      some (brightness p i j : ℚ) := by
  obtain ⟨l, hl⟩ := Colourmap.lumaAt_eq_some hj hi
  obtain ⟨a, ha⟩ := Colourmap.alphaAt_eq_some hj hi
  rw [brightness, hl, ha]
  rw [Picture.lumaAt] at hl
  rw [Picture.alphaAt] at ha
  simp only [pixelHeight, unsigned_offset hi hrange.1, unsigned_offset hi hrange.2, hl, ha,
    Option.bind_eq_bind, Option.bind_some, Option.map_some, Option.getD_some]

theorem applyContour_eq (hrange : p.InRange) (hw : 0 < p.w) (hh : 0 < p.h) (hnc : 0 < nc)
    (canvas : Screen) :
    applyContour canvas p.w p.h p.luma p.stride_luma p.alpha p.stride_alpha nc =
      drawSegments p.w p.h (grid p nc hnc).lines ⟨canvas, 0⟩ := by
  have hd : (List.range p.h).mapM (fun i => (List.range p.w).mapM
      (pixelHeight p.h p.luma p.stride_luma p.alpha p.stride_alpha i)) =
      some (grid p nc hnc).data.d := by
    refine FortranArray.mapM_eq_some_map fun i hi => FortranArray.mapM_eq_some_map fun j hj => ?_
    exact pixelHeight_eq hrange (List.mem_range.mp hi) (List.mem_range.mp hj)
  have hlength : nc = (grid p nc hnc).levels.length := by
    simp only [grid, levels, List.length_map, List.length_range]
    omega
  rw [applyContour, if_neg (by omega), hd, ← Grid.conrec_eq, ← hlength]
  rfl

structure CornerHeight (h : ℚ) : Prop where
  onGrid : OnGrid (-48) h
  abs_le : |h| ≤ 2 ^ (40 : ℤ)

theorem corner_height (p : Picture) (hnc : 0 < nc) (hrange : nc < 2147483648)
    (hz : z ∈ levels nc) (i j : ℕ) : CornerHeight ((grid p nc hnc).corner z i j).h := by
  obtain ⟨k, hk, rfl⟩ := List.mem_map.mp hz
  obtain ⟨hlow, hhigh⟩ := level_mem hnc hrange (List.mem_range.mp hk)
  have hpos : 0 < level nc k := (zpow_pos two_pos _).trans_le hlow
  have hfloat : single.IsFloat (level nc k) := round_isFloat _ _
  have hlevel : OnGrid (-48) (level nc k) :=
    (onGrid_of_isFloat hfloat (hlow.trans (le_abs_self _))).finer (by decide)
  have hbright : (brightness p i j : ℚ) ≤ 16777216 := by
    exact_mod_cast (brightness_lt p i j).le
  have hbright0 : (0 : ℚ) ≤ brightness p i j := Nat.cast_nonneg _
  have habs : |(brightness p i j : ℚ) - level nc k| ≤ 2 ^ (40 : ℤ) := by
    norm_num at hhigh ⊢
    rw [abs_le]
    constructor <;> linarith
  exact ⟨(((onGrid_natCast _).finer (by decide)).sub hlevel).round,
    abs_round_le_zpow (by decide) habs⟩

theorem round_add {a b : ℚ} {k l : ℤ} (hk : -149 ≤ k + 1) (ha : OnGrid l a ∧ |a| ≤ 2 ^ k)
    (hb : OnGrid l b ∧ |b| ≤ 2 ^ k) :
    OnGrid l (single.round (a + b)) ∧ |single.round (a + b)| ≤ 2 ^ (k + 1) := by
  refine ⟨(ha.1.add hb.1).round, abs_round_le_zpow hk ((abs_add_le a b).trans ?_)⟩
  rw [zpow_add_one₀ two_ne_zero]
  linarith [ha.2, hb.2]

theorem centre_height (p : Picture) (hnc : 0 < nc) (hrange : nc < 2147483648)
    (hz : z ∈ levels nc) (i j : ℕ) : Height ((grid p nc hnc).centre z i j).h := by
  have h1 := corner_height p hnc hrange hz i j
  have h2 := corner_height p hnc hrange hz (i + 1) j
  have h3 := corner_height p hnc hrange hz (i + 1) (j + 1)
  have h4 := corner_height p hnc hrange hz i (j + 1)
  have hwider : ∀ {a : ℚ} {k : ℤ}, 40 ≤ k → CornerHeight a → |a| ≤ 2 ^ k := fun hk ha =>
    ha.abs_le.trans (zpow_le_zpow_right₀ one_le_two hk)
  have h12 := round_add (by decide) ⟨h1.onGrid, h1.abs_le⟩ ⟨h2.onGrid, h2.abs_le⟩
  have h123 := round_add (by decide) h12 ⟨h3.onGrid, hwider (by decide) h3⟩
  have h1234 := round_add (by decide) h123 ⟨h4.onGrid, hwider (by decide) h4⟩
  have hquarter : OnGrid (-2) (1 / 4) := ⟨1, by norm_num⟩
  refine ⟨((hquarter.mul h1234.1).finer (by decide)).round, ?_⟩
  rw [← zpow_natCast]
  refine abs_round_le_zpow (by decide) ?_
  rw [abs_mul, abs_of_pos (by norm_num : (0 : ℚ) < 1 / 4)]
  refine (mul_le_mul_of_nonneg_left h1234.2 (by norm_num)).trans ?_
  norm_num

theorem CornerHeight.height {h : ℚ} (hh : CornerHeight h) : Height h := by
  refine ⟨hh.onGrid.finer (by decide), hh.abs_le.trans ?_⟩
  norm_num

theorem coordinate_corner {n k : ℕ} (hn : n < 2 ^ 18) (hk : k = n ∨ k = n + 1) :
    Coordinate n (single.round k) := by
  have hk' : k < 2 ^ 24 := by omega
  have hround : single.round (k : ℚ) = k :=
    round_of_isFloat (isFloat_natCast (F := single) (by decide) hk')
  have hlow : (n : ℚ) ≤ k := by exact_mod_cast (by omega : n ≤ k)
  have hhigh : (k : ℚ) ≤ n + 1 := by exact_mod_cast (by omega : k ≤ n + 1)
  rw [hround]
  exact ⟨(onGrid_natCast k).finer (by decide), hlow, hhigh⟩

theorem coordinate_centre {n : ℕ} (hn : n < 2 ^ 18) :
    Coordinate n
      (single.round (1 / 2 * single.round (single.round n + single.round (n + 1 : ℕ)))) := by
  have hround : ∀ k : ℕ, k < 2 ^ 24 → single.round (k : ℚ) = k := fun k hk =>
    round_of_isFloat (isFloat_natCast (F := single) (by decide) hk)
  have hsum : (n : ℚ) + (n + 1 : ℕ) = (2 * n + 1 : ℕ) := by push_cast; ring
  have hhalf : single.IsFloat (1 / 2 * (2 * n + 1 : ℕ)) := by
    refine ⟨(2 * n + 1 : ℕ), -1, ?_, by decide, ?_⟩
    · have : single.precision = 24 := rfl
      rw [this, Nat.abs_cast]
      exact_mod_cast (by omega : 2 * n + 1 < 2 ^ 24)
    · push_cast
      ring
  rw [hround n (by omega), hround (n + 1) (by omega), hsum, hround _ (by omega),
    round_of_isFloat hhalf]
  refine ⟨⟨(2 * n + 1 : ℕ), by push_cast; ring⟩, ?_, ?_⟩ <;> push_cast <;> linarith

/-- The vertices of the triangles are where the error of the lines is bounded. -/
theorem line_in_box (p : Picture) (hnc : 0 < nc) (hrange : nc < 2147483648) (hz : z ∈ levels nc)
    (hi : i < 2 ^ 18) (hj : j < 2 ^ 18) {t : Triangle} (ht : t ∈ (grid p nc hnc).triangles z i j)
    {s : Segment} (hs : t.line (floats single) = some s) : SegmentNear i j s := by
  have hcorner : ∀ i' j', i' = i ∨ i' = i + 1 → j' = j ∨ j' = j + 1 →
      InBox i j ((grid p nc hnc).corner z i' j') := fun i' j' hi' hj' =>
    ⟨(corner_height p hnc hrange hz i' j').height, coordinate_corner hi hi',
      coordinate_corner hj hj'⟩
  have hcentre : InBox i j ((grid p nc hnc).centre z i j) :=
    ⟨centre_height p hnc hrange hz i j, coordinate_centre hi, coordinate_centre hj⟩
  have h1 := hcorner i j (.inl rfl) (.inl rfl)
  have h2 := hcorner (i + 1) j (.inr rfl) (.inl rfl)
  have h3 := hcorner (i + 1) (j + 1) (.inr rfl) (.inr rfl)
  have h4 := hcorner i (j + 1) (.inl rfl) (.inr rfl)
  have hvertices : ∀ v w : Vertex, InBox i j v → InBox i j w →
      ∀ u ∈ [v, (grid p nc hnc).centre z i j, w], InBox i j u := fun v w hv hw =>
    List.forall_mem_cons.mpr
      ⟨hv, List.forall_mem_cons.mpr ⟨hcentre, List.forall_mem_singleton.mpr hw⟩⟩
  simp only [Grid.triangles, List.mem_cons, List.not_mem_nil, or_false] at ht
  rcases ht with rfl | rfl | rfl | rfl
  · exact line_near hi hj (hvertices _ _ h1 h2) hs
  · exact line_near hi hj (hvertices _ _ h2 h3) hs
  · exact line_near hi hj (hvertices _ _ h3 h4) hs
  · exact line_near hi hj (hvertices _ _ h4 h1) hs

theorem length_flatMap_le {α β : Type} {l : List α} {f : α → List β} {n : ℕ}
    (h : ∀ a ∈ l, (f a).length ≤ n) : (l.flatMap f).length ≤ l.length * n := by
  rw [List.length_flatMap]
  have hsum := List.sum_le_card_nsmul (l.map fun a => (f a).length) n (by
    rintro _ hm
    obtain ⟨a, ha, rfl⟩ := List.mem_map.mp hm
    exact h a ha)
  rwa [List.length_map, smul_eq_mul] at hsum

theorem length_lines_le {A : Arithmetic} (g : Grid A) :
    g.lines.length ≤ 4 * g.levels.length * (g.rows * g.cols) := by
  have hbox : ∀ z i j, (g.boxLines z i j).length ≤ 4 := fun z i j => by
    have hone : ∀ t ∈ g.triangles z i j, (t.line A).toList.length ≤ 1 := fun t _ => by
      cases t.line A <;> simp
    exact length_flatMap_le hone
  have hlines := length_flatMap_le (l := (List.range (g.cols - 1)).reverse)
    (f := fun j => (List.range (g.rows - 1)).flatMap fun i =>
      g.levels.flatMap fun z => g.boxLines z i j)
    fun j _ => length_flatMap_le fun i _ => length_flatMap_le fun z _ => hbox z i j
  simp only [List.length_reverse, List.length_range] at hlines
  calc g.lines.length ≤ (g.cols - 1) * ((g.rows - 1) * (g.levels.length * 4)) := hlines
    _ ≤ g.cols * (g.rows * (g.levels.length * 4)) := by gcongr <;> omega
    _ = 4 * g.levels.length * (g.rows * g.cols) := by ring

end Picture

section Frame

variable {p : Picture} {nc : ℤ}

def contourPixels (p : Picture) (nc : ℤ) (hnc : 0 < nc) : List (ℤ × ℤ) :=
  (grid p nc hnc).lines.flatMap fun s => [first s, last s]

/-- A picture whose sides a `float` can count, and whose lines an `int` can. -/
structure Contourable (p : Picture) (nc : ℤ) : Prop where
  inRange : p.InRange
  width_pos : 0 < p.w
  height_pos : 0 < p.h
  width_le : p.w ≤ 2 ^ 18
  height_le : p.h ≤ 2 ^ 18
  count : 4 * nc * (p.h * p.w : ℕ) < 2147483648

theorem Contourable.bounds (h : Contourable p nc) (hnc : 0 < nc) :
    nc < 2147483648 ∧ p.h * p.w * 4 ≤ 2147483648 := by
  have hpos : 0 < p.h * p.w := Nat.mul_pos h.height_pos h.width_pos
  have hcount := h.count
  generalize p.h * p.w = a at *
  have ha : (1 : ℤ) ≤ a := by exact_mod_cast hpos
  constructor
  · nlinarith
  · have hle : (a : ℤ) ≤ nc * a := le_mul_of_one_le_left (by omega) hnc
    have : 4 * nc * (a : ℤ) = 4 * (nc * a) := by ring
    omega

theorem Contourable.length_lines (h : Contourable p nc) (hnc : 0 < nc) :
    (grid p nc hnc).lines.length < 2147483648 := by
  have hle := length_lines_le (grid p nc hnc)
  have hlevels : (grid p nc hnc).levels.length = nc.toNat := by
    simp only [grid, levels, List.length_map, List.length_range]
  rw [hlevels] at hle
  have hcast : ((4 * nc.toNat * (p.h * p.w) : ℕ) : ℤ) = 4 * nc * (p.h * p.w : ℕ) := by
    rw [Nat.cast_mul, Nat.cast_mul, Int.toNat_of_nonneg hnc.le]
    rfl
  have hcount := h.count
  change _ ≤ 4 * nc.toNat * (p.h * p.w) at hle
  omega

theorem near_of_mem_lines (h : Contourable p nc) (hnc : 0 < nc) {s : Segment}
    (hs : s ∈ (grid p nc hnc).lines) :
    ∃ i j : ℕ, i + 1 < p.h ∧ j + 1 < p.w ∧ SegmentNear i j s := by
  obtain ⟨i, j, hi, hj, z, hz, t, ht, hline⟩ := mem_lines.mp hs
  have hi' : i + 1 < p.h := hi
  have hj' : j + 1 < p.w := hj
  have hheight := h.height_le
  have hwidth := h.width_le
  exact ⟨i, j, hi, hj, line_in_box p hnc (h.bounds hnc).1 hz (by omega) (by omega) ht hline⟩

theorem Corner.inside {i j width height : ℕ} {q : ℤ × ℤ} (h : Corner i j q) (hi : i + 1 < height)
    (hj : j + 1 < width) : ¬Outside width height q := by
  rw [Corner] at h
  rw [Outside]
  omega

/-- It does not matter which list has the pixels, when none is outside the picture. -/
theorem painted_congr {start screen : Screen} {width height : ℕ} {colour : Colour}
    {l l' : List (ℤ × ℤ)} (hmem : ∀ q, q ∈ l ↔ q ∈ l') (hinside : ∀ q ∈ l, ¬Outside width height q)
    (h : Painted start width height colour l screen) :
    Painted start width height colour l' screen where
  length := h.length
  messages := by
    have hnone : ∀ m : List (ℤ × ℤ), (∀ q ∈ m, ¬Outside width height q) →
        m.filter (fun q => Outside width height q) = [] := fun m hm =>
      List.filter_eq_nil_iff.mpr fun q hq => by simpa using hm q hq
    rw [h.messages, hnone l hinside, hnone l' fun q hq => hinside q ((hmem q).mpr hq)]
  pixel y hy x hx := by simp only [h.pixel y hy x hx, hmem]
  rest := h.rest

theorem applyContour_painted (h : Contourable p nc) (hnc : 0 < nc) (canvas : Screen)
    (hlength : canvas.buffer.length = p.canvas.length) :
    ∃ plot, applyContour canvas p.w p.h p.luma p.stride_luma p.alpha p.stride_alpha nc =
        some plot ∧
      Painted canvas p.w p.h black (contourPixels p nc hnc) plot.screen ∧
      plot.screen.messages = canvas.messages := by
  have hnear := fun s hs => near_of_mem_lines (s := s) h hnc hs
  have hheight := h.height_le
  have hwidth := h.width_le
  have hcanvas := p.canvas_length
  have hfits : canvas.Fits p.w p.h := ⟨by omega, (h.bounds hnc).2⟩
  obtain ⟨plot, hplot, -, hpainted⟩ := drawSegments_painted (l := (grid p nc hnc).lines)
    (fun s hs => by
      obtain ⟨i, j, hi, hj, hs⟩ := hnear s hs
      exact ⟨i, j, by omega, by omega, hs⟩)
    ⟨canvas, 0⟩ hfits le_rfl (by have := h.length_lines hnc; dsimp only; omega)
  have hends : ∀ q, q ∈ (grid p nc hnc).lines.flatMap pixels ↔ q ∈ contourPixels p nc hnc := by
    intro q
    simp only [contourPixels, List.mem_flatMap, List.mem_cons, List.not_mem_nil, or_false]
    refine exists_congr fun s => and_congr_right fun hs => ?_
    obtain ⟨i, j, -, -, hs⟩ := hnear s hs
    exact mem_pixels hs
  have hinside : ∀ q ∈ (grid p nc hnc).lines.flatMap pixels, ¬Outside p.w p.h q := by
    intro q hq
    obtain ⟨s, hs, hq⟩ := List.mem_flatMap.mp hq
    obtain ⟨i, j, hi, hj, hs⟩ := hnear s hs
    rcases (mem_pixels hs).mp hq with rfl | rfl
    · exact (first_corner hs).inside hi hj
    · exact (last_corner hs).inside hi hj
  refine ⟨plot, (applyContour_eq h.inRange h.width_pos h.height_pos hnc canvas).trans hplot,
    painted_congr hends hinside hpainted, ?_⟩
  rw [hpainted.messages, List.filter_eq_nil_iff.mpr fun q hq => by simpa using hinside q hq]
  exact List.append_nil _

def solid (pixel : Pixel) : Colour := ⟨pixel.r, pixel.g, pixel.b, 255⟩

theorem pixel_drawn {colour : UInt8 → UInt8 → Pixel} {result : Colourmap.Canvas}
    (h : Drawn colour p result) {y x : ℕ} (hy : y < p.h) (hx : x < p.w) :
    ∃ l a, p.lumaAt x y = some l ∧ p.alphaAt x y = some a ∧
      Screen.pixel ⟨result.cells, []⟩ p.w y x = some (solid (colour l a)) := by
  obtain ⟨l, a, hl, ha, hbytes⟩ := h.pixel x hx y hy
  refine ⟨l, a, hl, ha, ?_⟩
  have h0 := hbytes 0 (by decide)
  have h1 := hbytes 1 (by decide)
  have h2 := hbytes 2 (by decide)
  have h3 := hbytes 3 (by decide)
  rw [mul_comm 4, Nat.add_zero] at h0
  rw [mul_comm 4] at h1 h2 h3
  simp only [Screen.pixel, h0, h1, h2, h3]
  rfl

/-- A frame with contours: its own pixels are black, and every other one shows the colour of
its luma. No pixel is asked for outside the picture. -/
theorem decodeFrame_drawn (colourmap : String) (fill : UInt8) :
    ∃ colour : UInt8 → UInt8 → Pixel,
      (∀ l a, a < 128 → colour l a =
        if colourmap = "amber" then Colourmap.amberPixel fill else ⟨fill, fill, fill⟩) ∧
      ∀ (p : Picture) (nc : ℤ) (hnc : 0 < nc), Contourable p nc →
        ∃ screen, decodeFrame colourmap fill nc p.w p.h p = some screen ∧
          screen.messages = [] ∧ screen.buffer.length = p.canvas.length ∧
          ∀ y < p.h, ∀ x < p.w, ∃ l a, p.lumaAt x y = some l ∧ p.alphaAt x y = some a ∧
            screen.pixel p.w y x = some (if ((y : ℤ), (x : ℤ)) ∈ contourPixels p nc hnc then black
              else solid (colour l a)) := by
  obtain ⟨colour, hfill, hdrawn⟩ := ColourTables.drawFrame_drawn colourmap fill
  refine ⟨colour, hfill, fun p nc hnc hp => ?_⟩
  obtain ⟨result, hresult, hpixels⟩ := hdrawn p hp.inRange
  obtain ⟨plot, hplot, hpainted, hmessages⟩ :=
    applyContour_painted hp hnc ⟨result.cells, []⟩ hpixels.length
  refine ⟨plot.screen, ?_, hmessages, hpainted.length.trans hpixels.length, ?_⟩
  · simp only [decodeFrame, hresult, Option.bind_eq_bind, Option.bind_some, true_and, and_self,
      if_pos hnc, hplot]
  · intro y hy x hx
    obtain ⟨l, a, hl, ha, hpixel⟩ := pixel_drawn hpixels hy hx
    refine ⟨l, a, hl, ha, ?_⟩
    rw [hpainted.pixel y hy x hx, hpixel]
    split_ifs
    · rfl
    · rfl

def smallPicture : Picture where
  canvas := List.replicate 16 0
  w := 2
  h := 2
  luma := [10, 200, 0, 10, 200, 0]
  stride_luma := 3
  alpha := [255, 255, 0, 255, 255, 0]
  stride_alpha := 3
  luma_width := by decide
  alpha_width := by decide
  luma_length := rfl
  alpha_length := rfl
  canvas_length := by decide

theorem smallPicture_contourable : Contourable smallPicture 3 :=
  ⟨by decide, by decide, by decide, by decide, by decide, by decide⟩

theorem decodeFrame_smallPicture : ∃ screen,
    decodeFrame "hot" 0 3 2 2 smallPicture = some screen ∧ screen.messages = [] ∧
      screen.buffer.length = 16 := by
  obtain ⟨colour, -, hdrawn⟩ := decodeFrame_drawn "hot" 0
  obtain ⟨screen, hscreen, hmessages, hlength, -⟩ :=
    hdrawn smallPicture 3 (by decide) smallPicture_contourable
  exact ⟨screen, hscreen, hmessages, hlength⟩

/-- Contours and levels: every pixel of a contour is at a box that a level passes through,
and every box with corners on both sides of a level has such a pixel. -/
theorem contourPixels_boxes (p : Picture) (nc : ℤ) (hnc : 0 < nc) (hp : Contourable p nc) :
    (∀ q ∈ contourPixels p nc hnc, ∃ i j : ℕ, i + 1 < p.h ∧ j + 1 < p.w ∧ Corner i j q ∧
      ∃ z ∈ levels nc, (grid p nc hnc).dmin i j ≤ z ∧ z ≤ (grid p nc hnc).dmax i j) ∧
    ∀ i j : ℕ, i + 1 < p.h → j + 1 < p.w → ∀ z ∈ levels nc,
      (grid p nc hnc).dmin i j < z → z < (grid p nc hnc).dmax i j →
        ∃ q ∈ contourPixels p nc hnc, Corner i j q := by
  have hheight := hp.height_le
  have hwidth := hp.width_le
  have hnear : ∀ (i j : ℕ), i + 1 < p.h → j + 1 < p.w → ∀ z ∈ levels nc,
      ∀ t ∈ (grid p nc hnc).triangles z i j, ∀ s, t.line (floats single) = some s →
        SegmentNear i j s := fun i j hi hj z hz t ht s hs =>
    line_in_box p hnc (hp.bounds hnc).1 hz (by omega) (by omega) ht hs
  constructor
  · intro q hq
    obtain ⟨s, hs, hq⟩ := List.mem_flatMap.mp hq
    obtain ⟨i, j, hi, hj, z, hz, t, ht, hline⟩ := mem_lines.mp hs
    have hs := hnear i j hi hj z hz t ht s hline
    have hne : (grid p nc hnc).boxLines z i j ≠ [] :=
      List.ne_nil_of_mem (List.mem_flatMap.mpr ⟨t, ht, Option.mem_toList.mpr hline⟩)
    have hrange : ¬(z < (grid p nc hnc).dmin i j ∨ (grid p nc hnc).dmax i j < z) := fun h =>
      hne (Grid.boxLines_outside hz h)
    rw [not_or, not_lt, not_lt] at hrange
    refine ⟨i, j, hi, hj, ?_, z, hz, hrange⟩
    simp only [List.mem_cons, List.not_mem_nil, or_false] at hq
    rcases hq with rfl | rfl
    · exact first_corner hs
    · exact last_corner hs
  · intro i j hi hj z hz hlow hhigh
    obtain ⟨s, hs⟩ := List.exists_mem_of_ne_nil _ (Grid.boxLines_inside hz hlow hhigh)
    obtain ⟨t, ht, hline⟩ := List.mem_flatMap.mp hs
    have hline := Option.mem_toList.mp hline
    have hlines := mem_lines.mpr ⟨i, j, hi, hj, z, hz, t, ht, hline⟩
    exact ⟨first s, List.mem_flatMap.mpr ⟨s, hlines, List.mem_cons_self⟩,
      first_corner (hnear i j hi hj z hz t ht s hline)⟩

theorem contourPixels_smallPicture :
    (∀ q ∈ contourPixels smallPicture 3 (by decide), ∃ i j : ℕ, i + 1 < smallPicture.h ∧
      j + 1 < smallPicture.w ∧ Corner i j q ∧ ∃ z ∈ levels 3,
        (grid smallPicture 3 (by decide)).dmin i j ≤ z ∧
          z ≤ (grid smallPicture 3 (by decide)).dmax i j) ∧
    ∀ i j : ℕ, i + 1 < smallPicture.h → j + 1 < smallPicture.w → ∀ z ∈ levels 3,
      (grid smallPicture 3 (by decide)).dmin i j < z →
        z < (grid smallPicture 3 (by decide)).dmax i j →
          ∃ q ∈ contourPixels smallPicture 3 (by decide), Corner i j q :=
  contourPixels_boxes smallPicture 3 (by decide) smallPicture_contourable

end Frame

end XWebQL.ContourMap
