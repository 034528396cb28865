import XWebQL.OptionFold
import XWebQL.FrontFill
import XWebQL.FloatFormat
import XWebQL.SxsReader

/-! The renderers of a decoded frame.
`none` is undefined behaviour: an access outside a plane, a table or the canvas, an
`int` that overflows, a `float` that does not fit the type it is converted to. Every
operation on `float` is followed by a rounding. The canvas and the planes are lists,
so the tests for `NULL` have no place here. -/

namespace XWebQL.Colourmap

open FrontFill SxsReader

abbrev Canvas := Buffer UInt8

structure Pixel where
  r : UInt8
  g : UInt8
  b : UInt8
deriving DecidableEq, Repr, Inhabited

/-- The four bytes of a pixel on the canvas, the last one for the alpha channel. -/
def Pixel.bytes (pixel : Pixel) : List UInt8 := [pixel.r, pixel.g, pixel.b, 255]

structure Cursor where
  luma_offset : ℕ
  alpha_offset : ℕ
  dst_offset : ℕ
  canvas : Canvas
deriving DecidableEq, Repr

/-- `canvas[dst_offset++] = v` -/
def Cursor.put (cursor : Cursor) (v : UInt8) : Option Cursor := do
  let canvas ← cursor.canvas.store cursor.dst_offset v
  some { cursor with canvas, dst_offset := cursor.dst_offset + 1 }

def pixelStep (shade : UInt8 → UInt8 → Option Pixel) (luma alpha : List UInt8) (cursor : Cursor)
    (_i : ℕ) : Option Cursor := do
  let l ← luma[cursor.luma_offset]?
  let a ← alpha[cursor.alpha_offset]?
  let pixel ← shade l a
  let cursor := { cursor with
    luma_offset := cursor.luma_offset + 1, alpha_offset := cursor.alpha_offset + 1 }
  let cursor ← cursor.put pixel.r
  let cursor ← cursor.put pixel.g
  let cursor ← cursor.put pixel.b
  cursor.put 255

/-- The body of the loop over the rows. Its two offsets shadow those of the function. -/
def rowStep (shade : UInt8 → UInt8 → Option Pixel) (w h : ℕ) (luma : List UInt8)
    (stride_luma : ℕ) (alpha : List UInt8) (stride_alpha : ℕ) (cursor : Cursor) (j : ℕ) :
    Option Cursor := do
  let luma_offset ← int ((h - 1 - j) * stride_luma)
  let alpha_offset ← int ((h - 1 - j) * stride_alpha)
  let row ← (List.range w).foldlM (pixelStep shade luma alpha)
    { cursor with luma_offset := luma_offset.toNat, alpha_offset := alpha_offset.toNat }
  some { cursor with dst_offset := row.dst_offset, canvas := row.canvas }

/-- What the renderers have in common. `shade` is the pixel that the values of luma and
alpha give. -/
def render (shade : UInt8 → UInt8 → Option Pixel) (canvas : List UInt8) (w h : ℕ)
    (luma : List UInt8) (stride_luma : ℕ) (alpha : List UInt8) (stride_alpha : ℕ) :
    Option Canvas := do
  let cursor ← (List.range h).foldlM (rowStep shade w h luma stride_luma alpha stride_alpha)
    ⟨0, 0, 0, ⟨canvas, []⟩⟩
  some cursor.canvas

/-- The conversion of a `float` to `unsigned char`. -/
def toUChar (x : ℚ) : Option UInt8 :=
  if -1 < x ∧ x < 256 then some (UInt8.ofNat ⌊x⌋.toNat) else none

def mask (alpha : UInt8) : UInt8 := if alpha < 128 then 0 else 255

open FloatFormat (single)
open FloatFormat.Format (round_error round_of_isFloat round_unit isFloat_natCast)

/-- A table of colours, one more than `no_colours`. -/
structure ColourTable where
  entries : List ℚ
  length_eq : entries.length = 65
  unit : ∀ x ∈ entries, 0 ≤ x ∧ x ≤ 1

def interpFactor : ℚ := single.round (64 / 256)

/-- `0xFF * (low + (high - low) * frac)` -/
def blend (low high frac : ℚ) : ℚ :=
  single.round (255 * single.round (low + single.round (single.round (high - low) * frac)))

def interpolate (r : ColourTable) (x0 : ℕ) (frac : ℚ) : Option ℚ := do
  let low ← r.entries[x0]?
  let high ← r.entries[x0 + 1]?
  some (blend low high frac)

def colourmapShade (invert : Bool) (r g b : ColourTable) (fill luma alpha : UInt8) :
    Option Pixel := do
  let pixel := if invert then 255 - luma else luma
  let pos := single.round (pixel.toNat * interpFactor)
  let frac := single.round (pos - ⌊pos⌋)
  let x0 := ⌊pos⌋.toNat
  let r_pixel ← (interpolate r x0 frac).bind toUChar
  let g_pixel ← (interpolate g x0 frac).bind toUChar
  let b_pixel ← (interpolate b x0 frac).bind toUChar
  some ⟨if mask alpha = 0 then fill else r_pixel, if mask alpha = 0 then fill else g_pixel,
    if mask alpha = 0 then fill else b_pixel⟩

def applyColourmap (canvas : List UInt8) (w h : ℕ) (luma : List UInt8) (stride_luma : ℕ)
    (alpha : List UInt8) (stride_alpha : ℕ) (invert : Bool) (r g b : ColourTable)
    (fill : UInt8) : Option Canvas :=
  render (colourmapShade invert r g b fill) canvas w h luma stride_luma alpha stride_alpha

def clamp (x low high : ℚ) : ℚ := if x < low then low else if high < x then high else x

/-- The nearest whole number, a tie going away from zero. -/
def roundf (x : ℚ) : ℚ := if 0 ≤ x then ⌊x + 1 / 2⌋ else ⌈x - 1 / 2⌉

def amberShade (fill luma alpha : UInt8) : Option Pixel := do
  let pixel := if mask alpha = 0 then fill else luma
  let amber := single.round (single.round (pixel.toNat * 204) / 255)
  let g_pixel ← toUChar (clamp (roundf amber) 0 255)
  some ⟨pixel, g_pixel, 0⟩

def applyAmber (canvas : List UInt8) (w h : ℕ) (luma : List UInt8) (stride_luma : ℕ)
    (alpha : List UInt8) (stride_alpha : ℕ) (fill : UInt8) : Option Canvas :=
  render (amberShade fill) canvas w h luma stride_luma alpha stride_alpha

def greyscaleShade (invert : Bool) (fill luma alpha : UInt8) : Option Pixel :=
  let pixel := if invert then 255 - luma else luma
  let pixel := if mask alpha = 0 then fill else pixel
  some ⟨pixel, pixel, pixel⟩

def applyGreyscale (canvas : List UInt8) (w h : ℕ) (luma : List UInt8) (stride_luma : ℕ)
    (alpha : List UInt8) (stride_alpha : ℕ) (invert : Bool) (fill : UInt8) : Option Canvas :=
  render (greyscaleShade invert fill) canvas w h luma stride_luma alpha stride_alpha

structure Picture where
  canvas : List UInt8
  w : ℕ
  h : ℕ
  luma : List UInt8
  stride_luma : ℕ
  alpha : List UInt8
  stride_alpha : ℕ
  luma_width : w ≤ stride_luma
  alpha_width : w ≤ stride_alpha
  luma_length : luma.length = h * stride_luma
  alpha_length : alpha.length = h * stride_alpha
  canvas_length : 4 * (h * w) ≤ canvas.length

namespace Picture

/-- The value of luma that belongs to column `i` and row `j` of the canvas. -/
def lumaAt (p : Picture) (i j : ℕ) : Option UInt8 := p.luma[(p.h - 1 - j) * p.stride_luma + i]?

def alphaAt (p : Picture) (i j : ℕ) : Option UInt8 :=
  p.alpha[(p.h - 1 - j) * p.stride_alpha + i]?

/-- The first row of the canvas has the largest offsets. -/
def InRange (p : Picture) : Prop :=
  (p.h - 1) * p.stride_luma < 2147483648 ∧ (p.h - 1) * p.stride_alpha < 2147483648

instance decidableInRange (p : Picture) : Decidable p.InRange :=
  inferInstanceAs (Decidable (_ ∧ _))

end Picture

/-- Each byte of the picture is written once and no other byte is touched. A pixel shows
the colour of the luma and the alpha that are at its place in the planes, upside down. -/
structure Drawn (colour : UInt8 → UInt8 → Pixel) (p : Picture) (result : Canvas) : Prop where
  written : result.written = List.range (4 * (p.h * p.w))
  length : result.cells.length = p.canvas.length
  rest : ∀ k, 4 * (p.h * p.w) ≤ k → result.cells[k]? = p.canvas[k]?
  pixel : ∀ i < p.w, ∀ j < p.h, ∃ l a, p.lumaAt i j = some l ∧ p.alphaAt i j = some a ∧
    ∀ c < 4, result.cells[4 * (j * p.w + i) + c]? = (colour l a).bytes[c]?

/-- The amber of brightness `v`. -/
def amberPixel (v : UInt8) : Pixel := ⟨v, UInt8.ofNat (round (v.toNat * 204 / 255 : ℚ)).toNat, 0⟩

inductive Renderer where
  | colourmap (invert : Bool) (r g b : ColourTable) (fill : UInt8)
  | amber (fill : UInt8)
  | greyscale (invert : Bool) (fill : UInt8)

namespace Renderer

def shade : Renderer → UInt8 → UInt8 → Option Pixel
  | colourmap invert r g b fill => colourmapShade invert r g b fill
  | amber fill => amberShade fill
  | greyscale invert fill => greyscaleShade invert fill

def apply (renderer : Renderer) (p : Picture) : Option Canvas :=
  match renderer with
  | colourmap invert r g b fill =>
    applyColourmap p.canvas p.w p.h p.luma p.stride_luma p.alpha p.stride_alpha invert r g b fill
  | amber fill =>
    applyAmber p.canvas p.w p.h p.luma p.stride_luma p.alpha p.stride_alpha fill
  | greyscale invert fill =>
    applyGreyscale p.canvas p.w p.h p.luma p.stride_luma p.alpha p.stride_alpha invert fill

/-- The colour of a pixel with an alpha below 128. -/
def fillColour : Renderer → Pixel
  | colourmap _ _ _ _ fill => ⟨fill, fill, fill⟩
  | amber fill => amberPixel fill
  | greyscale _ fill => ⟨fill, fill, fill⟩

end Renderer

/-! ## The loops -/

variable {shade : UInt8 → UInt8 → Option Pixel} {colour : UInt8 → UInt8 → Pixel} {p : Picture}

theorem row_inside {w h stride i j : ℕ} (hi : i < w) (hj : j < h) (hw : w ≤ stride) :
    (h - 1 - j) * stride + i < h * stride := by
  calc (h - 1 - j) * stride + i < (h - 1 - j) * stride + stride := by omega
    _ = (h - 1 - j + 1) * stride := (Nat.succ_mul _ _).symm
    _ ≤ h * stride := Nat.mul_le_mul_right stride (by omega)

theorem lumaAt_eq_some {i j : ℕ} (hi : i < p.w) (hj : j < p.h) : ∃ l, p.lumaAt i j = some l := by
  refine ⟨_, List.getElem?_eq_getElem ?_⟩
  rw [p.luma_length]
  exact row_inside hi hj p.luma_width

theorem alphaAt_eq_some {i j : ℕ} (hi : i < p.w) (hj : j < p.h) :
    ∃ a, p.alphaAt i j = some a := by
  refine ⟨_, List.getElem?_eq_getElem ?_⟩
  rw [p.alpha_length]
  exact row_inside hi hj p.alpha_width

/-- The byte that belongs at offset `k` of the canvas. -/
def byteAt (colour : UInt8 → UInt8 → Pixel) (p : Picture) (k : ℕ) : Option UInt8 := do
  let l ← p.lumaAt (k / 4 % p.w) (k / 4 / p.w)
  let a ← p.alphaAt (k / 4 % p.w) (k / 4 / p.w)
  (colour l a).bytes[k % 4]?

theorem byteAt_pixel {i j c : ℕ} {l a : UInt8} (hi : i < p.w) (hc : c < 4)
    (hl : p.lumaAt i j = some l) (ha : p.alphaAt i j = some a) :
    byteAt colour p (4 * (j * p.w + i) + c) = (colour l a).bytes[c]? := by
  have hpixel : (4 * (j * p.w + i) + c) / 4 = j * p.w + i := by omega
  have hbyte : (4 * (j * p.w + i) + c) % 4 = c := by omega
  have hcolumn : (j * p.w + i) % p.w = i := by
    rw [Nat.mul_add_mod_self_right, Nat.mod_eq_of_lt hi]
  have hrow : (j * p.w + i) / p.w = j := by
    rw [Nat.mul_comm, Nat.mul_add_div (by omega), Nat.div_eq_of_lt hi, Nat.add_zero]
  rw [byteAt, hpixel, hbyte, hcolumn, hrow, hl, ha]
  rfl

/-- The first `n` bytes of the canvas are drawn, and the next one is stored behind them. -/
structure At (colour : UInt8 → UInt8 → Pixel) (p : Picture) (luma_offset alpha_offset n : ℕ)
    (cursor : Cursor) : Prop where
  luma_offset : cursor.luma_offset = luma_offset
  alpha_offset : cursor.alpha_offset = alpha_offset
  dst_offset : cursor.dst_offset = n
  filled : Filled p.canvas (byteAt colour p) n cursor.canvas

theorem at_put {x y n : ℕ} {cursor : Cursor} {v : UInt8} (h : At colour p x y n cursor)
    (hn : n < 4 * (p.h * p.w)) (hv : byteAt colour p n = some v) :
    ∃ cursor', cursor.put v = some cursor' ∧ At colour p x y (n + 1) cursor' := by
  obtain ⟨canvas, hstore, hfilled⟩ := filled_store h.filled (hn.trans_le p.canvas_length) hv
  refine ⟨{ cursor with canvas, dst_offset := cursor.dst_offset + 1 }, ?_, ?_⟩
  · rw [Cursor.put, h.dst_offset, hstore]
    rfl
  · exact ⟨h.luma_offset, h.alpha_offset, congrArg (· + 1) h.dst_offset, hfilled⟩

theorem at_pixelStep (hshade : ∀ l a, shade l a = some (colour l a)) {i j : ℕ} (hi : i < p.w)
    (hj : j < p.h) {cursor : Cursor}
    (h : At colour p ((p.h - 1 - j) * p.stride_luma + i) ((p.h - 1 - j) * p.stride_alpha + i)
      (4 * (j * p.w + i)) cursor) :
    ∃ cursor', pixelStep shade p.luma p.alpha cursor i = some cursor' ∧
      At colour p ((p.h - 1 - j) * p.stride_luma + (i + 1))
        ((p.h - 1 - j) * p.stride_alpha + (i + 1)) (4 * (j * p.w + (i + 1))) cursor' := by
  obtain ⟨l, hl⟩ := lumaAt_eq_some hi hj
  obtain ⟨a, ha⟩ := alphaAt_eq_some hi hj
  have hpixel : j * p.w + i < p.h * p.w := by
    calc j * p.w + i < j * p.w + p.w := by omega
      _ = (j + 1) * p.w := (Nat.succ_mul _ _).symm
      _ ≤ p.h * p.w := Nat.mul_le_mul_right _ hj
  have hbyte : ∀ c < 4, byteAt colour p (4 * (j * p.w + i) + c) = (colour l a).bytes[c]? :=
    fun c hc => byteAt_pixel hi hc hl ha
  have hstart : At colour p (cursor.luma_offset + 1) (cursor.alpha_offset + 1)
      (4 * (j * p.w + i)) { cursor with
        luma_offset := cursor.luma_offset + 1, alpha_offset := cursor.alpha_offset + 1 } :=
    ⟨rfl, rfl, h.dst_offset, h.filled⟩
  obtain ⟨c1, hput1, h1⟩ := at_put hstart (by omega) (hbyte 0 (by omega))
  obtain ⟨c2, hput2, h2⟩ := at_put h1 (by omega) (hbyte 1 (by omega))
  obtain ⟨c3, hput3, h3⟩ := at_put h2 (by omega) (hbyte 2 (by omega))
  obtain ⟨c4, hput4, h4⟩ := at_put h3 (by omega) (hbyte 3 (by omega))
  refine ⟨c4, ?_, ?_⟩
  · rw [Picture.lumaAt, ← h.luma_offset] at hl
    rw [Picture.alphaAt, ← h.alpha_offset] at ha
    simp only [pixelStep, hl, ha, hshade, hput1, hput2, hput3, hput4, Option.bind_eq_bind,
      Option.bind_some]
  · rw [h.luma_offset, h.alpha_offset] at h4
    exact h4

theorem int_offset {h stride j : ℕ} (hj : j < h) (hrange : (h - 1) * stride < 2147483648) :
    int ((h - 1 - j) * stride) = some (((h - 1 - j) * stride : ℕ) : ℤ) := by
  have hcast : ((h : ℤ) - 1 - j) * stride = ((h - 1 - j) * stride : ℕ) := by
    rw [Nat.cast_mul, Nat.sub_sub, Nat.cast_sub (by omega), Nat.cast_add, Nat.cast_one, sub_sub]
  have hle : (h - 1 - j) * stride ≤ (h - 1) * stride := Nat.mul_le_mul_right _ (by omega)
  rw [hcast]
  exact int_eq_some (by omega) (by omega)

theorem at_rowStep (hshade : ∀ l a, shade l a = some (colour l a)) (hrange : p.InRange) {j : ℕ}
    (hj : j < p.h) {cursor : Cursor} (h : At colour p 0 0 (4 * (j * p.w)) cursor) :
    ∃ cursor', rowStep shade p.w p.h p.luma p.stride_luma p.alpha p.stride_alpha cursor j =
      some cursor' ∧ At colour p 0 0 (4 * ((j + 1) * p.w)) cursor' := by
  have hstart : At colour p ((p.h - 1 - j) * p.stride_luma + 0)
      ((p.h - 1 - j) * p.stride_alpha + 0) (4 * (j * p.w + 0)) { cursor with
        luma_offset := (p.h - 1 - j) * p.stride_luma
        alpha_offset := (p.h - 1 - j) * p.stride_alpha } :=
    ⟨rfl, rfl, h.dst_offset, h.filled⟩
  obtain ⟨row, hrow, hdone⟩ := OptionFold.foldlM_range (Q := fun i => At colour p
    ((p.h - 1 - j) * p.stride_luma + i) ((p.h - 1 - j) * p.stride_alpha + i) (4 * (j * p.w + i)))
    (fun i hi cursor => at_pixelStep hshade hi hj) hstart
  refine ⟨{ cursor with dst_offset := row.dst_offset, canvas := row.canvas }, ?_, ?_⟩
  · simp only [rowStep, int_offset hj hrange.1, int_offset hj hrange.2, Int.toNat_natCast, hrow,
      Option.bind_eq_bind, Option.bind_some]
  · rw [Nat.succ_mul j]
    exact ⟨h.luma_offset, h.alpha_offset, hdone.dst_offset, hdone.filled⟩

theorem render_drawn (hshade : ∀ l a, shade l a = some (colour l a)) (hrange : p.InRange) :
    ∃ result, render shade p.canvas p.w p.h p.luma p.stride_luma p.alpha p.stride_alpha =
      some result ∧ Drawn colour p result := by
  have hstart : At colour p 0 0 (4 * (0 * p.w)) ⟨0, 0, 0, ⟨p.canvas, []⟩⟩ := by
    rw [Nat.zero_mul]
    exact ⟨rfl, rfl, rfl, filled_zero⟩
  obtain ⟨cursor, hrows, hdone⟩ := OptionFold.foldlM_range
    (Q := fun j => At colour p 0 0 (4 * (j * p.w)))
    (fun j hj cursor => at_rowStep hshade hrange hj) hstart
  refine ⟨cursor.canvas, ?_, hdone.filled.written, hdone.filled.length, hdone.filled.rest, ?_⟩
  · rw [render, hrows]
    rfl
  · intro i hi j hj
    obtain ⟨l, hl⟩ := lumaAt_eq_some hi hj
    obtain ⟨a, ha⟩ := alphaAt_eq_some hi hj
    refine ⟨l, a, hl, ha, fun c hc => ?_⟩
    rw [← byteAt_pixel hi hc hl ha]
    have hrow : (j + 1) * p.w ≤ p.h * p.w := Nat.mul_le_mul_right _ hj
    rw [Nat.succ_mul] at hrow
    exact hdone.filled.filled _ (by omega)

theorem rowStep_undefined (hrange : ¬p.InRange) (cursor : Cursor) :
    rowStep shade p.w p.h p.luma p.stride_luma p.alpha p.stride_alpha cursor 0 = none := by
  have hoverflow : ∀ stride : ℕ, ¬(p.h - 1) * stride < 2147483648 →
      int ((p.h - 1 - (0 : ℕ)) * stride) = none := by
    intro stride hstride
    have hcast : ((p.h : ℤ) - 1 - (0 : ℕ)) * stride = ((p.h - 1) * stride : ℕ) := by
      rcases Nat.eq_zero_or_pos p.h with hh | hh
      · rw [hh, Nat.zero_sub, Nat.zero_mul] at hstride
        omega
      · rw [Nat.cast_mul, Nat.cast_sub hh, Nat.cast_one, Nat.cast_zero, sub_zero]
    rw [hcast, int, if_neg (by omega)]
  rw [rowStep]
  by_cases hluma : (p.h - 1) * p.stride_luma < 2147483648
  · rw [hoverflow p.stride_alpha fun halpha => hrange ⟨hluma, halpha⟩]
    cases int ((p.h - 1 - (0 : ℕ)) * p.stride_luma) <;> rfl
  · rw [hoverflow p.stride_luma hluma]
    rfl

theorem render_undefined (hrange : ¬p.InRange) :
    render shade p.canvas p.w p.h p.luma p.stride_luma p.alpha p.stride_alpha = none := by
  have hfirst : 0 ∈ List.range p.h := by
    refine List.mem_range.mpr (Nat.pos_of_ne_zero fun hh => hrange ?_)
    rw [Picture.InRange, hh]
    omega
  rw [render, OptionFold.foldlM_none hfirst (rowStep_undefined hrange)]
  rfl

/-! ## The colours -/

theorem single_error {q : ℚ} (hq : |q| < 512) : |single.round q - q| ≤ 1 / 32768 := by
  have hbound : |q| < 2 ^ (9 : ℤ) := by
    norm_num
    exact hq
  calc |single.round q - q| ≤ 2 ^ ((9 : ℤ) - single.precision) :=
        round_error (by decide) hbound
    _ = 1 / 32768 := by norm_num [single]

theorem single_quarter {n : ℕ} (hn : n < 16777216) : single.round (n / 4) = n / 4 := by
  refine round_of_isFloat ⟨n, -2, ?_, by decide, ?_⟩
  · rw [Nat.abs_cast]
    exact_mod_cast hn
  · rw [zpow_neg, div_eq_mul_inv, Int.cast_natCast]
    norm_num

theorem interpFactor_eq : interpFactor = 1 / 4 := by
  have hquarter : (64 : ℚ) / 256 = (1 : ℕ) / 4 := by norm_num
  rw [interpFactor, hquarter, single_quarter (by decide), Nat.cast_one]

theorem convex_mem {low high frac : ℚ} (hlow : 0 ≤ low ∧ low ≤ 1) (hhigh : 0 ≤ high ∧ high ≤ 1)
    (hfrac : 0 ≤ frac ∧ frac ≤ 1) :
    0 ≤ low + (high - low) * frac ∧ low + (high - low) * frac ≤ 1 := by
  have hsplit : low + (high - low) * frac = low * (1 - frac) + high * frac := by ring
  have hrest : 0 ≤ 1 - frac := sub_nonneg.mpr hfrac.2
  rw [hsplit]
  constructor
  · exact add_nonneg (mul_nonneg hlow.1 hrest) (mul_nonneg hhigh.1 hfrac.1)
  · calc low * (1 - frac) + high * frac ≤ 1 * (1 - frac) + 1 * frac :=
          add_le_add (mul_le_mul_of_nonneg_right hlow.2 hrest)
            (mul_le_mul_of_nonneg_right hhigh.2 hfrac.1)
      _ = 1 := by ring

/-- The four roundings do not take the value out of the range of `unsigned char`. -/
theorem blend_mem {low high frac : ℚ} (hlow : 0 ≤ low ∧ low ≤ 1) (hhigh : 0 ≤ high ∧ high ≤ 1)
    (hfrac : 0 ≤ frac ∧ frac ≤ 1) : -1 < blend low high frac ∧ blend low high frac < 256 := by
  have hexact := convex_mem hlow hhigh hfrac
  have hdiff : |single.round (high - low) - (high - low)| ≤ 1 / 32768 := by
    refine single_error (abs_lt.mpr ⟨?_, ?_⟩) <;> linarith
  rw [blend]
  generalize single.round (high - low) = diff at hdiff ⊢
  have hproduct : |diff * frac - (high - low) * frac| ≤ 1 / 32768 := by
    rw [← sub_mul, abs_mul, abs_of_nonneg hfrac.1]
    calc |diff - (high - low)| * frac ≤ 1 / 32768 * 1 :=
          mul_le_mul hdiff hfrac.2 hfrac.1 (by norm_num)
      _ = 1 / 32768 := mul_one _
  rw [abs_le] at hproduct
  have hstep : |single.round (diff * frac) - diff * frac| ≤ 1 / 32768 := by
    refine single_error (abs_lt.mpr ⟨?_, ?_⟩) <;> linarith
  generalize single.round (diff * frac) = step at hstep ⊢
  rw [abs_le] at hstep
  have hsum : |single.round (low + step) - (low + step)| ≤ 1 / 32768 := by
    refine single_error (abs_lt.mpr ⟨?_, ?_⟩) <;> linarith
  generalize single.round (low + step) = sum at hsum ⊢
  rw [abs_le] at hsum
  have hbyte : |single.round (255 * sum) - 255 * sum| ≤ 1 / 32768 := by
    refine single_error (abs_lt.mpr ⟨?_, ?_⟩) <;> linarith
  rw [abs_le] at hbyte
  constructor <;> linarith

theorem interpolate_mem (r : ColourTable) {x0 : ℕ} (hx0 : x0 ≤ 63) {frac : ℚ}
    (hfrac : 0 ≤ frac ∧ frac ≤ 1) :
    ∃ x, interpolate r x0 frac = some x ∧ -1 < x ∧ x < 256 := by
  have hlow : x0 < r.entries.length := by rw [r.length_eq]; omega
  have hhigh : x0 + 1 < r.entries.length := by rw [r.length_eq]; omega
  refine ⟨blend r.entries[x0] r.entries[x0 + 1] frac, ?_, ?_⟩
  · rw [interpolate, List.getElem?_eq_getElem hlow, List.getElem?_eq_getElem hhigh]
    rfl
  · exact blend_mem (r.unit _ (List.getElem_mem hlow)) (r.unit _ (List.getElem_mem hhigh)) hfrac

theorem toUChar_eq_some {x : ℚ} (hx : -1 < x ∧ x < 256) :
    toUChar x = some (UInt8.ofNat ⌊x⌋.toNat) := if_pos hx

theorem interpolate_pixel (r : ColourTable) (pixel : UInt8) :
    ∃ v, (interpolate r ⌊single.round (pixel.toNat * interpFactor)⌋.toNat
      (single.round (single.round (pixel.toNat * interpFactor) -
        ⌊single.round (pixel.toNat * interpFactor)⌋))).bind toUChar = some v := by
  have hpixel := pixel.toNat_lt
  have hpos : single.round (pixel.toNat * interpFactor) = (pixel.toNat : ℚ) / 4 := by
    rw [interpFactor_eq, mul_one_div, single_quarter (by omega)]
  rw [hpos]
  have hindex : ⌊(pixel.toNat : ℚ) / 4⌋.toNat ≤ 63 := by
    have hbound : (pixel.toNat : ℚ) < 256 := by exact_mod_cast hpixel
    have hfloor : ⌊(pixel.toNat : ℚ) / 4⌋ < 64 := Int.floor_lt.mpr (by push_cast; linarith)
    omega
  have hfrac := round_unit (F := single) (by decide)
    ⟨sub_nonneg.mpr (Int.floor_le ((pixel.toNat : ℚ) / 4)),
      (Int.fract_lt_one ((pixel.toNat : ℚ) / 4)).le⟩
  obtain ⟨x, hx, hrange⟩ := interpolate_mem r hindex hfrac
  exact ⟨_, by rw [hx, Option.bind_some, toUChar_eq_some hrange]⟩

theorem mask_fill {alpha : UInt8} (h : alpha < 128) : mask alpha = 0 := if_pos h

theorem colourmapShade_eq_some (invert : Bool) (r g b : ColourTable) (fill luma alpha : UInt8) :
    ∃ pixel, colourmapShade invert r g b fill luma alpha = some pixel ∧
      (alpha < 128 → pixel = ⟨fill, fill, fill⟩) := by
  obtain ⟨r_pixel, hr⟩ := interpolate_pixel r (if invert then 255 - luma else luma)
  obtain ⟨g_pixel, hg⟩ := interpolate_pixel g (if invert then 255 - luma else luma)
  obtain ⟨b_pixel, hb⟩ := interpolate_pixel b (if invert then 255 - luma else luma)
  refine ⟨⟨if mask alpha = 0 then fill else r_pixel, if mask alpha = 0 then fill else g_pixel,
    if mask alpha = 0 then fill else b_pixel⟩, ?_, ?_⟩
  · rw [colourmapShade]
    simp only [hr, hg, hb, Option.bind_eq_bind, Option.bind_some]
  · intro halpha
    rw [if_pos (mask_fill halpha), if_pos (mask_fill halpha), if_pos (mask_fill halpha)]

theorem roundf_eq {x : ℚ} {n : ℤ} (h : |x - n| < 1 / 2) : roundf x = n := by
  rw [abs_lt] at h
  rw [roundf]
  split
  · have hfloor : ⌊x + 1 / 2⌋ = n := Int.floor_eq_iff.mpr ⟨by linarith, by linarith⟩
    rw [hfloor]
  · have hceil : ⌈x - 1 / 2⌉ = n := Int.ceil_eq_iff.mpr ⟨by linarith, by linarith⟩
    rw [hceil]

/-- Four fifths of a whole number are not close to the middle of two whole numbers. -/
theorem round_fifths (n : ℕ) : |(n * 204 / 255 : ℚ) - round (n * 204 / 255 : ℚ)| ≤ 2 / 5 := by
  have hround := abs_le.mp (abs_sub_round (n * 204 / 255 : ℚ))
  generalize round (n * 204 / 255 : ℚ) = m at *
  have hlow : -3 < 4 * (n : ℤ) - 5 * m := by
    have hcast : ((-3 : ℤ) : ℚ) < (4 * (n : ℤ) - 5 * m : ℤ) := by push_cast; linarith
    exact_mod_cast hcast
  have hhigh : 4 * (n : ℤ) - 5 * m < 3 := by
    have hcast : ((4 * (n : ℤ) - 5 * m : ℤ) : ℚ) < (3 : ℤ) := by push_cast; linarith
    exact_mod_cast hcast
  have hlow' : ((-2 : ℤ) : ℚ) ≤ (4 * (n : ℤ) - 5 * m : ℤ) := by exact_mod_cast (by omega)
  have hhigh' : ((4 * (n : ℤ) - 5 * m : ℤ) : ℚ) ≤ (2 : ℤ) := by exact_mod_cast (by omega)
  push_cast at hlow' hhigh'
  rw [abs_le]
  constructor <;> linarith

theorem roundf_amber (n : ℕ) (hn : n < 256) :
    roundf (single.round (single.round (n * 204) / 255)) = round (n * 204 / 255 : ℚ) := by
  have hn' : (n : ℚ) < 256 := by exact_mod_cast hn
  have hn0 : (0 : ℚ) ≤ n := Nat.cast_nonneg n
  have hproduct : single.round (n * 204) = (n : ℚ) * 204 := by
    have h := round_of_isFloat (isFloat_natCast (F := single) (by decide) (n := n * 204)
      (show n * 204 < 16777216 by omega))
    push_cast at h
    exact h
  have herror : |single.round ((n : ℚ) * 204 / 255) - n * 204 / 255| ≤ 1 / 32768 := by
    refine single_error (abs_lt.mpr ⟨?_, ?_⟩) <;> linarith
  have hfifths := round_fifths n
  rw [hproduct]
  apply roundf_eq
  rw [abs_le] at herror hfifths
  rw [abs_lt]
  constructor <;> linarith

theorem amberShade_eq (fill luma alpha : UInt8) :
    amberShade fill luma alpha = some (amberPixel (if mask alpha = 0 then fill else luma)) := by
  have hgreen : ∀ v : UInt8, toUChar (clamp
      (roundf (single.round (single.round (v.toNat * 204) / 255))) 0 255) =
      some (UInt8.ofNat (round (v.toNat * 204 / 255 : ℚ)).toNat) := by
    intro v
    have hv : (v.toNat : ℚ) < 256 := by exact_mod_cast v.toNat_lt
    have hv0 : (0 : ℚ) ≤ v.toNat := Nat.cast_nonneg _
    have hfifths := abs_le.mp (round_fifths v.toNat)
    rw [roundf_amber _ v.toNat_lt]
    generalize round (v.toNat * 204 / 255 : ℚ) = m at *
    have hlow : ((-1 : ℤ) : ℚ) < m := by push_cast; linarith
    have hhigh : (m : ℚ) < (256 : ℤ) := by push_cast; linarith
    rw [Int.cast_lt] at hlow hhigh
    have hlow : ((0 : ℤ) : ℚ) ≤ m := Int.cast_le.mpr (by omega)
    have hhigh : (m : ℚ) ≤ (255 : ℤ) := Int.cast_le.mpr (by omega)
    push_cast at hlow hhigh
    rw [clamp, if_neg (not_lt.mpr hlow), if_neg (not_lt.mpr hhigh),
      toUChar_eq_some ⟨by linarith, by linarith⟩, Int.floor_intCast]
  rw [amberShade, hgreen]
  rfl

/-! ## The renderers -/

namespace Renderer

theorem apply_eq (renderer : Renderer) (p : Picture) : renderer.apply p =
    render renderer.shade p.canvas p.w p.h p.luma p.stride_luma p.alpha p.stride_alpha := by
  cases renderer <;> rfl

theorem shade_eq_some (renderer : Renderer) (l a : UInt8) :
    ∃ pixel, renderer.shade l a = some pixel ∧ (a < 128 → pixel = renderer.fillColour) := by
  cases renderer with
  | colourmap invert r g b fill => exact colourmapShade_eq_some invert r g b fill l a
  | amber fill =>
    refine ⟨_, amberShade_eq fill l a, fun ha => ?_⟩
    rw [if_pos (mask_fill ha)]
    rfl
  | greyscale invert fill =>
    refine ⟨_, rfl, fun ha => ?_⟩
    rw [if_pos (mask_fill ha)]
    rfl

theorem exists_colour (renderer : Renderer) : ∃ colour : UInt8 → UInt8 → Pixel,
    (∀ l a, renderer.shade l a = some (colour l a)) ∧
      ∀ l a, a < 128 → colour l a = renderer.fillColour := by
  choose colour hshade hfill using renderer.shade_eq_some
  exact ⟨colour, hshade, hfill⟩

/-- A renderer draws exactly the pictures whose offsets fit `int`. -/
theorem drawn_iff_inRange (renderer : Renderer) : ∃ colour : UInt8 → UInt8 → Pixel,
    (∀ l a, a < 128 → colour l a = renderer.fillColour) ∧
      ∀ p : Picture, (∃ result, renderer.apply p = some result ∧ Drawn colour p result) ↔
        p.InRange := by
  obtain ⟨colour, hshade, hfill⟩ := renderer.exists_colour
  refine ⟨colour, hfill, fun p => ⟨?_, fun hrange => ?_⟩⟩
  · rintro ⟨result, hresult, -⟩
    by_contra hrange
    rw [apply_eq, render_undefined hrange] at hresult
    cases hresult
  · rw [apply_eq]
    exact render_drawn hshade hrange

end Renderer

/-- Two rows of two pixels in planes with rows of three bytes. -/
example : applyGreyscale (List.replicate 16 0) 2 2 [1, 2, 9, 3, 4, 9] 3
    [255, 255, 0, 255, 0, 0] 3 false 7 =
      some ⟨[3, 3, 3, 255, 7, 7, 7, 255, 1, 1, 1, 255, 2, 2, 2, 255], List.range 16⟩ := by
  decide

def tallPicture : Picture where
  canvas := List.replicate 12 0
  w := 1
  h := 3
  luma := List.replicate (3 * 1073741824) 0
  stride_luma := 1073741824
  alpha := List.replicate (3 * 1) 0
  stride_alpha := 1
  luma_width := by decide
  alpha_width := le_rfl
  luma_length := List.length_replicate
  alpha_length := List.length_replicate
  canvas_length := by decide

theorem not_always_drawn : ¬∀ renderer : Renderer, ∃ colour : UInt8 → UInt8 → Pixel,
    (∀ l a, a < 128 → colour l a = renderer.fillColour) ∧
      ∀ p : Picture, ∃ result, renderer.apply p = some result ∧ Drawn colour p result := by
  intro h
  obtain ⟨colour, -, hdrawn⟩ := h (.greyscale false 0)
  obtain ⟨result, hresult, -⟩ := hdrawn tallPicture
  have hrange : ¬tallPicture.InRange := by decide
  rw [Renderer.apply_eq, render_undefined hrange] at hresult
  cases hresult

end XWebQL.Colourmap
