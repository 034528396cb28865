import Mathlib.Analysis.Convex.Segment
import Mathlib.Tactic.FieldSimp
import Mathlib.Tactic.Linarith
import Mathlib.Tactic.LinearCombination
import Mathlib.Tactic.Module
import Mathlib.Tactic.Positivity

/-! The zeros of a linear function on a triangle.
The function is given by its values at the vertices. Where it changes its sign between
two vertices it is zero at one point of the side between them, and the zeros of the
triangle are the segment between two such points or vertices. -/

namespace XWebQL.LinearTriangle

section Section

variable {K E : Type*} [Field K] [AddCommGroup E] [Module K E]

/-- The zero between two points with the values `h` and `k`. -/
def sect (p q : E) (h k : K) : E := (k / (k - h)) • p + (-h / (k - h)) • q

theorem sect_comm (p q : E) (h k : K) : sect p q h k = sect q p k h := by
  have hdiv : ∀ x : K, -x / (h - k) = x / (k - h) := fun x => by
    rw [← neg_sub k h, neg_div_neg_eq]
  have hneg : h / (h - k) = -h / (k - h) := by rw [← neg_sub k h, div_neg, neg_div]
  rw [sect, sect, add_comm, hdiv, hneg]

theorem sect_neg (p q : E) (h k : K) : sect p q (-h) (-k) = sect p q h k := by
  have hsub : -k - -h = -(k - h) := by ring
  rw [sect, sect, hsub, neg_neg, neg_div_neg_eq, div_neg, neg_div]

theorem weight_unique {b c v w : K} (hbc : b ≠ c) (hzero : v * b + w * c = 0) :
    v = (v + w) * (c / (c - b)) ∧ w = (v + w) * (-b / (c - b)) := by
  have hne : c - b ≠ 0 := sub_ne_zero.mpr hbc.symm
  constructor
  · field_simp
    linear_combination -hzero
  · field_simp
    linear_combination hzero

end Section

section ZeroSet

variable {K E : Type*} [Field K] [LinearOrder K] [AddCommGroup E] [Module K E]

def zeroSet (p q r : E) (a b c : K) : Set E :=
  {x | ∃ u v w : K, 0 ≤ u ∧ 0 ≤ v ∧ 0 ≤ w ∧ u + v + w = 1 ∧ u * a + v * b + w * c = 0 ∧
    u • p + v • q + w • r = x}

variable {p q r : E} {a b c : K}

theorem zeroSet_neg (p q r : E) (a b c : K) :
    zeroSet p q r (-a) (-b) (-c) = zeroSet p q r a b c := by
  have hiff : ∀ u v w : K, u * -a + v * -b + w * -c = 0 ↔ u * a + v * b + w * c = 0 := by
    intro u v w
    rw [← neg_eq_zero]
    ring_nf
  simp only [zeroSet, hiff]

variable [IsStrictOrderedRing K]

theorem zeroSet_rotate (p q r : E) (a b c : K) : zeroSet p q r a b c = zeroSet q r p b c a := by
  ext x
  constructor
  · rintro ⟨u, v, w, hu, hv, hw, hsum, hzero, hx⟩
    refine ⟨v, w, u, hv, hw, hu, by linarith, by linarith, ?_⟩
    rw [← hx]
    abel
  · rintro ⟨v, w, u, hv, hw, hu, hsum, hzero, hx⟩
    refine ⟨u, v, w, hu, hv, hw, by linarith, by linarith, ?_⟩
    rw [← hx]
    abel

theorem zeroSet_vertex_side (hb : b < 0) (hc : 0 < c) :
    zeroSet p q r 0 b c = segment K p (sect q r b c) := by
  have hpos : 0 < c - b := by linarith
  ext x
  constructor
  · rintro ⟨u, v, w, hu, hv, hw, hsum, hzero, hx⟩
    have hzero' : v * b + w * c = 0 := by linear_combination hzero
    obtain ⟨hv', hw'⟩ := weight_unique (by linarith) hzero'
    refine ⟨u, v + w, hu, by linarith, by linarith, ?_⟩
    rw [sect, smul_add, smul_smul, smul_smul, ← hv', ← hw', ← add_assoc, hx]
  · rintro ⟨u, s, hu, hs, hsum, hx⟩
    refine ⟨u, s * (c / (c - b)), s * (-b / (c - b)), hu, by positivity, ?_, ?_, ?_, ?_⟩
    · exact mul_nonneg hs (div_nonneg (by linarith) hpos.le)
    · field_simp
      linear_combination (c - b) * hsum
    · field_simp
      ring
    · rw [← hx, sect, smul_add, smul_smul, smul_smul, add_assoc]

theorem zeroSet_side (hc : c ≠ 0) : zeroSet p q r 0 0 c = segment K p q := by
  ext x
  constructor
  · rintro ⟨u, v, w, hu, hv, -, hsum, hzero, hx⟩
    have hw : w = 0 := by simpa [hc] using hzero
    refine ⟨u, v, hu, hv, by linarith, ?_⟩
    rw [← hx, hw, zero_smul, add_zero]
  · rintro ⟨u, v, hu, hv, hsum, hx⟩
    exact ⟨u, v, 0, hu, hv, le_rfl, by linarith, by ring, by rw [zero_smul, add_zero, hx]⟩

theorem zeroSet_sides (ha : a < 0) (hb : 0 < b) (hc : 0 < c) :
    zeroSet p q r a b c = segment K (sect p q a b) (sect p r a c) := by
  have hba : 0 < b - a := by linarith
  have hca : 0 < c - a := by linarith
  ext x
  constructor
  · rintro ⟨u, v, w, hu, hv, hw, hsum, hzero, hx⟩
    have hna : 0 < -a := by linarith
    refine ⟨v * ((b - a) / -a), w * ((c - a) / -a), ?_, ?_, ?_, ?_⟩
    · exact mul_nonneg hv (div_nonneg hba.le hna.le)
    · exact mul_nonneg hw (div_nonneg hca.le hna.le)
    · rw [← mul_div_assoc, ← mul_div_assoc, ← add_div, div_eq_one_iff_eq hna.ne']
      linear_combination hzero - a * hsum
    · have hu' : u = v * (b / -a) + w * (c / -a) := by
        rw [← mul_div_assoc, ← mul_div_assoc, ← add_div, eq_div_iff hna.ne']
        linear_combination -hzero
      have hcancel : ∀ y z d : K, d ≠ 0 → z ≠ 0 → y * (d / z) * (z / d) = y := by
        intro y z d hd hz
        field_simp
      have hshare : ∀ y z d : K, d ≠ 0 → y * (d / -a) * (z / d) = y * (z / -a) := by
        intro y z d hd
        field_simp
      rw [← hx, sect, sect, hu', smul_add, smul_add, smul_smul, smul_smul, smul_smul, smul_smul,
        hcancel v (-a) (b - a) hba.ne' hna.ne', hcancel w (-a) (c - a) hca.ne' hna.ne',
        hshare v b (b - a) hba.ne', hshare w c (c - a) hca.ne']
      module
  · rintro ⟨s, t, hs, ht, hsum, hx⟩
    refine ⟨s * (b / (b - a)) + t * (c / (c - a)), s * (-a / (b - a)), t * (-a / (c - a)),
      ?_, ?_, ?_, ?_, ?_, ?_⟩
    · positivity
    · exact mul_nonneg hs (div_nonneg (by linarith) hba.le)
    · exact mul_nonneg ht (div_nonneg (by linarith) hca.le)
    · field_simp
      linear_combination (b - a) * (c - a) * hsum
    · field_simp
      ring
    · rw [← hx, sect, sect]
      module

theorem zeroSet_vertex (hbc : 0 < b * c) : zeroSet p q r 0 b c = {p} := by
  have hpos : ∀ {b c : K}, 0 < b → 0 < c → zeroSet p q r 0 b c = {p} := by
    intro b c hb hc
    ext x
    constructor
    · rintro ⟨u, v, w, hu, hv, hw, hsum, hzero, hx⟩
      have hv' : v = 0 := by
        rcases hv.eq_or_lt with hv | hv
        · exact hv.symm
        · nlinarith [mul_pos hv hb, mul_nonneg hw hc.le]
      have hw' : w = 0 := by
        rcases hw.eq_or_lt with hw | hw
        · exact hw.symm
        · nlinarith [mul_pos hw hc, mul_nonneg hv hb.le]
      have hu' : u = 1 := by linarith
      rw [← hx, hu', hv', hw', one_smul, zero_smul, zero_smul, add_zero, add_zero]
      rfl
    · rintro rfl
      exact ⟨1, 0, 0, zero_le_one, le_rfl, le_rfl, by ring, by ring, by simp⟩
  rcases pos_and_pos_or_neg_and_neg_of_mul_pos hbc with ⟨hb, hc⟩ | ⟨hb, hc⟩
  · exact hpos hb hc
  · rw [← zeroSet_neg, neg_zero]
    exact hpos (neg_pos.mpr hb) (neg_pos.mpr hc)

theorem zeroSet_empty (ha : 0 < a) (hb : 0 < b) (hc : 0 < c) : zeroSet p q r a b c = ∅ := by
  refine Set.eq_empty_of_forall_notMem ?_
  rintro x ⟨u, v, w, hu, hv, hw, hsum, hzero, -⟩
  have hua := mul_nonneg hu ha.le
  have hvb := mul_nonneg hv hb.le
  have hwc := mul_nonneg hw hc.le
  have hu' : u = 0 := (mul_eq_zero.mp (by linarith)).resolve_right ha.ne'
  have hv' : v = 0 := (mul_eq_zero.mp (by linarith)).resolve_right hb.ne'
  have hw' : w = 0 := (mul_eq_zero.mp (by linarith)).resolve_right hc.ne'
  rw [hu', hv', hw', add_zero, add_zero] at hsum
  exact zero_ne_one hsum

theorem zeroSet_vertex_section (hbc : b * c < 0) :
    zeroSet p q r 0 b c = segment K p (sect q r b c) := by
  rcases mul_neg_iff.mp hbc with ⟨hb, hc⟩ | ⟨hb, hc⟩
  · rw [← zeroSet_neg, neg_zero, ← sect_neg]
    exact zeroSet_vertex_side (neg_lt_zero.mpr hb) (neg_pos.mpr hc)
  · exact zeroSet_vertex_side hb hc

theorem zeroSet_sections (hab : a * b < 0) (hca : c * a < 0) :
    zeroSet p q r a b c = segment K (sect p q a b) (sect p r a c) := by
  rcases mul_neg_iff.mp hab with ⟨ha, hb⟩ | ⟨ha, hb⟩
  · have hc : c < 0 := neg_of_mul_neg_left hca ha.le
    rw [← zeroSet_neg, ← sect_neg p q, ← sect_neg p r]
    exact zeroSet_sides (neg_lt_zero.mpr ha) (neg_pos.mpr hb) (neg_pos.mpr hc)
  · exact zeroSet_sides ha hb (pos_of_mul_neg_left hca ha.le)

theorem zeroSet_same_sign (hab : 0 < a * b) (hbc : 0 ≤ b * c) (hca : 0 ≤ c * a) {x : E}
    (hx : x ∈ zeroSet p q r a b c) : c = 0 ∧ x = r := by
  rcases eq_or_ne c 0 with rfl | hc
  · rw [← zeroSet_rotate r p q, zeroSet_vertex hab] at hx
    exact ⟨rfl, hx⟩
  · refine absurd hx ?_
    rcases pos_and_pos_or_neg_and_neg_of_mul_pos hab with ⟨ha, hb⟩ | ⟨ha, hb⟩
    · have hc' : 0 < c := lt_of_le_of_ne (nonneg_of_mul_nonneg_left hca ha) hc.symm
      rw [zeroSet_empty ha hb hc']
      exact Set.notMem_empty x
    · have hc' : c < 0 := lt_of_le_of_ne (nonpos_of_mul_nonneg_left hca ha) hc
      rw [← zeroSet_neg, zeroSet_empty (neg_pos.mpr ha) (neg_pos.mpr hb) (neg_pos.mpr hc')]
      exact Set.notMem_empty x

end ZeroSet

end XWebQL.LinearTriangle
