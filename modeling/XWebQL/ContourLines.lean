import XWebQL.Conrec
import XWebQL.OptionFold
import Mathlib.Data.Sign.Basic

/-! Where the contour lines are.
A line is the part of its triangle where the linear function through the three heights is
zero. The comparison of the level with the lowest and the highest corner of a box, and of
these with the lowest and the highest level, leaves out no line. -/

namespace XWebQL.ContourLines

open Conrec FloatArithmetic LineDrawing
open LinearTriangle hiding sect

section Cases

def CaseOf {R : Type} [MulZeroClass R] [LinearOrder R] (a b c : R) : ℕ → Prop
  | 0 => (0 < a * b ∧ 0 ≤ b * c ∧ 0 ≤ c * a) ∨ (0 < b * c ∧ 0 ≤ c * a ∧ 0 ≤ a * b) ∨
      (0 < c * a ∧ 0 ≤ a * b ∧ 0 ≤ b * c)
  | 1 => a = 0 ∧ b = 0 ∧ c ≠ 0
  | 2 => b = 0 ∧ c = 0 ∧ a ≠ 0
  | 3 => c = 0 ∧ a = 0
  | 4 => a = 0 ∧ b * c < 0
  | 5 => b = 0 ∧ c * a < 0
  | 6 => c = 0 ∧ a * b < 0
  | 7 => a * b < 0 ∧ b * c < 0
  | 8 => b * c < 0 ∧ c * a < 0
  | 9 => c * a < 0 ∧ a * b < 0
  | _ + 10 => False

instance decidableCaseOf (a b c : ℤ) (n : ℕ) : Decidable (CaseOf a b c n) :=
  match n with
  | 0 => inferInstanceAs (Decidable (_ ∨ _ ∨ _))
  | 1 | 2 => inferInstanceAs (Decidable (_ ∧ _ ∧ _))
  | 3 | 4 | 5 | 6 | 7 | 8 | 9 => inferInstanceAs (Decidable (_ ∧ _))
  | _ + 10 => inferInstanceAs (Decidable False)

theorem sh_eq_sign (h : ℚ) : sh h = SignType.sign h := by
  rw [sh, sign_apply]
  split_ifs <;> rfl

theorem sh_mem (h : ℚ) : sh h ∈ [-1, 0, 1] := by
  rw [sh]
  split_ifs <;> simp

theorem caseOf_sh {a b c : ℚ} {n : ℕ} : CaseOf (sh a) (sh b) (sh c) n ↔ CaseOf a b c n := by
  have hzero : ∀ x, sh x = 0 ↔ x = 0 := fun x => by
    rw [sh]
    split_ifs with hp hn
    · simp [hp.ne']
    · simp [hn.ne]
    · simp [le_antisymm (not_lt.mp hp) (not_lt.mp hn)]
  have hmul : ∀ x y, sh x * sh y = sh (x * y) := fun x y => by simp [sh_eq_sign, sign_mul]
  have hpos : ∀ x, 0 < sh x ↔ 0 < x := fun x => by
    rw [sh]
    split_ifs <;> simp [*]
  have hneg : ∀ x, sh x < 0 ↔ x < 0 := fun x => by
    rw [sh]
    split_ifs with hp hn
    · simp [hp.le]
    · simp [hn]
    · simp [not_lt.mp hn]
  have hnonneg : ∀ x, 0 ≤ sh x ↔ 0 ≤ x := fun x => by rw [← not_lt, hneg, not_lt]
  match n with
  | 0 | 1 | 2 | 3 | 4 | 5 | 6 | 7 | 8 | 9 =>
    simp only [CaseOf, hmul, hzero, hpos, hneg, hnonneg, ne_eq]
  | _ + 10 => rfl

theorem castab_caseOf : ∀ s1 ∈ [-1, 0, 1], ∀ s2 ∈ [-1, 0, 1], ∀ s3 ∈ [-1, 0, 1],
    ∃ n ∈ List.range 10, ((get castab (s1 + 1)).bind fun plane =>
      (get plane (s2 + 1)).bind fun row => get row (s3 + 1)) = some n ∧ CaseOf s1 s2 s3 n := by
  decide

theorem caseValue_caseOf (v1 v2 v3 : Vertex) :
    ∃ n, caseValue v1 v2 v3 = some n ∧ CaseOf v1.h v2.h v3.h n := by
  obtain ⟨n, -, hn, hcase⟩ := castab_caseOf _ (sh_mem v1.h) _ (sh_mem v2.h) _ (sh_mem v3.h)
  exact ⟨n, hn, caseOf_sh.mp hcase⟩

end Cases

structure Triangle where
  v1 : Vertex
  v2 : Vertex
  v3 : Vertex

def Triangle.line (A : Arithmetic) (t : Triangle) : Option Segment :=
  (caseValue t.v1 t.v2 t.v3).bind fun n => caseLine A n t.v1 t.v2 t.v3

section Zeros

variable {v p q p' q' : Vertex} {t : Triangle}

def place (v : Vertex) : ℚ × ℚ := (v.x, v.y)

def points (s : Segment) : Set (ℚ × ℚ) := segment ℚ (s.x1, s.y1) (s.x2, s.y2)

def Triangle.zeros (t : Triangle) : Set (ℚ × ℚ) :=
  zeroSet (place t.v1) (place t.v2) (place t.v3) t.v1.h t.v2.h t.v3.h

def Triangle.Flat (t : Triangle) : Prop := t.v1.h = 0 ∧ t.v2.h = 0 ∧ t.v3.h = 0

def between (p q : Vertex) : ℚ × ℚ := LinearTriangle.sect (place p) (place q) p.h q.h

theorem between_comm (p q : Vertex) : between p q = between q p := LinearTriangle.sect_comm ..

theorem sect_rationals (h : p.h * q.h < 0) :
    sect rationals Vertex.x p q = some (between p q).1 ∧
      sect rationals Vertex.y p q = some (between p q).2 := by
  have hne : q.h - p.h ≠ 0 := by
    intro heq
    rw [sub_eq_zero.mp heq] at h
    exact absurd h (not_lt.mpr (mul_self_nonneg _))
  have hdiv : ∀ a b : ℚ, (q.h * a - p.h * b) / (q.h - p.h) =
      q.h / (q.h - p.h) * a + -p.h / (q.h - p.h) * b := fun a b => by ring
  simp [sect, rationals, hne, between, LinearTriangle.sect, place, hdiv]

theorem vertexSide_rationals (h : p.h * q.h < 0) : ∃ s, vertexSide rationals v p q = some s ∧
    points s = segment ℚ (place v) (between p q) := by
  obtain ⟨hx, hy⟩ := sect_rationals h
  exact ⟨_, by rw [vertexSide, hx, hy]; rfl, rfl⟩

theorem sideSide_rationals (h : p.h * q.h < 0) (h' : p'.h * q'.h < 0) :
    ∃ s, sideSide rationals p q p' q' = some s ∧
      points s = segment ℚ (between p q) (between p' q') := by
  obtain ⟨hx, hy⟩ := sect_rationals h
  obtain ⟨hx', hy'⟩ := sect_rationals h'
  exact ⟨_, by rw [sideSide, hx, hy, hx', hy']; rfl, rfl⟩

theorem zeros_rotate (v1 v2 v3 : Vertex) :
    Triangle.zeros ⟨v1, v2, v3⟩ = Triangle.zeros ⟨v2, v3, v1⟩ := zeroSet_rotate ..

theorem zeros_side (hp : p.h = 0) (hq : q.h = 0) (hv : v.h ≠ 0) :
    Triangle.zeros ⟨p, q, v⟩ = segment ℚ (place p) (place q) := by
  rw [Triangle.zeros, hp, hq]
  exact zeroSet_side hv

theorem zeros_vertex (hv : v.h = 0) (h : p.h * q.h < 0) :
    Triangle.zeros ⟨v, p, q⟩ = segment ℚ (place v) (between p q) := by
  rw [Triangle.zeros, hv]
  exact zeroSet_vertex_section h

theorem zeros_sections (h : v.h * p.h < 0) (h' : q.h * v.h < 0) :
    Triangle.zeros ⟨v, p, q⟩ = segment ℚ (between v p) (between v q) := zeroSet_sections h h'

/-- What is drawn in a triangle. Only a zero at a vertex alone has no line, and only of a
triangle that is zero all over there is more than its line. -/
theorem line_zeros (t : Triangle) :
    (∃ s, t.line rationals = some s ∧
      (points s = t.zeros ∨ t.Flat ∧ points s = segment ℚ (place t.v3) (place t.v1))) ∨
    t.line rationals = none ∧
      ∀ x ∈ t.zeros, ∃ v ∈ [t.v1, t.v2, t.v3], v.h = 0 ∧ x = place v := by
  obtain ⟨v1, v2, v3⟩ := t
  obtain ⟨n, hn, hcase⟩ := caseValue_caseOf v1 v2 v3
  have hline : Triangle.line rationals ⟨v1, v2, v3⟩ = caseLine rationals n v1 v2 v3 := by
    rw [Triangle.line, hn, Option.bind_some]
  rw [hline]
  match n, hcase with
  | 0, hcase =>
    refine .inr ⟨rfl, fun x hx => ?_⟩
    rcases hcase with ⟨h12, h23, h31⟩ | ⟨h23, h31, h12⟩ | ⟨h31, h12, h23⟩
    · exact ⟨v3, by simp, zeroSet_same_sign h12 h23 h31 hx⟩
    · rw [zeros_rotate] at hx
      exact ⟨v1, by simp, zeroSet_same_sign h23 h31 h12 hx⟩
    · rw [zeros_rotate, zeros_rotate] at hx
      exact ⟨v2, by simp, zeroSet_same_sign h31 h12 h23 hx⟩
  | 1, ⟨h1, h2, h3⟩ => exact .inl ⟨_, rfl, .inl (zeros_side h1 h2 h3).symm⟩
  | 2, ⟨h2, h3, h1⟩ =>
    rw [zeros_rotate]
    exact .inl ⟨_, rfl, .inl (zeros_side h2 h3 h1).symm⟩
  | 3, ⟨h3, h1⟩ =>
    refine .inl ⟨_, rfl, ?_⟩
    rcases eq_or_ne v2.h 0 with h2 | h2
    · exact .inr ⟨⟨h1, h2, h3⟩, rfl⟩
    · rw [zeros_rotate, zeros_rotate]
      exact .inl (zeros_side h3 h1 h2).symm
  | 4, ⟨h1, h23⟩ =>
    obtain ⟨s, hs, hpoints⟩ := vertexSide_rationals (v := v1) h23
    exact .inl ⟨s, hs, .inl (hpoints.trans (zeros_vertex h1 h23).symm)⟩
  | 5, ⟨h2, h31⟩ =>
    obtain ⟨s, hs, hpoints⟩ := vertexSide_rationals (v := v2) h31
    rw [zeros_rotate]
    exact .inl ⟨s, hs, .inl (hpoints.trans (zeros_vertex h2 h31).symm)⟩
  | 6, ⟨h3, h12⟩ =>
    obtain ⟨s, hs, hpoints⟩ := vertexSide_rationals (v := v3) h12
    rw [zeros_rotate, zeros_rotate]
    exact .inl ⟨s, hs, .inl (hpoints.trans (zeros_vertex h3 h12).symm)⟩
  | 7, ⟨h12, h23⟩ =>
    obtain ⟨s, hs, hpoints⟩ := sideSide_rationals h12 h23
    rw [zeros_rotate, zeros_sections h23 h12, segment_symm, between_comm v2 v1]
    exact .inl ⟨s, hs, .inl hpoints⟩
  | 8, ⟨h23, h31⟩ =>
    obtain ⟨s, hs, hpoints⟩ := sideSide_rationals h23 h31
    rw [zeros_rotate, zeros_rotate, zeros_sections h31 h23, segment_symm, between_comm v3 v2]
    exact .inl ⟨s, hs, .inl hpoints⟩
  | 9, ⟨h31, h12⟩ =>
    obtain ⟨s, hs, hpoints⟩ := sideSide_rationals h31 h12
    rw [zeros_sections h12 h31, segment_symm, between_comm v1 v3]
    exact .inl ⟨s, hs, .inl hpoints⟩

end Zeros

section Scan

variable {A : Arithmetic} {t : Triangle} {width height : ℤ}

def drawSegments (width height : ℤ) (l : List Segment) (plot : Plot) : Option Plot :=
  l.foldlM (drawSegment width height) plot

theorem drawSegments_append (l l' : List Segment) (plot : Plot) :
    drawSegments width height (l ++ l') plot =
      (drawSegments width height l plot).bind (drawSegments width height l') :=
  List.foldlM_append ..

structure Triangle.Numbers (A : Arithmetic) (t : Triangle) : Prop where
  v1 : A.IsNumber t.v1.h
  v2 : A.IsNumber t.v2.h
  v3 : A.IsNumber t.v3.h

theorem sect_isSome {p q : Vertex} (hp : A.IsNumber p.h) (hq : A.IsNumber q.h)
    (h : p.h * q.h < 0) (f : Vertex → ℚ) : ∃ x, sect A f p q = some x := by
  refine ⟨_, if_neg ?_⟩
  rcases mul_neg_iff.mp h with ⟨hp', hq'⟩ | ⟨hp', hq'⟩
  · exact (A.rnd_sub_neg hp hq (hq'.trans hp')).ne
  · exact (A.rnd_sub_pos hp hq (hp'.trans hq')).ne'

theorem vertexSide_isSome {p q : Vertex} (hp : A.IsNumber p.h) (hq : A.IsNumber q.h)
    (h : p.h * q.h < 0) (v : Vertex) : ∃ s, vertexSide A v p q = some s := by
  obtain ⟨x, hx⟩ := sect_isSome hp hq h Vertex.x
  obtain ⟨y, hy⟩ := sect_isSome hp hq h Vertex.y
  exact ⟨_, by rw [vertexSide, hx, hy]; rfl⟩

theorem sideSide_isSome {p q p' q' : Vertex} (hp : A.IsNumber p.h) (hq : A.IsNumber q.h)
    (hp' : A.IsNumber p'.h) (hq' : A.IsNumber q'.h) (h : p.h * q.h < 0) (h' : p'.h * q'.h < 0) :
    ∃ s, sideSide A p q p' q' = some s := by
  obtain ⟨x, hx⟩ := sect_isSome hp hq h Vertex.x
  obtain ⟨y, hy⟩ := sect_isSome hp hq h Vertex.y
  obtain ⟨x', hx'⟩ := sect_isSome hp' hq' h' Vertex.x
  obtain ⟨y', hy'⟩ := sect_isSome hp' hq' h' Vertex.y
  exact ⟨_, by rw [sideSide, hx, hy, hx', hy']; rfl⟩

theorem caseLine_isSome (ht : t.Numbers A) {n : ℕ} (hcase : CaseOf t.v1.h t.v2.h t.v3.h n)
    (hn : n ≠ 0) : ∃ s, caseLine A n t.v1 t.v2 t.v3 = some s := by
  match n, hcase with
  | 0, _ => exact absurd rfl hn
  | 1, _ | 2, _ | 3, _ => exact ⟨_, rfl⟩
  | 4, ⟨_, h23⟩ => exact vertexSide_isSome ht.v2 ht.v3 h23 t.v1
  | 5, ⟨_, h31⟩ => exact vertexSide_isSome ht.v3 ht.v1 h31 t.v2
  | 6, ⟨_, h12⟩ => exact vertexSide_isSome ht.v1 ht.v2 h12 t.v3
  | 7, ⟨h12, h23⟩ => exact sideSide_isSome ht.v1 ht.v2 ht.v2 ht.v3 h12 h23
  | 8, ⟨h23, h31⟩ => exact sideSide_isSome ht.v2 ht.v3 ht.v3 ht.v1 h23 h31
  | 9, ⟨h31, h12⟩ => exact sideSide_isSome ht.v3 ht.v1 ht.v1 ht.v2 h31 h12

theorem line_cases {s : Segment} (h : t.line A = some s) :
    (∃ v ∈ [t.v1, t.v2, t.v3], ∃ p ∈ [t.v1, t.v2, t.v3], s = ⟨v.x, v.y, p.x, p.y⟩) ∨
    (∃ v ∈ [t.v1, t.v2, t.v3], ∃ p ∈ [t.v1, t.v2, t.v3], ∃ q ∈ [t.v1, t.v2, t.v3],
      p.h * q.h < 0 ∧ vertexSide A v p q = some s) ∨
    ∃ p ∈ [t.v1, t.v2, t.v3], ∃ q ∈ [t.v1, t.v2, t.v3], ∃ p' ∈ [t.v1, t.v2, t.v3],
      ∃ q' ∈ [t.v1, t.v2, t.v3], p.h * q.h < 0 ∧ p'.h * q'.h < 0 ∧
        sideSide A p q p' q' = some s := by
  have h1 : t.v1 ∈ [t.v1, t.v2, t.v3] := List.mem_cons_self
  have h2 : t.v2 ∈ [t.v1, t.v2, t.v3] := List.mem_cons_of_mem _ List.mem_cons_self
  have h3 : t.v3 ∈ [t.v1, t.v2, t.v3] :=
    List.mem_cons_of_mem _ (List.mem_cons_of_mem _ List.mem_cons_self)
  obtain ⟨n, hn, hcase⟩ := caseValue_caseOf t.v1 t.v2 t.v3
  rw [Triangle.line, hn, Option.bind_some] at h
  match n, hcase with
  | 0, _ => cases h
  | 1, _ => exact .inl ⟨_, h1, _, h2, (Option.some.inj h).symm⟩
  | 2, _ => exact .inl ⟨_, h2, _, h3, (Option.some.inj h).symm⟩
  | 3, _ => exact .inl ⟨_, h3, _, h1, (Option.some.inj h).symm⟩
  | 4, ⟨_, h23⟩ => exact .inr (.inl ⟨_, h1, _, h2, _, h3, h23, h⟩)
  | 5, ⟨_, h31⟩ => exact .inr (.inl ⟨_, h2, _, h3, _, h1, h31, h⟩)
  | 6, ⟨_, h12⟩ => exact .inr (.inl ⟨_, h3, _, h1, _, h2, h12, h⟩)
  | 7, ⟨h12, h23⟩ => exact .inr (.inr ⟨_, h1, _, h2, _, h2, _, h3, h12, h23, h⟩)
  | 8, ⟨h23, h31⟩ => exact .inr (.inr ⟨_, h2, _, h3, _, h3, _, h1, h23, h31, h⟩)
  | 9, ⟨h31, h12⟩ => exact .inr (.inr ⟨_, h3, _, h1, _, h1, _, h2, h31, h12, h⟩)

theorem scanTriangle_eq (ht : t.Numbers A) (plot : Plot) :
    scanTriangle A width height t.v1 t.v2 t.v3 plot =
      drawSegments width height (t.line A).toList plot := by
  obtain ⟨n, hn, hcase⟩ := caseValue_caseOf t.v1 t.v2 t.v3
  rw [scanTriangle, Triangle.line, hn]
  rcases eq_or_ne n 0 with rfl | hne
  · rfl
  · obtain ⟨s, hs⟩ := caseLine_isSome ht hcase hne
    simp only [Option.bind_eq_bind, Option.bind_some, if_pos hne, hs, Option.toList_some,
      drawSegments, List.foldlM_cons, List.foldlM_nil]
    exact (bind_pure _).symm

theorem line_none (h31 : 0 < t.v3.h * t.v1.h) (h12 : 0 ≤ t.v1.h * t.v2.h) :
    t.line A = none := by
  obtain ⟨n, hn, hcase⟩ := caseValue_caseOf t.v1 t.v2 t.v3
  rw [Triangle.line, hn, Option.bind_some]
  have h1 : t.v1.h ≠ 0 := right_ne_zero_of_mul h31.ne'
  have h3 : t.v3.h ≠ 0 := left_ne_zero_of_mul h31.ne'
  match n, hcase with
  | 0, _ => rfl
  | 1, ⟨h, _⟩ | 3, ⟨_, h⟩ | 4, ⟨h, _⟩ => exact absurd h h1
  | 2, ⟨_, h, _⟩ | 6, ⟨h, _⟩ => exact absurd h h3
  | 5, ⟨_, h⟩ | 8, ⟨_, h⟩ | 9, ⟨h, _⟩ => exact absurd h h31.not_gt
  | 7, ⟨h, _⟩ => exact absurd h h12.not_gt

theorem same_sign_of_line_none (ht : t.Numbers A) (h : t.line A = none) :
    0 ≤ t.v1.h * t.v2.h ∧ 0 ≤ t.v2.h * t.v3.h ∧ (t.v2.h = 0 → 0 < t.v3.h * t.v1.h) := by
  obtain ⟨n, hn, hcase⟩ := caseValue_caseOf t.v1 t.v2 t.v3
  rw [Triangle.line, hn, Option.bind_some] at h
  rcases eq_or_ne n 0 with rfl | hne
  · rcases hcase with ⟨h12, h23, -⟩ | ⟨h23, -, h12⟩ | ⟨h31, h12, h23⟩
    · exact ⟨h12.le, h23, fun hzero => absurd hzero (right_ne_zero_of_mul h12.ne')⟩
    · exact ⟨h12, h23.le, fun hzero => absurd hzero (left_ne_zero_of_mul h23.ne')⟩
    · exact ⟨h12, h23, fun _ => h31⟩
  · obtain ⟨s, hs⟩ := caseLine_isSome ht hcase hne
    rw [hs] at h
    cases h

end Scan

structure Grid (A : Arithmetic) where
  rows : ℕ
  cols : ℕ
  f : ℕ → ℕ → ℚ
  x : ℕ → ℚ
  y : ℕ → ℚ
  levels : List ℚ
  isNumber_f : ∀ i j, A.IsNumber (f i j)
  isNumber_level : ∀ z ∈ levels, A.IsNumber z
  increasing : levels.Pairwise (· ≤ ·)
  levels_ne_nil : levels ≠ []

namespace Grid

variable {A : Arithmetic} (g : Grid A)

def data : Data where
  d := (List.range g.rows).map fun i => (List.range g.cols).map (g.f i)
  x := (List.range g.rows).map g.x
  y := (List.range g.cols).map g.y
  z := g.levels

def corner (z : ℚ) (i j : ℕ) : Vertex := ⟨A.rnd (g.f i j - z), g.x i, g.y j⟩

def centre (z : ℚ) (i j : ℕ) : Vertex where
  h := A.rnd (1 / 4 * A.rnd (A.rnd (A.rnd ((g.corner z i j).h + (g.corner z (i + 1) j).h) +
    (g.corner z (i + 1) (j + 1)).h) + (g.corner z i (j + 1)).h))
  x := A.rnd (1 / 2 * A.rnd (g.x i + g.x (i + 1)))
  y := A.rnd (1 / 2 * A.rnd (g.y j + g.y (j + 1)))

def triangles (z : ℚ) (i j : ℕ) : List Triangle :=
  [⟨g.corner z i j, g.centre z i j, g.corner z (i + 1) j⟩,
   ⟨g.corner z (i + 1) j, g.centre z i j, g.corner z (i + 1) (j + 1)⟩,
   ⟨g.corner z (i + 1) (j + 1), g.centre z i j, g.corner z i (j + 1)⟩,
   ⟨g.corner z i (j + 1), g.centre z i j, g.corner z i j⟩]

def boxLines (z : ℚ) (i j : ℕ) : List Segment :=
  (g.triangles z i j).flatMap fun t => (t.line A).toList

/-- The lines of all the boxes for all the levels, whatever the heights of the corners. -/
def lines : List Segment :=
  (List.range (g.cols - 1)).reverse.flatMap fun j => (List.range (g.rows - 1)).flatMap fun i =>
    g.levels.flatMap fun z => g.boxLines z i j

variable {g} {i j : ℕ}

theorem get_natCast {α : Type} (l : List α) (n : ℕ) : get l n = l[n]? := by
  rw [Conrec.get, if_neg (by omega), Int.toNat_natCast]

theorem get_x (hi : i < g.rows) : get g.data.x i = some (g.x i) := by
  simp [get_natCast, data, hi]

theorem get_y (hj : j < g.cols) : get g.data.y j = some (g.y j) := by
  simp [get_natCast, data, hj]

theorem entry_data (hi : i < g.rows) (hj : j < g.cols) :
    entry g.data.d i j = some (g.f i j) := by
  simp [entry, get_natCast, data, hi, hj]

theorem corner_eq (hi : i + 1 < g.rows) (hj : j + 1 < g.cols) (z : ℚ) :
    Conrec.corner A g.data z i j 1 = some (g.corner z i j) ∧
      Conrec.corner A g.data z i j 2 = some (g.corner z (i + 1) j) ∧
      Conrec.corner A g.data z i j 3 = some (g.corner z (i + 1) (j + 1)) ∧
      Conrec.corner A g.data z i j 4 = some (g.corner z i (j + 1)) := by
  have hvertex : ∀ (m i' j' : ℕ) (di dj : ℤ), get im (m - 1) = some di → get jm (m - 1) = some dj →
      (i : ℤ) + di = i' → (j : ℤ) + dj = j' → i' < g.rows → j' < g.cols →
      Conrec.corner A g.data z i j m = some (g.corner z i' j') := by
    intro m i' j' di dj hdi hdj hi' hj' hrow hcol
    rw [Conrec.corner, hdi, hdj]
    simp only [Option.bind_eq_bind, Option.bind_some, hi', hj', entry_data hrow hcol, get_x hrow,
      get_y hcol]
    rfl
  exact ⟨hvertex 1 i j 0 0 rfl rfl (by omega) (by omega) (by omega) (by omega),
    hvertex 2 (i + 1) j 1 0 rfl rfl (by omega) (by omega) (by omega) (by omega),
    hvertex 3 (i + 1) (j + 1) 1 1 rfl rfl (by omega) (by omega) (by omega) (by omega),
    hvertex 4 i (j + 1) 0 1 rfl rfl (by omega) (by omega) (by omega) (by omega)⟩

theorem centre_eq (hi : i + 1 < g.rows) (hj : j + 1 < g.cols) (z : ℚ) :
    Conrec.centre A g.data i j (g.corner z i j).h (g.corner z (i + 1) j).h
      (g.corner z (i + 1) (j + 1)).h (g.corner z i (j + 1)).h = some (g.centre z i j) := by
  have hx := get_x hi
  have hy := get_y hj
  push_cast at hx hy
  rw [Conrec.centre, get_x (Nat.lt_of_succ_lt hi), get_y (Nat.lt_of_succ_lt hj), hx, hy]
  rfl

theorem numbers_of_mem {z : ℚ} {t : Triangle} (ht : t ∈ g.triangles z i j) : t.Numbers A := by
  have hcorner : ∀ i j, A.IsNumber (g.corner z i j).h := fun i j => A.isNumber_rnd _
  have hcentre : A.IsNumber (g.centre z i j).h := A.isNumber_rnd _
  simp only [triangles, List.mem_cons, List.not_mem_nil, or_false] at ht
  rcases ht with rfl | rfl | rfl | rfl <;> exact ⟨hcorner _ _, hcentre, hcorner _ _⟩

theorem scanLevel_eq (hi : i + 1 < g.rows) (hj : j + 1 < g.cols) (width height : ℤ) (z : ℚ)
    (plot : Plot) : scanLevel A width height g.data i j z plot =
      drawSegments width height (g.boxLines z i j) plot := by
  obtain ⟨h1, h2, h3, h4⟩ := corner_eq hi hj z
  have hscan : ∀ t ∈ g.triangles z i j, ∀ plot : Plot,
      scanTriangle A width height t.v1 t.v2 t.v3 plot =
        drawSegments width height (t.line A).toList plot :=
    fun t ht plot => scanTriangle_eq (numbers_of_mem ht) plot
  rw [scanLevel, h1, h2, h3, h4]
  simp only [Option.bind_eq_bind, Option.bind_some, centre_eq hi hj]
  simp only [triangles, List.forall_mem_cons] at hscan
  obtain ⟨ht1, ht2, ht3, ht4, -⟩ := hscan
  simp only [ht1, ht2, ht3, ht4, boxLines, triangles, List.flatMap_cons, List.flatMap_nil,
    drawSegments_append, List.append_nil]

def cornerHeights (g : Grid A) (z : ℚ) (i j : ℕ) : List ℚ :=
  [(g.corner z i j).h, (g.corner z (i + 1) j).h, (g.corner z (i + 1) (j + 1)).h,
   (g.corner z i (j + 1)).h]

theorem centre_nonneg {z : ℚ} (h : ∀ c ∈ g.cornerHeights z i j, 0 < c) :
    0 ≤ (g.centre z i j).h := by
  simp only [cornerHeights, List.forall_mem_cons] at h
  obtain ⟨h1, h2, h3, h4, -⟩ := h
  have hsum := A.rnd_nonneg (add_nonneg (A.rnd_nonneg (add_nonneg (A.rnd_nonneg
    (add_nonneg h1.le h2.le)) h3.le)) h4.le)
  exact A.rnd_nonneg (mul_nonneg (by norm_num) hsum)

theorem centre_nonpos {z : ℚ} (h : ∀ c ∈ g.cornerHeights z i j, c < 0) :
    (g.centre z i j).h ≤ 0 := by
  simp only [cornerHeights, List.forall_mem_cons] at h
  obtain ⟨h1, h2, h3, h4, -⟩ := h
  have hsum := A.rnd_nonpos (add_nonpos (A.rnd_nonpos (add_nonpos (A.rnd_nonpos
    (add_nonpos h1.le h2.le)) h3.le)) h4.le)
  exact A.rnd_nonpos (mul_nonpos_of_nonneg_of_nonpos (by norm_num) hsum)

theorem boxLines_nil {z : ℚ} (h : (∀ c ∈ g.cornerHeights z i j, 0 < c) ∨
    ∀ c ∈ g.cornerHeights z i j, c < 0) : g.boxLines z i j = [] := by
  rw [boxLines, List.flatMap_eq_nil_iff]
  intro t ht
  suffices hline : t.line A = none by rw [hline, Option.toList_none]
  rcases h with h | h
  · have hcentre := centre_nonneg h
    simp only [cornerHeights, List.forall_mem_cons] at h
    obtain ⟨h1, h2, h3, h4, -⟩ := h
    simp only [triangles, List.mem_cons, List.not_mem_nil, or_false] at ht
    rcases ht with rfl | rfl | rfl | rfl
    · exact line_none (mul_pos h2 h1) (mul_nonneg h1.le hcentre)
    · exact line_none (mul_pos h3 h2) (mul_nonneg h2.le hcentre)
    · exact line_none (mul_pos h4 h3) (mul_nonneg h3.le hcentre)
    · exact line_none (mul_pos h1 h4) (mul_nonneg h4.le hcentre)
  · have hcentre := centre_nonpos h
    simp only [cornerHeights, List.forall_mem_cons] at h
    obtain ⟨h1, h2, h3, h4, -⟩ := h
    simp only [triangles, List.mem_cons, List.not_mem_nil, or_false] at ht
    rcases ht with rfl | rfl | rfl | rfl
    · exact line_none (mul_pos_of_neg_of_neg h2 h1) (mul_nonneg_of_nonpos_of_nonpos h1.le hcentre)
    · exact line_none (mul_pos_of_neg_of_neg h3 h2) (mul_nonneg_of_nonpos_of_nonpos h2.le hcentre)
    · exact line_none (mul_pos_of_neg_of_neg h4 h3) (mul_nonneg_of_nonpos_of_nonpos h3.le hcentre)
    · exact line_none (mul_pos_of_neg_of_neg h1 h4) (mul_nonneg_of_nonpos_of_nonpos h4.le hcentre)

variable (g) in
def dmin (i j : ℕ) : ℚ :=
  min (min (g.f i j) (g.f i (j + 1))) (min (g.f (i + 1) j) (g.f (i + 1) (j + 1)))

variable (g) in
def dmax (i j : ℕ) : ℚ :=
  max (max (g.f i j) (g.f i (j + 1))) (max (g.f (i + 1) j) (g.f (i + 1) (j + 1)))

theorem boxLines_outside {z : ℚ} (hz : z ∈ g.levels)
    (h : z < g.dmin i j ∨ g.dmax i j < z) : g.boxLines z i j = [] := by
  have hlevel := g.isNumber_level z hz
  refine boxLines_nil ?_
  simp only [cornerHeights, List.forall_mem_cons, List.not_mem_nil, IsEmpty.forall_iff,
    implies_true, and_true]
  rcases h with h | h
  · obtain ⟨⟨h1, h4⟩, h2, h3⟩ : (z < g.f i j ∧ z < g.f i (j + 1)) ∧ z < g.f (i + 1) j ∧
        z < g.f (i + 1) (j + 1) := by simpa only [dmin, lt_min_iff] using h
    exact .inl ⟨A.rnd_sub_pos hlevel (g.isNumber_f ..) h1,
      A.rnd_sub_pos hlevel (g.isNumber_f ..) h2,
      A.rnd_sub_pos hlevel (g.isNumber_f ..) h3, A.rnd_sub_pos hlevel (g.isNumber_f ..) h4⟩
  · obtain ⟨⟨h1, h4⟩, h2, h3⟩ : (g.f i j < z ∧ g.f i (j + 1) < z) ∧ g.f (i + 1) j < z ∧
        g.f (i + 1) (j + 1) < z := by simpa only [dmax, max_lt_iff] using h
    exact .inr ⟨A.rnd_sub_neg hlevel (g.isNumber_f ..) h1,
      A.rnd_sub_neg hlevel (g.isNumber_f ..) h2,
      A.rnd_sub_neg hlevel (g.isNumber_f ..) h3, A.rnd_sub_neg hlevel (g.isNumber_f ..) h4⟩

theorem boxLines_ne_nil {z : ℚ} (hlow : ∃ c ∈ g.cornerHeights z i j, c < 0)
    (hhigh : ∃ c ∈ g.cornerHeights z i j, 0 < c) : g.boxLines z i j ≠ [] := by
  intro hnil
  rw [boxLines, List.flatMap_eq_nil_iff] at hnil
  have hsame : ∀ t ∈ g.triangles z i j, 0 ≤ t.v1.h * t.v2.h ∧ 0 ≤ t.v2.h * t.v3.h ∧
      (t.v2.h = 0 → 0 < t.v3.h * t.v1.h) := fun t ht =>
    same_sign_of_line_none (numbers_of_mem ht) (Option.toList_eq_nil_iff.mp (hnil t ht))
  simp only [triangles, List.forall_mem_cons, List.not_mem_nil, IsEmpty.forall_iff,
    implies_true, and_true] at hsame
  simp only [cornerHeights, List.exists_mem_cons_iff, List.not_mem_nil, false_and, exists_false,
    or_false] at hlow hhigh
  obtain ⟨⟨h1, h2, h12⟩, ⟨-, h3, h23⟩, ⟨-, h4, h34⟩, -, -, h41⟩ := hsame
  generalize (g.corner z i j).h = a at *
  generalize (g.corner z (i + 1) j).h = b at *
  generalize (g.corner z (i + 1) (j + 1)).h = c at *
  generalize (g.corner z i (j + 1)).h = d at *
  generalize (g.centre z i j).h = e at *
  rcases lt_trichotomy e 0 with he | rfl | he
  · have ha := nonpos_of_mul_nonneg_left h1 he
    have hb := nonpos_of_mul_nonneg_right h2 he
    have hc := nonpos_of_mul_nonneg_right h3 he
    have hd := nonpos_of_mul_nonneg_right h4 he
    rcases hhigh with h | h | h | h <;> linarith
  · have hba := h12 rfl
    have hcb := h23 rfl
    have hdc := h34 rfl
    have hneg : a < 0 := by
      rcases hlow with h | h | h | h
      · exact h
      · exact (neg_iff_neg_of_mul_pos hba).mp h
      · exact (neg_iff_neg_of_mul_pos hba).mp ((neg_iff_neg_of_mul_pos hcb).mp h)
      · exact (neg_iff_neg_of_mul_pos hba).mp ((neg_iff_neg_of_mul_pos hcb).mp
          ((neg_iff_neg_of_mul_pos hdc).mp h))
    have hb := (neg_iff_neg_of_mul_pos hba).mpr hneg
    have hc := (neg_iff_neg_of_mul_pos hcb).mpr hb
    have hd := (neg_iff_neg_of_mul_pos hdc).mpr hc
    rcases hhigh with h | h | h | h <;> linarith
  · have ha := nonneg_of_mul_nonneg_left h1 he
    have hb := nonneg_of_mul_nonneg_right h2 he
    have hc := nonneg_of_mul_nonneg_right h3 he
    have hd := nonneg_of_mul_nonneg_right h4 he
    rcases hlow with h | h | h | h <;> linarith

theorem boxLines_inside {z : ℚ} (hz : z ∈ g.levels) (hlow : g.dmin i j < z)
    (hhigh : z < g.dmax i j) : g.boxLines z i j ≠ [] := by
  have hbelow : ∀ i j, g.f i j < z → (g.corner z i j).h < 0 := fun i j h =>
    A.rnd_sub_neg (g.isNumber_level z hz) (g.isNumber_f i j) h
  have habove : ∀ i j, z < g.f i j → 0 < (g.corner z i j).h := fun i j h =>
    A.rnd_sub_pos (g.isNumber_level z hz) (g.isNumber_f i j) h
  simp only [dmin, min_lt_iff] at hlow
  simp only [dmax, lt_max_iff] at hhigh
  refine boxLines_ne_nil ?_ ?_
  · rcases hlow with (h | h) | h | h
    · exact ⟨_, by simp [cornerHeights], hbelow i j h⟩
    · exact ⟨_, by simp [cornerHeights], hbelow i (j + 1) h⟩
    · exact ⟨_, by simp [cornerHeights], hbelow (i + 1) j h⟩
    · exact ⟨_, by simp [cornerHeights], hbelow (i + 1) (j + 1) h⟩
  · rcases hhigh with (h | h) | h | h
    · exact ⟨_, by simp [cornerHeights], habove i j h⟩
    · exact ⟨_, by simp [cornerHeights], habove i (j + 1) h⟩
    · exact ⟨_, by simp [cornerHeights], habove (i + 1) j h⟩
    · exact ⟨_, by simp [cornerHeights], habove (i + 1) (j + 1) h⟩

variable (g)

theorem get_first : get g.levels 0 = some (g.levels.head g.levels_ne_nil) := by
  have hget := get_natCast g.levels 0
  rw [Nat.cast_zero] at hget
  rw [hget, ← List.head?_eq_getElem?, List.head?_eq_some_head]

theorem get_last : get g.levels (g.levels.length - 1) =
    some (g.levels.getLast g.levels_ne_nil) := by
  have hpos := List.length_pos_of_ne_nil g.levels_ne_nil
  have hcast : (g.levels.length : ℤ) - 1 = (g.levels.length - 1 : ℕ) := by omega
  rw [hcast, get_natCast, ← List.getLast?_eq_getElem?, List.getLast?_eq_some_getLast]

variable {g}

theorem levels_foldlM (width height : ℤ) (i j : ℤ) (dmin dmax : ℚ) (plot : Plot) :
    (List.range g.levels.length).foldlM (levelStep A width height g.data i j dmin dmax) plot =
      g.levels.foldlM (fun plot z => if dmin ≤ z ∧ z ≤ dmax then
        scanLevel A width height g.data i j z plot else some plot) plot := by
  rw [List.range_eq_range']
  refine Eq.trans ?_ (OptionFold.foldlM_indices [] plot)
  refine OptionFold.foldlM_congr (fun k _ plot => ?_) plot
  rw [levelStep, List.nil_append, ← get_natCast]
  rfl

/-- All the lines of a box, although the guards are there. -/
theorem scanBox_eq (hi : i + 1 < g.rows) (hj : j + 1 < g.cols) (width height : ℤ) (plot : Plot) :
    scanBox A width height g.data g.levels.length j plot i =
      drawSegments width height (g.levels.flatMap fun z => g.boxLines z i j) plot := by
  have hi' : ((i + 1 : ℕ) : ℤ) = i + 1 := by push_cast; rfl
  have hj' : ((j + 1 : ℕ) : ℤ) = j + 1 := by push_cast; rfl
  have hnone : (∀ z ∈ g.levels, g.boxLines z i j = []) →
      drawSegments width height (g.levels.flatMap fun z => g.boxLines z i j) plot = some plot := by
    intro h
    rw [List.flatMap_eq_nil_iff.mpr h]
    rfl
  rw [scanBox, ← hi', ← hj', entry_data (by omega) (by omega), entry_data (by omega) (by omega),
    entry_data (by omega) (by omega), entry_data (by omega) (by omega)]
  simp only [Option.bind_eq_bind, Option.bind_some]
  rw [show g.data.z = g.levels from rfl, get_first, get_last]
  simp only [Option.bind_some, Int.toNat_natCast]
  change (if g.levels.head g.levels_ne_nil ≤ g.dmax i j then
    (if g.dmin i j ≤ g.levels.getLast g.levels_ne_nil then _ else _) else _) = _
  split_ifs with hfirst hlast
  · change (List.range g.levels.length).foldlM
      (levelStep A width height g.data i j (g.dmin i j) (g.dmax i j)) plot = _
    rw [levels_foldlM, drawSegments, OptionFold.foldlM_flatMap]
    refine OptionFold.foldlM_congr (fun z hz plot => ?_) plot
    split_ifs with hguard
    · exact scanLevel_eq hi hj width height z plot
    · rw [boxLines_outside hz (by rw [not_and_or, not_le, not_le] at hguard; exact hguard)]
      rfl
  · refine (hnone fun z hz => boxLines_outside hz (.inl ?_)).symm
    exact (g.increasing.rel_getLast hz).trans_lt (not_le.mp hlast)
  · refine (hnone fun z hz => boxLines_outside hz (.inr ?_)).symm
    exact (not_le.mp hfirst).trans_le (g.increasing.rel_head hz)

theorem upwards_natCast (n : ℕ) : upwards 0 (n - 1) = (List.range (n - 1)).map Nat.cast := by
  have hlength : ((n : ℤ) - 1 - 0).toNat = n - 1 := by omega
  rw [upwards, hlength]
  simp only [zero_add]

theorem downwards_natCast (n : ℕ) :
    downwards 0 (n - 1) = (List.range (n - 1)).reverse.map Nat.cast := by
  have hlength : ((n : ℤ) - 1 - 0).toNat = n - 1 := by omega
  rw [downwards, hlength]
  refine List.ext_getElem (by simp) fun k hk hk' => ?_
  have hlt : k < n - 1 := by simpa using hk
  simp only [List.getElem_map, List.getElem_range, List.getElem_reverse, List.length_range]
  omega

theorem conrec_eq (g : Grid A) (canvas : Screen) (width height : ℤ) :
    conrec A g.data 0 (g.rows - 1) 0 (g.cols - 1) g.levels.length canvas width height =
      drawSegments width height g.lines ⟨canvas, 0⟩ := by
  rw [conrec, downwards_natCast, upwards_natCast, List.foldlM_map, drawSegments, lines,
    OptionFold.foldlM_flatMap]
  refine OptionFold.foldlM_congr (fun j hj plot => ?_) _
  have hj' : j + 1 < g.cols := by
    have := List.mem_range.mp (List.mem_reverse.mp hj)
    omega
  rw [List.foldlM_map, OptionFold.foldlM_flatMap]
  refine OptionFold.foldlM_congr (fun i hi plot => ?_) _
  have hi' : i + 1 < g.rows := by
    have := List.mem_range.mp hi
    omega
  exact scanBox_eq hi' hj' width height plot

end Grid

section Surface

/-- The surface over the grid: linear in each triangle, through the data at the corners of a
box and their mean in its centre. -/
def Surface (g : Grid rationals) (p : ℚ × ℚ) (value : ℚ) : Prop :=
  ∃ i j : ℕ, i + 1 < g.rows ∧ j + 1 < g.cols ∧ ∃ t ∈ g.triangles 0 i j, ∃ u v w : ℚ,
    0 ≤ u ∧ 0 ≤ v ∧ 0 ≤ w ∧ u + v + w = 1 ∧ u * t.v1.h + v * t.v2.h + w * t.v3.h = value ∧
    u • place t.v1 + v • place t.v2 + w • place t.v3 = p

def Within (t : Triangle) (p : ℚ × ℚ) : Prop :=
  ∃ u v w : ℚ, 0 ≤ u ∧ 0 ≤ v ∧ 0 ≤ w ∧ u + v + w = 1 ∧
    u • place t.v1 + v • place t.v2 + w • place t.v3 = p

/-- Where the contour is no line: at a vertex that has the value itself, or within a triangle
that has it all over. -/
def Touches (g : Grid rationals) (p : ℚ × ℚ) (value : ℚ) : Prop :=
  ∃ i j : ℕ, i + 1 < g.rows ∧ j + 1 < g.cols ∧ ∃ t ∈ g.triangles 0 i j,
    (∃ v ∈ [t.v1, t.v2, t.v3], v.h = value ∧ p = place v) ∨
      (t.v1.h = value ∧ t.v2.h = value ∧ t.v3.h = value) ∧ Within t p

def lower (z : ℚ) (v : Vertex) : Vertex := { v with h := v.h - z }

variable {g : Grid rationals} {z : ℚ} {i j : ℕ} {p : ℚ × ℚ}

theorem corner_lower (z : ℚ) (i j : ℕ) : g.corner z i j = lower z (g.corner 0 i j) := by
  simp [Grid.corner, lower, rationals]

theorem centre_lower (z : ℚ) (i j : ℕ) : g.centre z i j = lower z (g.centre 0 i j) := by
  simp only [Grid.centre, Grid.corner, lower, rationals, Vertex.mk.injEq, and_true]
  ring

theorem triangles_lower (z : ℚ) (i j : ℕ) : g.triangles z i j =
    (g.triangles 0 i j).map fun t => ⟨lower z t.v1, lower z t.v2, lower z t.v3⟩ := by
  simp only [Grid.triangles, List.map_cons, List.map_nil, ← corner_lower, ← centre_lower]

theorem mem_zeros_lower {t : Triangle} :
    p ∈ Triangle.zeros ⟨lower z t.v1, lower z t.v2, lower z t.v3⟩ ↔ ∃ u v w : ℚ,
      0 ≤ u ∧ 0 ≤ v ∧ 0 ≤ w ∧ u + v + w = 1 ∧ u * t.v1.h + v * t.v2.h + w * t.v3.h = z ∧
      u • place t.v1 + v • place t.v2 + w • place t.v3 = p := by
  have hlevel : ∀ u v w : ℚ, u + v + w = 1 → (u * (t.v1.h - z) + v * (t.v2.h - z) +
      w * (t.v3.h - z) = 0 ↔ u * t.v1.h + v * t.v2.h + w * t.v3.h = z) := by
    intro u v w hsum
    constructor
    · intro h
      linear_combination h + z * hsum
    · intro h
      linear_combination h - z * hsum
  constructor
  · rintro ⟨u, v, w, hu, hv, hw, hsum, hzero, hp⟩
    exact ⟨u, v, w, hu, hv, hw, hsum, (hlevel u v w hsum).mp hzero, hp⟩
  · rintro ⟨u, v, w, hu, hv, hw, hsum, hvalue, hp⟩
    exact ⟨u, v, w, hu, hv, hw, hsum, (hlevel u v w hsum).mpr hvalue, hp⟩

theorem mem_lines {A : Arithmetic} {g : Grid A} {s : Segment} : s ∈ g.lines ↔
    ∃ i j : ℕ, i + 1 < g.rows ∧ j + 1 < g.cols ∧ ∃ z ∈ g.levels, ∃ t ∈ g.triangles z i j,
      t.line A = some s := by
  simp only [Grid.lines, Grid.boxLines, List.mem_flatMap, List.mem_reverse, List.mem_range,
    Option.mem_toList]
  constructor
  · rintro ⟨j, hj, i, hi, z, hz, t, ht, hs⟩
    exact ⟨i, j, by omega, by omega, z, hz, t, ht, hs⟩
  · rintro ⟨i, j, hi, hj, z, hz, t, ht, hs⟩
    exact ⟨j, by omega, i, by omega, z, hz, t, ht, hs⟩

theorem points_subset_zeros {t : Triangle} {s : Segment} (h : t.line rationals = some s) :
    points s ⊆ t.zeros := by
  rcases line_zeros t with ⟨s', hs', hpoints⟩ | ⟨hnone, -⟩
  · obtain rfl : s' = s := Option.some.inj (hs'.symm.trans h)
    rcases hpoints with hpoints | ⟨⟨h1, h2, h3⟩, hpoints⟩
    · exact hpoints.subset
    · rintro x hx
      rw [hpoints] at hx
      obtain ⟨w, u, hw, hu, hsum, hx⟩ := hx
      refine ⟨u, 0, w, hu, le_rfl, hw, by linarith, by rw [h1, h2, h3]; ring, ?_⟩
      rw [← hx, zero_smul, add_zero, add_comm]
  · rw [hnone] at h
    cases h

/-- The lines that are drawn lie on the surface at the height of a level, and every point of
the surface at the height of a level lies on one of them, where the contour is a line. -/
theorem contour_lines (g : Grid rationals) : ∃ l : List Segment,
    (∀ (canvas : Screen) (width height : ℤ),
      conrec rationals g.data 0 (g.rows - 1) 0 (g.cols - 1) g.levels.length canvas width height =
        drawSegments width height l ⟨canvas, 0⟩) ∧
    (∀ s ∈ l, ∃ z ∈ g.levels, ∀ p ∈ points s, Surface g p z) ∧
    ∀ z ∈ g.levels, ∀ p, Surface g p z → Touches g p z ∨ ∃ s ∈ l, p ∈ points s := by
  refine ⟨g.lines, Grid.conrec_eq g, ?_, ?_⟩
  · intro s hs
    obtain ⟨i, j, hi, hj, z, hz, t, ht, hline⟩ := mem_lines.mp hs
    rw [triangles_lower] at ht
    obtain ⟨t, ht', rfl⟩ := List.mem_map.mp ht
    refine ⟨z, hz, fun p hp => ⟨i, j, hi, hj, t, ht', ?_⟩⟩
    exact mem_zeros_lower.mp (points_subset_zeros hline hp)
  · rintro z hz p ⟨i, j, hi, hj, t, ht, hp⟩
    have hzeros := mem_zeros_lower.mpr hp
    have ht' := List.mem_map_of_mem
      (f := fun t : Triangle => Triangle.mk (lower z t.v1) (lower z t.v2) (lower z t.v3)) ht
    rw [← triangles_lower] at ht'
    rcases line_zeros ⟨lower z t.v1, lower z t.v2, lower z t.v3⟩ with ⟨s, hs, hpoints⟩ | ⟨-, hv⟩
    · rcases hpoints with hpoints | ⟨⟨h1, h2, h3⟩, -⟩
      · rw [← hpoints] at hzeros
        exact .inr ⟨s, mem_lines.mpr ⟨i, j, hi, hj, z, hz, _, ht', hs⟩, hzeros⟩
      · obtain ⟨u, v, w, hu, hv, hw, hsum, -, hplace⟩ := hp
        exact .inl ⟨i, j, hi, hj, t, ht, .inr
          ⟨⟨sub_eq_zero.mp h1, sub_eq_zero.mp h2, sub_eq_zero.mp h3⟩,
            u, v, w, hu, hv, hw, hsum, hplace⟩⟩
    · obtain ⟨v, hv, hzero, hplace⟩ := hv p hzeros
      refine .inl ⟨i, j, hi, hj, t, ht, .inl ?_⟩
      obtain ⟨v', hv', rfl⟩ : ∃ v' ∈ [t.v1, t.v2, t.v3], lower z v' = v := by
        simpa [eq_comm] using hv
      exact ⟨v', hv', sub_eq_zero.mp hzero, hplace⟩

end Surface

end XWebQL.ContourLines
