import XWebQL.FortranArray
import Mathlib.Logic.Relation

/-! Fork-join programs over one shared array.
A task reads and writes single elements and may run two tasks side by side,
whose steps interleave in any way; both must finish before it goes on. `wp` runs
the two tasks of every fork one after the other and asks that neither writes
what the other uses. It then speaks for every interleaving: each run ends, none
fails, and all reach what the one sequential run reaches. -/

namespace XWebQL.ForkJoin

open FortranArray

/-- A program that ends with a value or an error. The results of a fork are
handed on in the order in which its tasks finish. -/
inductive Task (E K R : Type) where
  | done (result : R)
  | fail (error : E)
  | read (i : ℕ) (next : K → Task E K R)
  | write (i : ℕ) (v : K) (next : Task E K R)
  | fork (left right : Task E K R) (next : R → R → Task E K R)

inductive Action (K : Type) where
  | tau
  | read (i : ℕ) (v : K)
  | write (i : ℕ) (v : K)

variable {E K R : Type}

/-- The array before and after an action; an access outside it has no effect
and cannot happen. -/
def Effect : Action K → List K → List K → Prop
  | .tau, m, m' => m' = m
  | .read i v, m, m' => elem m i = some v ∧ m' = m
  | .write i v, m, m' => put m i v = some m'

inductive Step : Task E K R → Action K → Task E K R → Prop where
  | read {i : ℕ} {next : K → Task E K R} (v : K) : Step (.read i next) (.read i v) (next v)
  | write {i : ℕ} {v : K} {next : Task E K R} : Step (.write i v next) (.write i v) next
  | left {l l' r : Task E K R} {next : R → R → Task E K R} {a : Action K} :
    Step l a l' → Step (.fork l r next) a (.fork l' r next)
  | right {l r r' : Task E K R} {next : R → R → Task E K R} {a : Action K} :
    Step r a r' → Step (.fork l r next) a (.fork l r' next)
  | leftFirst {a b : R} {next : R → R → Task E K R} :
    Step (.fork (.done a) (.done b) next) .tau (next a b)
  | rightFirst {a b : R} {next : R → R → Task E K R} :
    Step (.fork (.done a) (.done b) next) .tau (next b a)

def Moves (c c' : Task E K R × List K) : Prop :=
  ∃ a, Step c.1 a c'.1 ∧ Effect a c.2 c'.2

def Reaches : Task E K R × List K → Task E K R × List K → Prop :=
  Relation.ReflTransGen Moves

inductive Failed : Task E K R → E → Prop where
  | here {e : E} : Failed (.fail e) e
  | left {l r : Task E K R} {next : R → R → Task E K R} {e : E} :
    Failed l e → Failed (.fork l r next) e
  | right {l r : Task E K R} {next : R → R → Task E K R} {e : E} :
    Failed r e → Failed (.fork l r next) e

/-- Every run ends; along it no task fails; where it ends, `post` holds of the
result and the array. -/
structure RunsTo (t : Task E K R) (m : List K) (post : R → List K → Prop) : Prop where
  ends : Acc (fun c' c => Moves c c') (t, m)
  safe : ∀ t' m', Reaches (t, m) (t', m') → ∀ e, ¬ Failed t' e
  outcome : ∀ t' m', Reaches (t, m) (t', m') →
    (∃ r, t' = .done r ∧ post r m') ∨ ∃ c, Moves (t', m') c

structure Footprint where
  uses : ℕ → Prop
  writes : ℕ → Prop

/-- The task stays inside the footprint whatever values it reads. -/
def Within (f : Footprint) : Task E K R → Prop
  | .done _ => True
  | .fail _ => True
  | .read i next => f.uses i ∧ ∀ v, Within f (next v)
  | .write i _ next => f.uses i ∧ f.writes i ∧ Within f next
  | .fork l r next => Within f l ∧ Within f r ∧ ∀ a b, Within f (next a b)

/-- Neither side writes what the other uses. -/
def Footprint.Apart (f g : Footprint) : Prop :=
  (∀ i, f.writes i → ¬ g.uses i) ∧ ∀ i, g.writes i → ¬ f.uses i

def Footprint.Allows (f : Footprint) : Action K → Prop
  | .tau => True
  | .read i _ => f.uses i
  | .write i _ => f.uses i ∧ f.writes i

/-- The sequential run, left task first, ends in `post` without an error, in
whichever order the results of a fork are handed on; the two tasks of a fork
stay apart. -/
def wp : Task E K R → (R → List K → Prop) → List K → Prop
  | .done r, post, m => post r m
  | .fail _, _, _ => False
  | .read i next, post, m => ∃ v, elem m i = some v ∧ wp (next v) post m
  | .write i v next, post, m => ∃ m', put m i v = some m' ∧ wp next post m'
  | .fork l r next, post, m =>
    (∃ f g : Footprint, f.Apart g ∧ Within f l ∧ Within g r) ∧
      wp l (fun a m₁ => wp r (fun b m₂ => wp (next a b) post m₂ ∧ wp (next b a) post m₂) m₁) m

theorem wp.mono {t : Task E K R} {post post' : R → List K → Prop} {m : List K}
    (h : wp t post m) (himp : ∀ r m', post r m' → post' r m') : wp t post' m := by
  induction t generalizing post post' m with
  | done r => exact himp r m h
  | fail e => exact h
  | read i next ih =>
    obtain ⟨v, hv, hnext⟩ := h
    exact ⟨v, hv, ih v hnext himp⟩
  | write i v next ih =>
    obtain ⟨m', hm, hnext⟩ := h
    exact ⟨m', hm, ih hnext himp⟩
  | fork l r next ihl ihr ihnext =>
    refine ⟨h.1, ihl h.2 fun a m₁ h₁ => ihr h₁ fun b m₂ h₂ => ?_⟩
    exact ⟨ihnext a b h₂.1 himp, ihnext b a h₂.2 himp⟩

/-- Two tasks that leave the array as they found it. -/
theorem wp.fork {f g : Footprint} {l r : Task E K R} {next : R → R → Task E K R}
    {post : R → List K → Prop} {leftPost rightPost : R → Prop} {m : List K} (hapart : f.Apart g)
    (hf : Within f l) (hg : Within g r) (hl : wp l (fun a m' => m' = m ∧ leftPost a) m)
    (hr : wp r (fun b m' => m' = m ∧ rightPost b) m)
    (h : ∀ a b, leftPost a → rightPost b → wp (next a b) post m ∧ wp (next b a) post m) :
    wp (.fork l r next) post m := by
  refine ⟨⟨f, g, hapart, hf, hg⟩, hl.mono ?_⟩
  rintro a m₁ ⟨rfl, ha⟩
  refine hr.mono ?_
  rintro b m₂ ⟨rfl, hb⟩
  exact h a b ha hb

theorem wp.exists_outcome {t : Task E K R} {post : R → List K → Prop} {m : List K}
    (h : wp t post m) : ∃ r m', post r m' := by
  induction t generalizing post m with
  | done r => exact ⟨r, m, h⟩
  | fail e => exact h.elim
  | read i next ih =>
    obtain ⟨v, _, hnext⟩ := h
    exact ih v hnext
  | write i v next ih =>
    obtain ⟨m', _, hnext⟩ := h
    exact ih hnext
  | fork l r next ihl ihr ihnext =>
    obtain ⟨a, m₁, h₁⟩ := ihl h.2
    obtain ⟨b, m₂, h₂⟩ := ihr h₁
    exact ihnext a b h₂.1

theorem wp.not_failed {t : Task E K R} {post : R → List K → Prop} {m : List K}
    (h : wp t post m) (e : E) : ¬ Failed t e := by
  intro hfailed
  induction hfailed generalizing post m with
  | here => exact h
  | left _ ih => exact ih h.2
  | right _ ih =>
    obtain ⟨_, _, h₁⟩ := h.2.exists_outcome
    exact ih h₁

theorem Within.step {f : Footprint} {t t' : Task E K R} {a : Action K} (h : Within f t)
    (hstep : Step t a t') : f.Allows a ∧ Within f t' := by
  induction hstep with
  | read v => exact ⟨h.1, h.2 v⟩
  | write => exact ⟨⟨h.1, h.2.1⟩, h.2.2⟩
  | left _ ih =>
    obtain ⟨hallows, hl⟩ := ih h.1
    exact ⟨hallows, hl, h.2.1, h.2.2⟩
  | right _ ih =>
    obtain ⟨hallows, hr⟩ := ih h.2.1
    exact ⟨hallows, h.1, hr, h.2.2⟩
  | leftFirst => exact ⟨trivial, h.2.2 _ _⟩
  | rightFirst => exact ⟨trivial, h.2.2 _ _⟩

def StaysIn (f : Footprint) (t : Task E K R) (m : List K) : Prop :=
  ∀ t' m', Reaches (t, m) (t', m') → ∀ a t'', Step t' a t'' → f.Allows a

theorem Within.staysIn {f : Footprint} {t : Task E K R} (h : Within f t) (m : List K) :
    StaysIn f t m := by
  have hreach : ∀ c, Reaches (t, m) c → Within f c.1 := by
    intro c hc
    induction hc with
    | refl => exact h
    | tail _ hmove ih =>
      obtain ⟨a, hstep, _⟩ := hmove
      exact (ih.step hstep).2
  exact fun t' m' hr a t'' hstep => ((hreach (t', m') hr).step hstep).1

/-- The action leaves alone what a task within `f` uses. -/
def Independent (f : Footprint) : Action K → Prop
  | .tau => True
  | .read i _ => ¬ f.writes i
  | .write i _ => ¬ f.uses i

theorem Footprint.Apart.independent {f g : Footprint} (h : f.Apart g) {a : Action K}
    (hallows : g.Allows a) : Independent f a := by
  cases a with
  | tau => trivial
  | read i v => exact fun hw => h.1 i hw hallows
  | write i v => exact h.2 i hallows.2

theorem Effect.elem_eq {f : Footprint} {a : Action K} {m m' : List K} (h : Effect a m m')
    (hind : Independent f a) {i : ℕ} (hi : f.uses i) : elem m' i = elem m i := by
  cases a with
  | tau => rw [show m' = m from h]
  | read j v => rw [h.2]
  | write j v =>
    have hne : i ≠ j := fun heq => hind (heq ▸ hi)
    rw [elem_put h, if_neg hne]

theorem Effect.put_comm {f : Footprint} {a : Action K} {m m' m₁ : List K} {i : ℕ} {v : K}
    (h : Effect a m m') (hind : Independent f a) (huses : f.uses i) (hwrites : f.writes i)
    (hput : put m i v = some m₁) : ∃ m₁', put m' i v = some m₁' ∧ Effect a m₁ m₁' := by
  cases a with
  | tau => exact ⟨m₁, by rw [show m' = m from h, hput], rfl⟩
  | read j w =>
    obtain ⟨hread, rfl⟩ := h
    have hne : j ≠ i := fun heq => hind (heq ▸ hwrites)
    exact ⟨m₁, hput, by rw [elem_put hput, if_neg hne, hread], rfl⟩
  | write j w =>
    have hne : i ≠ j := fun heq => hind (heq ▸ huses)
    have hi := put_range hput
    have hj := put_range h
    have hput' := put_eq_some (a := m') v hi.1 (by rw [length_put h]; exact hi.2)
    have hwrite := put_eq_some (a := m₁) w hj.1 (by rw [length_put hput]; exact hj.2)
    refine ⟨_, hput', ?_⟩
    show put m₁ j w = _
    rw [hwrite, Option.some.injEq]
    apply ext_elem
    intro k
    rw [elem_put hwrite, elem_put hput, elem_put hput', elem_put h]
    by_cases hki : k = i
    · rw [if_pos hki, if_pos hki, if_neg (hki ▸ hne)]
    · rw [if_neg hki, if_neg hki]

/-- An action that is independent of a task may as well happen after it. -/
theorem wp.delay {f : Footprint} {t : Task E K R} {post : R → List K → Prop} {m m' : List K}
    {a : Action K} (h : wp t post m) (hwithin : Within f t) (hind : Independent f a)
    (heffect : Effect a m m') :
    wp t (fun r m₁' => ∃ m₁, post r m₁ ∧ Effect a m₁ m₁') m' := by
  induction t generalizing post m m' with
  | done r => exact ⟨m, h, heffect⟩
  | fail e => exact h
  | read i next ih =>
    obtain ⟨v, hv, hnext⟩ := h
    exact ⟨v, by rw [heffect.elem_eq hind hwithin.1, hv], ih v hnext (hwithin.2 v) heffect⟩
  | write i v next ih =>
    obtain ⟨m₁, hput, hnext⟩ := h
    obtain ⟨m₁', hput', heffect'⟩ := heffect.put_comm hind hwithin.1 hwithin.2.1 hput
    exact ⟨m₁', hput', ih hnext hwithin.2.2 heffect'⟩
  | fork l r next ihl ihr ihnext =>
    refine ⟨h.1, (ihl h.2 hwithin.1 heffect).mono ?_⟩
    rintro a₁ m₁' ⟨m₁, h₁, heffect₁⟩
    refine (ihr h₁ hwithin.2.1 heffect₁).mono ?_
    rintro b m₂' ⟨m₂, h₂, heffect₂⟩
    exact ⟨ihnext a₁ b h₂.1 (hwithin.2.2 a₁ b) heffect₂,
      ihnext b a₁ h₂.2 (hwithin.2.2 b a₁) heffect₂⟩

theorem wp.step {t t' : Task E K R} {a : Action K} {post : R → List K → Prop} {m m' : List K}
    (h : wp t post m) (hstep : Step t a t') (heffect : Effect a m m') : wp t' post m' := by
  induction hstep generalizing post m m' with
  | read v =>
    obtain ⟨w, hw, hnext⟩ := h
    obtain ⟨hv, rfl⟩ := heffect
    obtain rfl : w = v := Option.some.inj (hw.symm.trans hv)
    exact hnext
  | write =>
    obtain ⟨m₁, hput, hnext⟩ := h
    obtain rfl : m₁ = m' := Option.some.inj (hput.symm.trans heffect)
    exact hnext
  | left hstep ih =>
    obtain ⟨⟨f, g, hapart, hf, hg⟩, h⟩ := h
    exact ⟨⟨f, g, hapart, (hf.step hstep).2, hg⟩, ih h heffect⟩
  | right hstep ih =>
    obtain ⟨⟨f, g, hapart, hf, hg⟩, h⟩ := h
    obtain ⟨hallows, hg'⟩ := hg.step hstep
    refine ⟨⟨f, g, hapart, hf, hg'⟩, ?_⟩
    -- the step of the right task is put off until the left task is done
    refine (h.delay hf (hapart.independent hallows) heffect).mono ?_
    rintro a m₁' ⟨m₁, h₁, heffect₁⟩
    exact ih h₁ heffect₁
  | leftFirst =>
    obtain rfl : m' = m := heffect
    exact h.2.1
  | rightFirst =>
    obtain rfl : m' = m := heffect
    exact h.2.2

theorem wp.progress {t : Task E K R} {post : R → List K → Prop} {m : List K}
    (h : wp t post m) : (∃ r, t = .done r ∧ post r m) ∨ ∃ c, Moves (t, m) c := by
  induction t generalizing post m with
  | done r => exact .inl ⟨r, rfl, h⟩
  | fail e => exact h.elim
  | read i next ih =>
    obtain ⟨v, hv, _⟩ := h
    exact .inr ⟨(next v, m), _, .read v, hv, rfl⟩
  | write i v next ih =>
    obtain ⟨m', hput, _⟩ := h
    exact .inr ⟨(next, m'), _, .write, hput⟩
  | fork l r next ihl ihr ihnext =>
    obtain ⟨a, rfl, h₁⟩ | ⟨⟨l', m'⟩, act, hstep, heffect⟩ := ihl h.2
    · obtain ⟨b, rfl, _⟩ | ⟨⟨r', m'⟩, act, hstep, heffect⟩ := ihr h₁
      · exact .inr ⟨(next a b, m), _, .leftFirst, rfl⟩
      · exact .inr ⟨(.fork (.done a) r' next, m'), act, .right hstep, heffect⟩
    · exact .inr ⟨(.fork l' r next, m'), act, .left hstep, heffect⟩

section Ends

def After (t' t : Task E K R) : Prop := ∃ a, Step t a t'

theorem acc_fork {l r : Task E K R} {next : R → R → Task E K R} (hl : Acc After l)
    (hr : Acc After r) (hnext : ∀ a b, Acc After (next a b)) :
    Acc After (.fork l r next) := by
  induction hl generalizing r with
  | intro l _ ihl =>
    induction hr with
    | intro r hr ihr =>
      refine ⟨_, ?_⟩
      rintro t ⟨a, hstep⟩
      cases hstep with
      | left hstep => exact ihl _ ⟨a, hstep⟩ (.intro r hr)
      | right hstep => exact ihr _ ⟨a, hstep⟩
      | leftFirst => exact hnext _ _
      | rightFirst => exact hnext _ _

/-- A task is a finite tree: it has no infinite run. -/
theorem acc_after (t : Task E K R) : Acc After t := by
  induction t with
  | done r =>
    refine ⟨_, ?_⟩
    rintro t ⟨_, hstep⟩
    cases hstep
  | fail e =>
    refine ⟨_, ?_⟩
    rintro t ⟨_, hstep⟩
    cases hstep
  | read i next ih =>
    refine ⟨_, ?_⟩
    rintro t ⟨_, hstep⟩
    cases hstep with
    | read v => exact ih v
  | write i v next ih =>
    refine ⟨_, ?_⟩
    rintro t ⟨_, hstep⟩
    cases hstep with
    | write => exact ih
  | fork l r next ihl ihr ihnext => exact acc_fork ihl ihr ihnext

theorem acc_moves (c : Task E K R × List K) : Acc (fun c' c => Moves c c') c :=
  Subrelation.accessible (fun {_ _} ⟨a, hstep, _⟩ => ⟨a, hstep⟩)
    (InvImage.accessible Prod.fst (acc_after c.1))

end Ends

/-- The rule for whole programs: what holds of the sequential run holds of
every interleaving. -/
theorem wp.runsTo {t : Task E K R} {post : R → List K → Prop} {m : List K}
    (h : wp t post m) : RunsTo t m post := by
  have hreach : ∀ c, Reaches (t, m) c → wp c.1 post c.2 := by
    intro c hc
    induction hc with
    | refl => exact h
    | tail _ hmove ih =>
      obtain ⟨a, hstep, heffect⟩ := hmove
      exact ih.step hstep heffect
  exact {
    ends := acc_moves (t, m)
    safe := fun t' m' hr e => (hreach (t', m') hr).not_failed e
    outcome := fun t' m' hr => (hreach (t', m') hr).progress }

/-- Some interleaving makes a task fail with `e`. -/
def CanFail (t : Task E K R) (m : List K) (e : E) : Prop :=
  ∃ t' m', Reaches (t, m) (t', m') ∧ Failed t' e

theorem RunsTo.not_canFail {t : Task E K R} {m : List K} {post : R → List K → Prop}
    (h : RunsTo t m post) (e : E) : ¬ CanFail t m e := by
  rintro ⟨t', m', hr, hfailed⟩
  exact h.safe t' m' hr e hfailed

section CanFail

variable {m m' : List K} {e : E} {i : ℕ} {v : K}

theorem CanFail.fail (m : List K) (e : E) : CanFail (.fail e : Task E K R) m e :=
  ⟨_, m, .refl, .here⟩

theorem CanFail.read {next : K → Task E K R} (hv : elem m i = some v)
    (h : CanFail (next v) m e) : CanFail (.read i next) m e := by
  obtain ⟨t', m', hr, hfailed⟩ := h
  have hmove : Moves (.read i next, m) (next v, m) := ⟨.read i v, .read v, hv, rfl⟩
  exact ⟨t', m', .head hmove hr, hfailed⟩

theorem CanFail.write {next : Task E K R} (hput : put m i v = some m')
    (h : CanFail next m' e) : CanFail (.write i v next) m e := by
  obtain ⟨t', m₁, hr, hfailed⟩ := h
  have hmove : Moves (.write i v next, m) (next, m') := ⟨.write i v, .write, hput⟩
  exact ⟨t', m₁, .head hmove hr, hfailed⟩

theorem Reaches.right {l r : Task E K R} {next : R → R → Task E K R}
    {c : Task E K R × List K} (h : Reaches (r, m) c) :
    Reaches (.fork l r next, m) (.fork l c.1 next, c.2) := by
  induction h with
  | refl => exact .refl
  | tail _ hmove ih =>
    obtain ⟨a, hstep, heffect⟩ := hmove
    exact ih.tail ⟨a, .right hstep, heffect⟩

theorem CanFail.right {l r : Task E K R} {next : R → R → Task E K R} (h : CanFail r m e) :
    CanFail (.fork l r next) m e := by
  obtain ⟨r', m', hr, hfailed⟩ := h
  exact ⟨_, m', Reaches.right hr, .right hfailed⟩

end CanFail

end XWebQL.ForkJoin
