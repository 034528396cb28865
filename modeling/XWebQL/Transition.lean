import Mathlib.Data.List.Basic
import Mathlib.Logic.Relation

/-! Programs as executable step functions.
A run takes one action after another, each at a state where it is enabled.
`Reach M ok s` says that some run leads to `s` and that every step of it met
the condition `ok`, which may read the state before the step. An invariant is
proved for one step; `Reach.invariant` carries it to every state reached. -/

namespace XWebQL.Transition

variable {σ α : Type}

structure System (σ α : Type) where
  init : σ
  step : σ → α → Option σ

inductive Reach (M : System σ α) (ok : σ → α → Prop) : σ → Prop
  | start : Reach M ok M.init
  | next {s t : σ} (a : α) : Reach M ok s → ok s a → M.step s a = some t → Reach M ok t

def Reachable (M : System σ α) : σ → Prop := Reach M fun _ _ => True

variable {M : System σ α} {ok : σ → α → Prop} {s t : σ}

theorem Reach.invariant (Inv : σ → Prop) (hinit : Inv M.init)
    (hstep : ∀ s a t, Inv s → ok s a → M.step s a = some t → Inv t)
    (hs : Reach M ok s) : Inv s := by
  induction hs with
  | start => exact hinit
  | next a _ hok hstep' ih => exact hstep _ a _ ih hok hstep'

/-- The state after a list of actions, if each is enabled in its turn and meets `ok`. -/
def System.exec (M : System σ α) (ok : σ → α → Prop) [∀ s a, Decidable (ok s a)] :
    σ → List α → Option σ
  | s, [] => some s
  | s, a :: as => if ok s a then (M.step s a).bind fun t => M.exec ok t as else none

theorem Reach.exec [∀ s a, Decidable (ok s a)] {as : List α} (hs : Reach M ok s)
    (h : M.exec ok s as = some t) : Reach M ok t := by
  induction as generalizing s with
  | nil =>
    rw [System.exec, Option.some_inj] at h
    rwa [← h]
  | cons a as ih =>
    rw [System.exec, Option.ite_none_right_eq_some, Option.bind_eq_some_iff] at h
    obtain ⟨hok, u, hu, h⟩ := h
    exact ih (.next a hs hok hu) h

theorem reach_exec (M : System σ α) (ok : σ → α → Prop) [∀ s a, Decidable (ok s a)]
    (as : List α) (h : (M.exec ok M.init as).isSome) :
    Reach M ok ((M.exec ok M.init as).get h) :=
  Reach.exec .start (Option.some_get h).symm

theorem reachable_exec (M : System σ α) (as : List α)
    (h : (M.exec (fun _ _ => True) M.init as).isSome) :
    Reachable M ((M.exec (fun _ _ => True) M.init as).get h) :=
  reach_exec M _ as h

/-- Some run whose steps meet `ok` leads from `s` to a state with `P`. -/
def System.Leads (M : System σ α) (ok : σ → α → Prop) (s : σ) (P : σ → Prop) : Prop :=
  ∃ t, Relation.ReflTransGen (fun s t => ∃ a, ok s a ∧ M.step s a = some t) s t ∧ P t

section Leads

variable {P Q : σ → Prop} {a : α}

theorem System.Leads.here (h : P s) : M.Leads ok s P := ⟨s, .refl, h⟩

theorem System.Leads.step (ha : ok s a) (hstep : M.step s a = some t) (h : M.Leads ok t P) :
    M.Leads ok s P := by
  obtain ⟨u, hu, hP⟩ := h
  exact ⟨u, .head ⟨a, ha, hstep⟩ hu, hP⟩

theorem System.Leads.trans (h : M.Leads ok s P) (hQ : ∀ t, P t → M.Leads ok t Q) :
    M.Leads ok s Q := by
  obtain ⟨t, hst, hP⟩ := h
  obtain ⟨u, htu, hu⟩ := hQ t hP
  exact ⟨u, hst.trans htu, hu⟩

/-- A goal is reached if some run comes nearer to it from wherever it is not reached yet. -/
theorem System.Leads.of_descent (μ : σ → ℕ)
    (h : ∀ s, Q s → P s ∨ M.Leads ok s fun t => Q t ∧ μ t < μ s) (hs : Q s) :
    M.Leads ok s P := by
  induction hn : μ s using Nat.strongRecOn generalizing s with
  | ind n ih =>
    rcases h s hs with hP | hnear
    · exact .here hP
    · exact hnear.trans fun t ht => ih (μ t) (hn ▸ ht.2) ht.1 rfl

end Leads

theorem getElem?_set_cases {β : Type} {l : List β} {i j : ℕ} {a b : β}
    (h : (l.set i a)[j]? = some b) : (j = i ∧ b = a) ∨ (j ≠ i ∧ l[j]? = some b) := by
  rw [List.getElem?_set] at h
  split at h
  next hij =>
    split at h
    · exact .inl ⟨hij.symm, (Option.some.inj h).symm⟩
    · nomatch h
  next hij => exact .inr ⟨Ne.symm hij, h⟩

end XWebQL.Transition
