import XWebQL.Transition
import Mathlib.Data.Set.Basic

/-! Programs over a heap of objects, several of them running at once.
An object is known by its reference; a new one gets a reference that was not in
use. `Spares` says of a program, without running it, that it overwrites none of
the objects of a set as long as what it allocates lies outside that set. It is
kept by every operation, so the objects of the set keep their content whatever
programs are started and however their operations interleave. -/

namespace XWebQL.HeapProgram

open Transition

variable {C α β : Type}

inductive Prog (C α : Type) where
  | ret (a : α)
  | fail
  | read (r : ℕ) (next : C → Prog C α)
  | alloc (c : C) (next : ℕ → Prog C α)
  | write (r : ℕ) (c : C) (next : Prog C α)

def Prog.bind : Prog C α → (α → Prog C β) → Prog C β
  | .ret a, f => f a
  | .fail, _ => .fail
  | .read r next, f => .read r fun c => (next c).bind f
  | .alloc c next, f => .alloc c fun r => (next r).bind f
  | .write r c next, f => .write r c (next.bind f)

instance : Monad (Prog C) where
  pure := .ret
  bind := .bind

def load (r : ℕ) : Prog C C := .read r .ret

def new (c : C) : Prog C ℕ := .alloc c .ret

def store (r : ℕ) (c : C) : Prog C Unit := .write r c (.ret ())

def lift : Option α → Prog C α
  | some a => .ret a
  | none => .fail

def Prog.forget (p : Prog C α) : Prog C Unit := p.bind fun _ => .ret ()

/-- One operation; a program that has ended has none, and neither has one that
follows a reference to nothing. -/
def advance : Prog C α → List C → Option (Prog C α × List C)
  | .read r next, heap => heap[r]?.map fun c => (next c, heap)
  | .alloc c next, heap => some (next heap.length, heap ++ [c])
  | .write r c next, heap => if r < heap.length then some (next, heap.set r c) else none
  | .ret _, _ => none
  | .fail, _ => none

/-- A program that runs without interruption: its result and the heap it leaves. -/
def run : Prog C α → List C → Option α × List C
  | .ret a, heap => (some a, heap)
  | .fail, heap => (none, heap)
  | .read r next, heap =>
    match heap[r]? with
    | some c => run (next c) heap
    | none => (none, heap)
  | .alloc c next, heap => run (next heap.length) (heap ++ [c])
  | .write r c next, heap => if r < heap.length then run next (heap.set r c) else (none, heap)

/-- The program overwrites no object of `D`, and its result meets `post`. -/
def Spares (D : Set ℕ) (post : α → Prop) : Prog C α → Prop
  | .ret a => post a
  | .fail => True
  | .read _ next => ∀ c, Spares D post (next c)
  | .alloc _ next => ∀ r, r ∉ D → Spares D post (next r)
  | .write r _ next => r ∉ D ∧ Spares D post next

/-- The objects of `D` exist and are the same in both heaps. -/
structure Keeps (D : Set ℕ) (heap heap' : List C) : Prop where
  live : ∀ r ∈ D, r < heap'.length
  same : ∀ r ∈ D, heap'[r]? = heap[r]?

section Rules

variable {D : Set ℕ} {post : α → Prop} {p : Prog C α}

theorem Spares.bind {post' : β → Prop} {f : α → Prog C β} (hp : Spares D post p)
    (hf : ∀ a, post a → Spares D post' (f a)) : Spares D post' (p >>= f) := by
  induction p with
  | ret a => exact hf a hp
  | fail => trivial
  | read r next ih => exact fun c => ih c (hp c)
  | alloc c next ih => exact fun r hr => ih r (hp r hr)
  | write r c next ih => exact ⟨hp.1, ih hp.2⟩

theorem Spares.forget (hp : Spares D post p) : Spares D (fun _ => True) p.forget :=
  hp.bind fun _ _ => trivial

theorem spares_load (D : Set ℕ) (r : ℕ) : Spares D (fun _ => True) (load r : Prog C C) :=
  fun _ => trivial

theorem spares_new (D : Set ℕ) (c : C) : Spares D (· ∉ D) (new c) := fun _ hr => hr

theorem spares_store {r : ℕ} (hr : r ∉ D) (c : C) :
    Spares D (fun _ => True) (store r c) := ⟨hr, trivial⟩

theorem spares_lift (D : Set ℕ) (a : Option α) :
    Spares D (fun _ => True) (lift a : Prog C α) := by
  cases a <;> trivial

end Rules

section Runs

variable {D : Set ℕ} {post : α → Prop} {p p' : Prog C α} {heap heap' : List C}

theorem Keeps.refl (hlive : ∀ r ∈ D, r < heap.length) : Keeps D heap heap :=
  ⟨hlive, fun _ _ => rfl⟩

theorem Keeps.trans {heap'' : List C} (h : Keeps D heap heap') (h' : Keeps D heap' heap'') :
    Keeps D heap heap'' :=
  ⟨h'.live, fun r hr => (h'.same r hr).trans (h.same r hr)⟩

theorem keeps_append (hlive : ∀ r ∈ D, r < heap.length) (c : C) : Keeps D heap (heap ++ [c]) where
  live r hr := by
    have := hlive r hr
    rw [List.length_append]
    omega
  same r hr := List.getElem?_append_left (hlive r hr)

theorem keeps_set (hlive : ∀ r ∈ D, r < heap.length) {r : ℕ} (hr : r ∉ D) (c : C) :
    Keeps D heap (heap.set r c) where
  live k hk := by
    rw [List.length_set]
    exact hlive k hk
  same k hk := List.getElem?_set_ne fun heq : r = k => hr (heq ▸ hk)

theorem Spares.advance (hp : Spares D post p) (hlive : ∀ r ∈ D, r < heap.length)
    (h : advance p heap = some (p', heap')) : Spares D post p' ∧ Keeps D heap heap' := by
  cases p with
  | ret a => cases h
  | fail => cases h
  | read r next =>
    obtain ⟨c, _, heq⟩ := Option.map_eq_some_iff.mp h
    obtain ⟨rfl, rfl⟩ : next c = p' ∧ heap = heap' := by simpa using heq
    exact ⟨hp c, .refl hlive⟩
  | alloc c next =>
    obtain ⟨rfl, rfl⟩ := Prod.mk.inj (Option.some.inj h)
    exact ⟨hp heap.length fun hD => lt_irrefl _ (hlive _ hD), keeps_append hlive c⟩
  | write r c next =>
    rw [HeapProgram.advance, Option.ite_none_right_eq_some] at h
    obtain ⟨rfl, rfl⟩ : next = p' ∧ heap.set r c = heap' := by simpa using h.2
    exact ⟨hp.2, keeps_set hlive hp.1 c⟩

end Runs

structure Pool (C : Type) where
  heap : List C
  tasks : List (Prog C Unit)

inductive Act (Req : Type) where
  | start (req : Req)
  | step (t : ℕ)

def Pool.act {Req : Type} (tasksOf : Req → List (Prog C Unit)) (s : Pool C) :
    Act Req → Option (Pool C)
  | .start req => some { s with tasks := s.tasks ++ tasksOf req }
  | .step t => do
    let p ← s.tasks[t]?
    let (p, heap) ← advance p s.heap
    some ⟨heap, s.tasks.set t p⟩

/-- Requests of any kind, in any number, on a heap that exists when they begin. -/
def server {Req : Type} (tasksOf : Req → List (Prog C Unit)) (heap : List C) :
    System (Pool C) (Act Req) :=
  ⟨⟨heap, []⟩, Pool.act tasksOf⟩

section Server

variable {Req : Type} {tasksOf : Req → List (Prog C Unit)} {D : Set ℕ} {heap : List C}

structure Spared (D : Set ℕ) (heap : List C) (s : Pool C) : Prop where
  keeps : Keeps D heap s.heap
  tasks : ∀ p ∈ s.tasks, Spares D (fun _ => True) p

theorem Spared.act (htasks : ∀ req, ∀ p ∈ tasksOf req, Spares D (fun _ => True) p)
    {s s' : Pool C} (h : Spared D heap s) {a : Act Req} (hact : s.act tasksOf a = some s') :
    Spared D heap s' := by
  cases a with
  | start req =>
    obtain rfl := Option.some.inj hact
    refine ⟨h.keeps, fun p hp => ?_⟩
    obtain hp | hp := List.mem_append.mp hp
    · exact h.tasks p hp
    · exact htasks req p hp
  | step t =>
    obtain ⟨p, hp, hact⟩ := Option.bind_eq_some_iff.mp hact
    obtain ⟨⟨p', heap'⟩, hadvance, hact⟩ := Option.bind_eq_some_iff.mp hact
    obtain rfl := Option.some.inj hact
    obtain ⟨hspares, hkeeps⟩ :=
      (h.tasks p (List.mem_of_getElem? hp)).advance h.keeps.live hadvance
    refine ⟨h.keeps.trans hkeeps, fun q hq => ?_⟩
    obtain hq | rfl := List.mem_or_eq_of_mem_set hq
    · exact h.tasks q hq
    · exact hspares

/-- Objects that every task spares keep their content in all runs. -/
theorem server_keeps (hlive : ∀ r ∈ D, r < heap.length)
    (htasks : ∀ req, ∀ p ∈ tasksOf req, Spares D (fun _ => True) p) {s : Pool C}
    (hs : Reachable (server tasksOf heap) s) : Keeps D heap s.heap := by
  suffices Spared D heap s from this.keeps
  refine hs.invariant (Spared D heap) ⟨.refl hlive, fun p hp => absurd hp List.not_mem_nil⟩ ?_
  exact fun s a t h _ hact => h.act htasks hact

end Server

section Sequential

variable {p : Prog C α} {f : α → Prog C β} {heap heap' : List C}

theorem run_bind (p : Prog C α) (f : α → Prog C β) (heap : List C) :
    run (p >>= f) heap =
      (run p heap).1.elim (none, (run p heap).2) fun a => run (f a) (run p heap).2 := by
  induction p generalizing heap with
  | ret a => rfl
  | fail => rfl
  | read r next ih =>
    show run (.read r fun c => (next c).bind f) heap = _
    rw [run, run]
    cases heap[r]? with
    | none => rfl
    | some c => exact ih c heap
  | alloc c next ih => exact ih heap.length (heap ++ [c])
  | write r c next ih =>
    show run (.write r c (next.bind f)) heap = _
    rw [run, run]
    split_ifs
    · exact ih (heap.set r c)
    · rfl

theorem run_bind_some {a : α} (h : run p heap = (some a, heap')) :
    run (p >>= f) heap = run (f a) heap' := by
  rw [run_bind, h]
  rfl

theorem run_bind_snd (h : (run p heap).2 = heap') (hf : ∀ v, (run (f v) heap').2 = heap') :
    (run (p >>= f) heap).2 = heap' := by
  rw [run_bind, h]
  cases (run p heap).1 with
  | none => rfl
  | some v => exact hf v

theorem run_bind_fst {a : Option α} {g : α → Option β} (h : (run p heap).1 = a)
    (hf : ∀ v heap', (run (f v) heap').1 = g v) : (run (p >>= f) heap).1 = a.bind g := by
  rw [run_bind, h]
  cases a with
  | none => rfl
  | some v => exact hf v _

theorem run_lift (a : Option α) (heap : List C) : run (lift a : Prog C α) heap = (a, heap) := by
  cases a <;> rfl

theorem run_lift_bind (a : Option α) (f : α → Prog C β) (heap : List C) :
    (run (lift a >>= f) heap).1 = a.bind fun v => (run (f v) heap).1 := by
  cases a <;> rfl

theorem run_load {r : ℕ} {c : C} (h : heap[r]? = some c) :
    run (load r) heap = (some c, heap) := by
  rw [load, run, h]
  rfl

theorem run_new_bind (c : C) (f : ℕ → Prog C β) (heap : List C) :
    run (new c >>= f) heap = run (f heap.length) (heap ++ [c]) := rfl

theorem run_store {r : ℕ} (h : r < heap.length) (c : C) :
    run (store r c) heap = (some (), heap.set r c) := by
  rw [store, run, if_pos h]
  rfl

end Sequential

section Complete

variable {Req : Type} {tasksOf : Req → List (Prog C Unit)} {heap₀ : List C} {s : Pool C} {i : ℕ}

theorem reach_advance {p p' : Prog C Unit} {heap : List C}
    (hs : Reachable (server tasksOf heap₀) s) (hi : s.tasks[i]? = some p)
    (h : advance p s.heap = some (p', heap)) :
    ∃ t, Reachable (server tasksOf heap₀) t ∧ t.tasks[i]? = some p' ∧ t.heap = heap := by
  refine ⟨⟨heap, s.tasks.set i p'⟩, .next (.step i) hs trivial ?_,
    List.getElem?_set_self (List.getElem?_eq_some_iff.mp hi).1, rfl⟩
  show (s.tasks[i]?.bind fun p => _) = _
  rw [hi, Option.bind_some, h]
  rfl

/-- Among the runs of a server is the one in which a task is not interrupted. -/
theorem reach_run {p : Prog C Unit} (hs : Reachable (server tasksOf heap₀) s)
    (hi : s.tasks[i]? = some p) :
    ∃ t, Reachable (server tasksOf heap₀) t ∧ t.heap = (run p s.heap).2 := by
  induction p generalizing s with
  | ret a => exact ⟨s, hs, rfl⟩
  | fail => exact ⟨s, hs, rfl⟩
  | read r next ih =>
    rw [run]
    cases hr : s.heap[r]? with
    | none => exact ⟨s, hs, rfl⟩
    | some c =>
      have h : advance (.read r next) s.heap = some (next c, s.heap) := by
        rw [advance, hr]
        rfl
      obtain ⟨t, ht, hit, hheap⟩ := reach_advance hs hi h
      rw [← hheap]
      exact ih c ht hit
  | alloc c next ih =>
    obtain ⟨t, ht, hit, hheap⟩ := reach_advance hs hi rfl
    rw [run, ← hheap]
    exact ih _ ht hit
  | write r c next ih =>
    rw [run]
    split
    next hr =>
      obtain ⟨t, ht, hit, hheap⟩ := reach_advance hs hi (if_pos hr)
      rw [← hheap]
      exact ih ht hit
    next => exact ⟨s, hs, rfl⟩

end Complete

end XWebQL.HeapProgram
