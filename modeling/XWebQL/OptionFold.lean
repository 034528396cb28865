import Mathlib.Data.List.Basic

/-! Loops whose rounds may fail, as `foldlM` in `Option`. -/

namespace XWebQL.OptionFold

variable {α σ : Type*} {step : σ → α → Option σ} {l : List α}

theorem foldlM_none {a : α} (ha : a ∈ l) (hnone : ∀ s, step s a = none) (s : σ) :
    l.foldlM step s = none := by
  induction l generalizing s with
  | nil => cases ha
  | cons b l ih =>
    rw [List.foldlM_cons]
    cases List.mem_cons.mp ha with
    | inl hab => rw [← hab, hnone]; rfl
    | inr ha =>
      cases step s b with
      | none => rfl
      | some s' => exact ih ha s'

theorem foldlM_some {next : σ → α → σ} {Q : σ → Prop}
    (hstep : ∀ s, ∀ a ∈ l, Q s → step s a = some (next s a))
    (hQ : ∀ s, ∀ a ∈ l, Q s → Q (next s a)) {s : σ} (hs : Q s) :
    l.foldlM step s = some (l.foldl next s) := by
  induction l generalizing s with
  | nil => rfl
  | cons a l ih =>
    rw [List.foldlM_cons, hstep s a List.mem_cons_self hs, List.foldl_cons]
    exact ih (fun s b hb => hstep s b (List.mem_cons_of_mem _ hb))
      (fun s b hb => hQ s b (List.mem_cons_of_mem _ hb)) (hQ s a List.mem_cons_self hs)

theorem foldlM_exists {Q : σ → Prop}
    (hstep : ∀ s, ∀ a ∈ l, Q s → ∃ s', step s a = some s' ∧ Q s') {s : σ} (hs : Q s) :
    ∃ t, l.foldlM step s = some t ∧ Q t := by
  induction l generalizing s with
  | nil => exact ⟨s, rfl, hs⟩
  | cons a l ih =>
    obtain ⟨s', hs', hQ⟩ := hstep s a List.mem_cons_self hs
    rw [List.foldlM_cons, hs']
    exact ih (fun s b hb => hstep s b (List.mem_cons_of_mem _ hb)) hQ

theorem foldlM_keeps {Q : σ → Prop} (hQ : ∀ s s', ∀ a ∈ l, Q s → step s a = some s' → Q s') {s t : σ}
    (hs : Q s) (h : l.foldlM step s = some t) : Q t := by
  induction l generalizing s with
  | nil =>
    obtain rfl := Option.some.inj h
    exact hs
  | cons a l ih =>
    rw [List.foldlM_cons] at h
    obtain ⟨s', hs', h⟩ := Option.bind_eq_some_iff.mp h
    exact ih (fun s u b hb => hQ s u b (List.mem_cons_of_mem _ hb))
      (hQ s s' a List.mem_cons_self hs hs') h

theorem foldlM_isSome_iff {Q : σ → Prop} {p : α → Prop}
    (hstep : ∀ s, ∀ a ∈ l, Q s → ((step s a).isSome ↔ p a))
    (hQ : ∀ s s', ∀ a ∈ l, Q s → step s a = some s' → Q s') {s : σ} (hs : Q s) :
    (l.foldlM step s).isSome ↔ ∀ a ∈ l, p a := by
  induction l generalizing s with
  | nil => exact iff_of_true rfl (List.forall_mem_nil p)
  | cons a l ih =>
    have hfirst := hstep s a List.mem_cons_self hs
    rw [List.foldlM_cons, List.forall_mem_cons, ← hfirst]
    cases hs' : step s a with
    | none => exact iff_of_false Bool.false_ne_true fun h => Bool.false_ne_true h.1
    | some s' =>
      refine Iff.trans ?_ (and_iff_right rfl).symm
      exact ih (fun s b hb => hstep s b (List.mem_cons_of_mem _ hb))
        (fun s u b hb => hQ s u b (List.mem_cons_of_mem _ hb))
        (hQ s s' a List.mem_cons_self hs hs')

theorem foldlM_range {step : σ → ℕ → Option σ} {Q : ℕ → σ → Prop} {n : ℕ}
    (hstep : ∀ i < n, ∀ s, Q i s → ∃ s', step s i = some s' ∧ Q (i + 1) s') {s : σ} (hs : Q 0 s) :
    ∃ t, (List.range n).foldlM step s = some t ∧ Q n t := by
  induction n with
  | zero => exact ⟨s, rfl, hs⟩
  | succ n ih =>
    obtain ⟨t, ht, hQ⟩ := ih fun i hi => hstep i (Nat.lt_succ_of_lt hi)
    obtain ⟨u, hu, hQ⟩ := hstep n (Nat.lt_succ_self n) t hQ
    refine ⟨u, ?_, hQ⟩
    rw [List.range_succ, List.foldlM_append, ht]
    exact (bind_pure _).trans hu

/-- Where a step either sets a variable or leaves it, the last one that sets it decides. `Q` is
what holds all along. -/
theorem foldlM_last_of {β : Type*} {g : σ → β} (sets : α → Option β) {Q : σ → Prop}
    (hQ : ∀ s s', ∀ a ∈ l, Q s → step s a = some s' → Q s')
    (hset : ∀ s s', ∀ a ∈ l, Q s → step s a = some s' → g s' = (sets a).getD (g s)) {s t : σ}
    (hs : Q s) (h : l.foldlM step s = some t) :
    g t = (l.filterMap sets).getLast?.getD (g s) := by
  induction l generalizing s with
  | nil =>
    obtain rfl := Option.some.inj h
    rfl
  | cons a l ih =>
    rw [List.foldlM_cons] at h
    obtain ⟨s', hs', h⟩ := Option.bind_eq_some_iff.mp h
    have hrest := ih (fun s u b hb => hQ s u b (List.mem_cons_of_mem _ hb))
      (fun s u b hb => hset s u b (List.mem_cons_of_mem _ hb))
      (hQ s s' a List.mem_cons_self hs hs') h
    rw [hrest, hset s s' a List.mem_cons_self hs hs']
    cases ha : sets a with
    | none => rw [List.filterMap_cons_none ha, Option.getD_none]
    | some b =>
      rw [List.filterMap_cons_some ha, List.getLast?_cons, Option.getD_some, Option.getD_some]

theorem foldlM_last {β : Type*} {g : σ → β} (sets : α → Option β)
    (hset : ∀ s s', ∀ a ∈ l, step s a = some s' → g s' = (sets a).getD (g s)) {s t : σ}
    (h : l.foldlM step s = some t) : g t = (l.filterMap sets).getLast?.getD (g s) :=
  foldlM_last_of sets (Q := fun _ => True) (fun _ _ _ _ _ _ => trivial)
    (fun s s' a ha _ => hset s s' a ha) trivial h

theorem foldlM_set {β : Type*} {g : σ → β} (sets : α → Option β) {a : α} {v : β}
    (hset : ∀ s s', ∀ a ∈ l, step s a = some s' → g s' = (sets a).getD (g s))
    (ha : a ∈ l) (hv : sets a = some v) (hall : ∀ b ∈ l, ∀ w, sets b = some w → w = v) {s t : σ}
    (h : l.foldlM step s = some t) : g t = v := by
  rw [foldlM_last sets hset h]
  cases hlast : (l.filterMap sets).getLast? with
  | none =>
    rw [List.getLast?_eq_none_iff, List.filterMap_eq_nil_iff] at hlast
    rw [hlast a ha] at hv
    cases hv
  | some w =>
    obtain ⟨b, hb, hw⟩ := List.mem_filterMap.mp (List.mem_of_getLast? hlast)
    exact hall b hb w hw

theorem foldlM_congr {step' : σ → α → Option σ} (h : ∀ a ∈ l, ∀ s, step s a = step' s a) (s : σ) :
    l.foldlM step s = l.foldlM step' s := by
  induction l generalizing s with
  | nil => rfl
  | cons a l ih =>
    rw [List.foldlM_cons, List.foldlM_cons, h a List.mem_cons_self]
    congr 1
    funext t
    exact ih (fun b hb => h b (List.mem_cons_of_mem _ hb)) t

theorem foldlM_flatMap {β : Type*} {g : β → List α} {l : List β} (s : σ) :
    (l.flatMap g).foldlM step s = l.foldlM (fun s b => (g b).foldlM step s) s := by
  induction l generalizing s with
  | nil => rfl
  | cons b l ih =>
    rw [List.flatMap_cons, List.foldlM_append, List.foldlM_cons]
    congr 1
    funext t
    exact ih t

theorem foldlM_indices (first : List α) (s : σ) :
    (List.range' first.length l.length).foldlM (fun s k => ((first ++ l)[k]?).bind (step s)) s =
      l.foldlM step s := by
  induction l generalizing first s with
  | nil => rfl
  | cons a l ih =>
    have hhead : (first ++ a :: l)[first.length]? = some a := by simp
    have hsplit : first ++ a :: l = first ++ [a] ++ l := by simp
    rw [List.length_cons, List.range'_succ, List.foldlM_cons, List.foldlM_cons, hhead,
      Option.bind_some]
    congr 1
    funext t
    rw [hsplit, ← ih (first ++ [a]), List.length_append, List.length_singleton]

theorem mapM_eq_some_iff {β : Type*} {g : α → Option β} {p : α → Prop} {h : α → β}
    (hg : ∀ a ∈ l, ∀ b, g a = some b ↔ p a ∧ b = h a) {bs : List β} :
    l.mapM g = some bs ↔ (∀ a ∈ l, p a) ∧ bs = l.map h := by
  induction l generalizing bs with
  | nil =>
    rw [List.mapM_nil, Option.pure_def, Option.some.injEq, List.map_nil, eq_comm,
      and_iff_right (List.forall_mem_nil p)]
  | cons a l ih =>
    have hrest := fun bs => @ih (fun b hb => hg b (List.mem_cons_of_mem _ hb)) bs
    have hfirst := hg a List.mem_cons_self
    rw [List.mapM_cons, Option.bind_eq_bind, Option.bind_eq_some_iff, List.forall_mem_cons,
      List.map_cons]
    constructor
    · rintro ⟨b, hb, hbs⟩
      obtain ⟨bs, hl, hbs⟩ := Option.bind_eq_some_iff.mp hbs
      obtain ⟨hp, rfl⟩ := (hfirst b).mp hb
      obtain ⟨hall, rfl⟩ := (hrest bs).mp hl
      exact ⟨⟨hp, hall⟩, (Option.some.inj hbs).symm⟩
    · rintro ⟨⟨hp, hall⟩, rfl⟩
      exact ⟨h a, (hfirst _).mpr ⟨hp, rfl⟩,
        Option.bind_eq_some_iff.mpr ⟨_, (hrest _).mpr ⟨hall, rfl⟩, rfl⟩⟩

end XWebQL.OptionFold
