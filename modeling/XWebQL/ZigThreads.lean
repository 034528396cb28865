import XWebQL.ZigHeader

/-! The threads of `read_events`.
The rounds of all threads together take every row once. A round writes where no
other round does, so that the order of the rounds is of no account. -/

namespace XWebQL.ZigThreads

open ZigReader
open SxsReader (Event)

def rowOf (num_threads naxis2 : ℕ) (round : ℕ × ℕ) : ℕ :=
  (threadRows num_threads naxis2 round.1).1 + round.2

section Rounds

theorem flatMap_range (k w : ℕ) :
    ((List.range k).flatMap fun i => (List.range w).map fun j => i * w + j) =
      List.range (k * w) := by
  induction k with
  | zero => rw [Nat.zero_mul]; rfl
  | succ k ih =>
    rw [List.range_succ, List.flatMap_append, ih, List.flatMap_singleton, Nat.succ_mul,
      List.range_add]

theorem map_rowOf_rounds {num_threads : ℕ} (hpos : 0 < num_threads) (naxis2 : ℕ) :
    (rounds num_threads naxis2).map (rowOf num_threads naxis2) = List.range naxis2 := by
  obtain ⟨k, rfl⟩ := Nat.exists_eq_succ_of_ne_zero hpos.ne'
  have hshare : k * (naxis2 / (k + 1)) ≤ naxis2 :=
    (Nat.mul_le_mul_right _ k.le_succ).trans (Nat.mul_div_le _ _)
  have hfirst : ((List.range k).flatMap fun i =>
      (List.range (threadRows (k + 1) naxis2 i).2).map fun j => rowOf (k + 1) naxis2 (i, j)) =
        List.range (k * (naxis2 / (k + 1))) := by
    rw [← flatMap_range]
    refine List.flatMap_congr fun i hi => ?_
    have hlt := List.mem_range.mp hi
    have hlast : ¬ i = k + 1 - 1 := by omega
    simp only [threadRows, if_neg hlast]
    rfl
  have hlast : (List.range (threadRows (k + 1) naxis2 k).2).map
      (fun j => rowOf (k + 1) naxis2 (k, j)) =
        (List.range (naxis2 - k * (naxis2 / (k + 1)))).map (k * (naxis2 / (k + 1)) + ·) := by
    simp only [threadRows, Nat.add_sub_cancel, if_true]
    rfl
  have hmap : (rounds (k + 1) naxis2).map (rowOf (k + 1) naxis2) =
      (List.range (k + 1)).flatMap fun i =>
        (List.range (threadRows (k + 1) naxis2 i).2).map fun j => rowOf (k + 1) naxis2 (i, j) := by
    simp only [rounds, List.map_flatMap, List.map_map]
    rfl
  rw [Nat.succ_eq_add_one, hmap, List.range_succ, List.flatMap_append, hfirst,
    List.flatMap_singleton, hlast, ← List.range_add]
  exact congrArg List.range (by omega)

end Rounds

variable {num_threads naxis2 naxis1 : ℕ} {read : ℕ → Option Event}

def fill (naxis1 : ℕ) (read : ℕ → Option Event) (arrays : List (Option Event)) (i : ℕ) :
    Option (List (Option Event)) :=
  (read (i * naxis1)).bind fun event =>
    if i < arrays.length then some (arrays.set i (some event)) else none

theorem runRound_eq (arrays : List (Option Event)) (round : ℕ × ℕ) :
    runRound num_threads naxis2 naxis1 read arrays round =
      fill naxis1 read arrays (rowOf num_threads naxis2 round) := by
  rw [runRound, fill, rowOf, ← Nat.add_mul]
  rfl

theorem foldlM_fill {is : List ℕ} {arrays : List (Option Event)}
    (hread : ∀ i ∈ is, read (i * naxis1) ≠ none ∧ i < arrays.length) :
    ∃ filled, is.foldlM (fill naxis1 read) arrays = some filled ∧
      ∀ i, filled[i]? = if i ∈ is then some (read (i * naxis1)) else arrays[i]? := by
  induction is generalizing arrays with
  | nil => exact ⟨arrays, rfl, fun i => rfl⟩
  | cons i is ih =>
    obtain ⟨hsome, hlt⟩ := hread i List.mem_cons_self
    obtain ⟨event, hevent⟩ := Option.ne_none_iff_exists'.mp hsome
    have hfill : fill naxis1 read arrays i = some (arrays.set i (some event)) := by
      rw [fill, hevent, Option.bind_some, if_pos hlt]
    obtain ⟨filled, hfilled, hget⟩ := @ih (arrays.set i (some event)) fun j hj => by
      rw [List.length_set]
      exact hread j (List.mem_cons_of_mem _ hj)
    refine ⟨filled, by rw [List.foldlM_cons, hfill]; exact hfilled, ?_⟩
    intro j
    rw [hget j]
    by_cases hj : j ∈ is
    · rw [if_pos hj, if_pos (List.mem_cons_of_mem _ hj)]
    · by_cases hij : j = i
      · rw [if_neg hj, hij, if_pos List.mem_cons_self, List.getElem?_set_self hlt, hevent]
      · rw [if_neg hj, if_neg (by simp [hij, hj]), List.getElem?_set_ne (Ne.symm hij)]

section Schedule

variable {schedule : List (ℕ × ℕ) → List (ℕ × ℕ)}

def runThreads (num_threads naxis2 naxis1 : ℕ) (read : ℕ → Option Event)
    (schedule : List (ℕ × ℕ) → List (ℕ × ℕ)) : Option (List Event) :=
  ((schedule (rounds num_threads naxis2)).foldlM (runRound num_threads naxis2 naxis1 read)
    (List.replicate naxis2 none)).bind fun arrays => arrays.mapM id

theorem foldlM_schedule (arrays : List (Option Event)) :
    (schedule (rounds num_threads naxis2)).foldlM (runRound num_threads naxis2 naxis1 read) arrays =
      ((schedule (rounds num_threads naxis2)).map (rowOf num_threads naxis2)).foldlM
        (fill naxis1 read) arrays := by
  have hstep : runRound num_threads naxis2 naxis1 read =
      fun arrays round => fill naxis1 read arrays (rowOf num_threads naxis2 round) := by
    funext arrays round
    exact runRound_eq arrays round
  rw [hstep, List.foldlM_map]

theorem mem_schedule (hpos : 0 < num_threads) (hperm : ∀ l, (schedule l).Perm l) (i : ℕ) :
    i ∈ (schedule (rounds num_threads naxis2)).map (rowOf num_threads naxis2) ↔ i < naxis2 := by
  rw [((hperm _).map _).mem_iff, map_rowOf_rounds hpos, List.mem_range]

theorem mapM_id {α : Type} (l : List α) : (l.map some).mapM id = some l := by
  induction l with
  | nil => rfl
  | cons a l ih => rw [List.map_cons, List.mapM_cons, ih]; rfl

theorem runThreads_some {events : List Event} (hpos : 0 < num_threads)
    (hperm : ∀ l, (schedule l).Perm l)
    (hread : ∀ (i : ℕ) (event : Event), events[i]? = some event → read (i * naxis1) = some event) :
    runThreads num_threads events.length naxis1 read schedule = some events := by
  have hmem : ∀ i, i ∈ (schedule (rounds num_threads events.length)).map
      (rowOf num_threads events.length) ↔ i < events.length := mem_schedule hpos hperm
  obtain ⟨filled, hfilled, hget⟩ := @foldlM_fill naxis1 read
    ((schedule (rounds num_threads events.length)).map (rowOf num_threads events.length))
    (List.replicate events.length none) fun i hi => by
      have hlt := (hmem i).mp hi
      rw [hread i _ (List.getElem?_eq_getElem hlt), List.length_replicate]
      exact ⟨Option.some_ne_none _, hlt⟩
  have hall : filled = events.map some := by
    refine List.ext_getElem? fun i => ?_
    rw [hget i, List.getElem?_map]
    by_cases hlt : i < events.length
    · have hevent := List.getElem?_eq_getElem hlt
      rw [if_pos ((hmem i).mpr hlt), hevent, hread i _ hevent, Option.map_some]
    · have hle : events.length ≤ i := Nat.le_of_not_lt hlt
      rw [if_neg fun h => hlt ((hmem i).mp h), List.getElem?_eq_none (by rwa [List.length_replicate]),
        List.getElem?_eq_none hle, Option.map_none]
  rw [runThreads, foldlM_schedule, hfilled, Option.bind_some, hall, mapM_id]

theorem runThreads_none (hpos : 0 < num_threads) (hperm : ∀ l, (schedule l).Perm l) {i : ℕ}
    (hi : i < naxis2) (hread : read (i * naxis1) = none) :
    runThreads num_threads naxis2 naxis1 read schedule = none := by
  have hmem := (mem_schedule hpos hperm i).mpr hi
  have hnone : ∀ arrays, fill naxis1 read arrays i = none := by
    intro arrays
    rw [fill, hread, Option.bind_none]
  rw [runThreads, foldlM_schedule, OptionFold.foldlM_none hmem hnone, Option.bind_none]

/-- The threads leave one event for each row, if every row can be read. -/
theorem runThreads_eq_some_iff {p : ℕ → Prop} {event : ℕ → Event} (hpos : 0 < num_threads)
    (hperm : ∀ l, (schedule l).Perm l)
    (hread : ∀ i < naxis2, ∀ e, read (i * naxis1) = some e ↔ p i ∧ e = event i)
    {events : List Event} :
    runThreads num_threads naxis2 naxis1 read schedule = some events ↔
      (∀ i < naxis2, p i) ∧ events = (List.range naxis2).map event := by
  by_cases hall : ∀ i < naxis2, p i
  · have hlength : ((List.range naxis2).map event).length = naxis2 := by
      rw [List.length_map, List.length_range]
    have hevents : ∀ (i : ℕ) (e : Event), ((List.range naxis2).map event)[i]? = some e →
        read (i * naxis1) = some e := by
      intro i e hi
      rw [List.getElem?_map, Option.map_eq_some_iff] at hi
      obtain ⟨j, hj, rfl⟩ := hi
      obtain ⟨hlt, rfl⟩ := List.getElem?_eq_some_iff.mp hj
      rw [List.length_range] at hlt
      rw [List.getElem_range]
      exact (hread i hlt _).mpr ⟨hall i hlt, rfl⟩
    have hrun := runThreads_some hpos hperm hevents
    rw [hlength] at hrun
    rw [hrun, Option.some.injEq, and_iff_right hall, eq_comm]
  · simp only [not_forall] at hall
    obtain ⟨i, hi, hnot⟩ := hall
    have hnone : read (i * naxis1) = none :=
      Option.eq_none_iff_forall_not_mem.mpr fun e he => hnot ((hread i hi e).mp he).1
    rw [runThreads_none hpos hperm hi hnone]
    exact iff_of_false nofun fun h => hnot (h.1 i hi)

end Schedule

end XWebQL.ZigThreads
