import XWebQL.ConquerBinning

/-! What the dynamic program reads off its arrays.
The run-length step lists the distinct values with their multiplicities, and
differences of the cumulative cell weights count the events of a range of
values. -/

namespace XWebQL.DistinctCounts

open FortranArray Quicksort RunLength CountBetweenEdges ConquerBinning

variable {K : Type} [Field K] [LinearOrder K]

/-- The slice `unique(i:q)`. -/
def slice (unique : List K) (i q : ℕ) : List K := (unique.drop (i - 1)).take (q + 1 - i)

theorem blockWeight_slice {x unique weights : List K} (h : Runs x unique weights)
    (i q : ℕ) : blockWeight weights i (q + 1) = (x.countP fun v => v ∈ slice unique i q : K) := by
  have hsub : (slice unique i q).Sublist unique :=
    (List.take_sublist _ _).trans (List.drop_sublist _ _)
  have hperm : (unique.filter fun v => v ∈ slice unique i q).Perm (slice unique i q) :=
    (List.perm_ext_iff_of_nodup (h.nodup.filter _) (h.nodup.sublist hsub)).mpr fun v => by
      simpa using fun hv => hsub.subset hv
  have hslice : (weights.drop (i - 1)).take (q + 1 - i) =
      (slice unique i q).map fun v => (x.count v : K) := by
    rw [h.weights_eq, slice, List.map_take, List.map_drop]
  rw [blockWeight, hslice, ← h.sum_filter]
  exact ((hperm.map _).sum_eq).symm

theorem whInEdge_sub {x unique weights edges : List K} [IsStrictOrderedRing K]
    (h : Runs x unique weights) (hcells : CellEdges unique edges) (hne : unique ≠ []) :
    ∃ whInEdge, (countBetweenEdges unique edges weights 1).map cumsum = some whInEdge ∧
      ∀ i q, 1 ≤ i → i ≤ q → q ≤ unique.length →
        ∃ left right, elem whInEdge i = some left ∧ elem whInEdge (q + 1) = some right ∧
          right - left = (x.countP fun v => v ∈ slice unique i q : K) := by
  have hlen := h.length_eq
  refine ⟨cumsum (0 :: weights), by
    rw [CellEdges.weights_in_cells hcells h.increasing hne hlen.symm, Option.map_some], ?_⟩
  intro i q hi hiq hq
  refine ⟨_, _, elem_whInEdge weights i hi (by omega),
    elem_whInEdge weights (q + 1) (by omega) (by omega), ?_⟩
  rw [← blockWeight_eq weights hi (by omega), blockWeight_slice h]

/-- The run-length step of both binning functions: the distinct values in
increasing order, their multiplicities, and cell weights whose running sums
count the events of every range of distinct values. -/
theorem partition_counts [IsStrictOrderedRing K] (leftFirst : List Bool → Bool) (x : List K)
    (hne : x ≠ []) :
    ∃ sorted unique weights edges, partition x = some (sorted, unique, weights, edges) ∧
      (quicksortOmp leftFirst x 1 x.length).bind runLength = some (unique, weights) ∧
      unique.Pairwise (· < ·) ∧ (∀ v, v ∈ unique ↔ v ∈ x) ∧
      weights = unique.map (fun v => (x.count v : K)) ∧
      ∃ whInEdge, (countBetweenEdges unique edges weights 1).map cumsum = some whInEdge ∧
        ∀ i q, 1 ≤ i → i ≤ q → q ≤ unique.length →
          ∃ left right, elem whInEdge i = some left ∧ elem whInEdge (q + 1) = some right ∧
            right - left = (x.countP fun v => v ∈ slice unique i q : K) := by
  have hlen := List.length_pos_iff.mpr hne
  have hnonempty : ∀ {sorted : List K}, sorted.Perm x → sorted ≠ [] := by
    rintro sorted hperm rfl
    exact hne hperm.nil_eq.symm
  obtain ⟨sorted, hsort, hperm, hsorted⟩ :=
    (quicksort_sorts x.length 1 x.length le_rfl hlen le_rfl).whole x rfl
  obtain ⟨unique, weights, hrun, hruns⟩ := runLength_spec (hnonempty hperm) hsorted
  have hunique : unique ≠ [] := by
    rintro rfl
    obtain ⟨v, hv⟩ := List.exists_mem_of_ne_nil sorted (hnonempty hperm)
    exact List.not_mem_nil ((hruns.mem v).mpr hv)
  obtain ⟨edges, hedges, hcells⟩ := cellEdges_spec hunique
  obtain ⟨sorted', hsort', hperm', hsorted'⟩ :=
    (quicksortOmp_sorts leftFirst x.length 1 x.length le_rfl hlen le_rfl).whole x rfl
  -- a sorted permutation of `x` is unique, so the order of the tasks is not seen
  obtain rfl : sorted' = sorted :=
    (hperm'.trans hperm.symm).eq_of_pairwise' hsorted' hsorted
  have h := hruns.perm hperm
  obtain ⟨whInEdge, hwh, hsub⟩ := whInEdge_sub h hcells hunique
  refine ⟨sorted', unique, weights, edges, ?_, ?_, h.increasing, h.mem, h.weights_eq,
    whInEdge, hwh, hsub⟩
  · simp only [partition, hsort, hrun, hedges, Option.bind_eq_bind, Option.bind_some]
  · rw [hsort', Option.bind_some, hrun]

/-- Three events with two distinct values. -/
theorem partition_counts_three_events :
    ∃ sorted unique weights edges,
      partition [(1 : ℚ), 0, 1] = some (sorted, unique, weights, edges) ∧
      (quicksortOmp (fun _ => true) [(1 : ℚ), 0, 1] 1 3).bind runLength =
        some (unique, weights) ∧
      unique.Pairwise (· < ·) ∧ (∀ v, v ∈ unique ↔ v ∈ [(1 : ℚ), 0, 1]) ∧
      weights = unique.map (fun v => ([(1 : ℚ), 0, 1].count v : ℚ)) ∧
      ∃ whInEdge, (countBetweenEdges unique edges weights 1).map cumsum = some whInEdge ∧
        ∀ i q, 1 ≤ i → i ≤ q → q ≤ unique.length →
          ∃ left right, elem whInEdge i = some left ∧ elem whInEdge (q + 1) = some right ∧
            right - left = ([(1 : ℚ), 0, 1].countP fun v => v ∈ slice unique i q : ℚ) :=
  partition_counts (fun _ => true) [1, 0, 1] (by simp)

end XWebQL.DistinctCounts
