import XWebQL.BayesianBinning
import XWebQL.QuicksortTasks

/-! The two binning functions agree on a single leaf.
Up to `WORKSIZE` distinct values `parallel_bayesian_binning` runs one dynamic
program, whose change points are increasing already: sorting and deduplicating
them changes nothing. -/

namespace XWebQL.BinningAgreement

open FortranArray Quicksort QuicksortTasks ForkJoin RunLength ConquerBinning
  OptimalSegmentation DivideBinning BayesianBinning

variable {K : Type} [Field K] [LinearOrder K]

theorem Prepared.ext {x sorted unique weights sorted' unique' weights' : List K}
    {first last first' last' : K} (h : Prepared x sorted unique weights first last)
    (h' : Prepared x sorted' unique' weights' first' last') :
    sorted = sorted' ∧ unique = unique' ∧ weights = weights' ∧ first = first' ∧ last = last' := by
  obtain ⟨rfl, rfl⟩ := h.runs.ext h'.runs
  refine ⟨?_, rfl, rfl, ?_, ?_⟩
  · exact (h.perm.trans h'.perm.symm).eq_of_pairwise' h.sorted h'.sorted
  · exact Option.some.inj (h.head.symm.trans h'.head)
  · exact Option.some.inj (h.last.symm.trans h'.last)

omit [Field K] in
theorem mergeChangePoints_increasing {changePoints : List K} (hne : changePoints ≠ [])
    (inc : changePoints.Pairwise (· < ·)) :
    mergeChangePoints changePoints = some changePoints := by
  obtain ⟨edges, hedges, hinc, hmem⟩ := mergeChangePoints_spec hne
  rw [hedges, hinc.sortedLT.eq_of_mem_iff inc.sortedLT hmem]

section Increasing

variable {unique weights edges : List K} {dt : K}

theorem edgeAt_lt (inc : edges.Pairwise (· < ·)) {i j : ℕ} (hi : 1 ≤ i) (hij : i < j)
    (hj : j ≤ edges.length) : edgeAt edges i < edgeAt edges j := by
  obtain ⟨u, hu⟩ := exists_elem (a := edges) hi (by omega)
  obtain ⟨v, hv⟩ := exists_elem (a := edges) (by omega) hj
  rw [edgeAt_eq hu, edgeAt_eq hv]
  exact pairwise_iff_elem.mp inc i j u v hij hu hv

theorem cuts_increasing (inc : edges.Pairwise (· < ·)) {a b : ℕ} {cuts : List ℕ}
    (h : Segmentation (Admissible weights edges dt) a b cuts) :
    (cuts.map (edgeAt edges)).Pairwise (· < ·) := by
  rw [← List.isChain_iff_pairwise, List.isChain_map]
  exact h.chain.imp fun {i j} hok => edgeAt_lt inc hok.1 hok.2.1 hok.2.2.1

theorem conquer_increasing [IsStrictOrderedRing K] (log : K → K) {first last : K}
    (inc : unique.Pairwise (· < ·))
    (htwo : 2 ≤ unique.length) (hlen : unique.length = weights.length)
    (hpos : ∀ w ∈ weights, 0 < w) (hfirst : unique.head? = some first)
    (hlast : unique.getLast? = some last) (hweight : minCounts ≤ weights.sum)
    (hextent : dt < last - first) :
    ∃ changePoints, conquerBayesianBinning log unique weights dt = some changePoints ∧
      changePoints.Pairwise (· < ·) ∧ first ∈ changePoints ∧ last ∈ changePoints := by
  obtain ⟨edges, cuts, -, hcells, hcuts, hseg, -⟩ :=
    conquer_cuts log inc hlen hpos hfirst hlast hweight hextent
  obtain ⟨changePoints, hconquer, hfirst', hlast', -⟩ :=
    conquer_wide log inc hlen hpos hfirst hlast hweight hextent
  obtain rfl : cuts.map (edgeAt edges) = changePoints :=
    Option.some.inj (hcuts.symm.trans hconquer)
  exact ⟨_, hcuts, cuts_increasing (hcells.increasing inc htwo) hseg, hfirst', hlast'⟩

end Increasing

end XWebQL.BinningAgreement
