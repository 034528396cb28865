import XWebQL.SxsColumns
import XWebQL.ZigColumns
import XWebQL.ZigEvents

/-! When `read_sxs_events` and `read_events` return the same.
Each returns arrays for the files that it admits, with what stands where it looks
for the columns. -/

namespace XWebQL.ReaderAgreement

open FitsTable ZigReader
open ZigEvents (Agree Reads)
open SxsEvents (NoEmptyColumn RowsInRange NonnegativePi)

variable {f : EventFile} {cpu_count : ℕ} {schedule : List (ℕ × ℕ) → List (ℕ × ℕ)}

/-- The same events come from both readers, or no arrays from either. -/
theorem agree_iff (hperm : ∀ l, (schedule l).Perm l) :
    Agree cpu_count schedule f ↔
      (SxsColumns.Admitted f ∧ ZigColumns.Admitted f ∧
        ∀ i < f.rows.length, SxsColumns.eventAt f i = ZigColumns.eventAt f i) ∨
      ¬ SxsColumns.Admitted f ∧ ¬ ZigColumns.Admitted f := by
  have hread : ∀ {n events}, readEvents cpu_count schedule f.bytes = some ⟨n, events⟩ ↔
      ZigColumns.Admitted f ∧ n = f.rows.length ∧
        events = (List.range f.rows.length).map (ZigColumns.eventAt f) := by
    intro n events
    rw [ZigColumns.arrays_iff hperm, XEvents.mk.injEq]
  have hevents : (List.range f.rows.length).map (SxsColumns.eventAt f) =
        (List.range f.rows.length).map (ZigColumns.eventAt f) ↔
      ∀ i < f.rows.length, SxsColumns.eventAt f i = ZigColumns.eventAt f i := by
    rw [List.map_inj_left]
    exact forall_congr' fun i => by rw [List.mem_range]
  simp only [Agree, SxsColumns.arrays_iff, hread]
  constructor
  · intro h
    by_cases hsxs : SxsColumns.Admitted f
    · obtain ⟨hzig, -, heq⟩ := (h _ _).mp ⟨hsxs, rfl, rfl⟩
      exact .inl ⟨hsxs, hzig, hevents.mp heq⟩
    · exact .inr ⟨hsxs, fun hzig => hsxs ((h _ _).mpr ⟨hzig, rfl, rfl⟩).1⟩
  · intro h n events
    rcases h with ⟨hsxs, hzig, heq⟩ | ⟨hsxs, hzig⟩
    · rw [and_iff_right hsxs, and_iff_right hzig, hevents.mpr heq]
    · exact iff_of_false (fun h => hsxs h.1) fun h => hzig h.1

end XWebQL.ReaderAgreement
