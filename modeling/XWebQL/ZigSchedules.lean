import Mathlib.Algebra.BigOperators.Ring.List
import Mathlib.Algebra.Order.BigOperators.Group.List
import Mathlib.Data.List.Nodup
import XWebQL.Transition
import XWebQL.ZigThreads

/-! The threads of `read_events`, one write at a time.
The main thread cuts the rows into ranges and starts a thread for each one while
the earlier threads already run; every thread writes the three columns of a row
one after the other. A value that any thread writes for a row is the value of
that row, so the invariant only says what has been written so far. Every order
of the steps ends in the arrays of one pass over all rows. -/

namespace XWebQL.ZigSchedules

open ZigReader Transition
open ZigThreads (rowOf map_rowOf_rounds)
open SingleFloat (toSingle)

inductive Column
  | x | y | pi
deriving DecidableEq

abbrev Arrays := Column → List (Option ℤ)

/-- The parameters of `read_events_threaded` that all threads share. -/
structure Layout where
  x_offset : ℕ
  y_offset : ℕ
  pi_offset : ℕ
  pi_size : ℤ
  stride : ℕ

/-- The value of one column of the row that begins at `offset`. -/
def readColumn (l : Layout) (data : List UInt8) (offset : ℕ) : Column → Option ℤ
  | .x => readInt data (offset + l.x_offset) 2
  | .y => readInt data (offset + l.y_offset) 2
  | .pi =>
    if l.pi_size = 2 then (readInt data (offset + l.pi_offset) 2).map toSingle
    else if l.pi_size = 4 then (readInt data (offset + l.pi_offset) 4).map toSingle
    else some 0

/-- `column[index] = v` -/
def write (arrays : Arrays) (column : Column) (index : ℕ) (v : ℤ) : Option Arrays :=
  if index < (arrays column).length then
    some (Function.update arrays column ((arrays column).set index (some v)))
  else none

/-- The loop of `read_events_threaded`; `x`, `y` and `pi` are the arrays from `base` on. -/
def readEventsThreaded (l : Layout) (data : List UInt8) (base : ℕ) :
    ℕ → ℕ → ℕ → Arrays → Option Arrays
  | 0, _, _, arrays => some arrays
  | rounds + 1, i, offset, arrays => do
    let x ← readColumn l data offset .x
    let arrays ← write arrays .x (base + i) x
    let y ← readColumn l data offset .y
    let arrays ← write arrays .y (base + i) y
    let pi ← readColumn l data offset .pi
    let arrays ← write arrays .pi (base + i) pi
    readEventsThreaded l data base rounds (i + 1) (offset + l.stride) arrays

def undefinedArrays (naxis2 : ℕ) : Arrays := fun _ => List.replicate naxis2 none

def sequentialPass (l : Layout) (data : List UInt8) (naxis2 : ℕ) : Option Arrays :=
  readEventsThreaded l data 0 naxis2 0 0 (undefinedArrays naxis2)

/-- A running `read_events_threaded`; `column` is the next one to be written in round `i`. -/
structure Thread where
  data : List UInt8
  base : ℕ
  size : ℕ
  i : ℕ
  offset : ℕ
  column : Column

namespace Thread

def store (l : Layout) (t : Thread) (arrays : Arrays) : Option Arrays := do
  let v ← readColumn l t.data t.offset t.column
  write arrays t.column (t.base + t.i) v

def advance (stride : ℕ) (t : Thread) : Thread :=
  match t.column with
  | .x => { t with column := .y }
  | .y => { t with column := .pi }
  | .pi => { t with column := .x, i := t.i + 1, offset := t.offset + stride }

end Thread

/-- The main thread has started the threads `0..next-1`. -/
structure State where
  next : ℕ
  threads : List Thread
  arrays : Arrays

inductive Action
  | spawn
  | run (t : ℕ)

/-- The slices that the main thread hands to thread `s.next`. -/
def spawn (l : Layout) (data : List UInt8) (num_threads naxis2 : ℕ) (s : State) :
    Option State := do
  let offset := (threadRows num_threads naxis2 s.next).1
  let size := (threadRows num_threads naxis2 s.next).2
  if naxis2 < offset then none
  else do
    let part ← slice data (offset * l.stride) data.length
    if offset ≤ (s.arrays .x).length ∧ offset ≤ (s.arrays .y).length ∧
        offset ≤ (s.arrays .pi).length then
      some { s with
        next := s.next + 1
        threads := s.threads ++ [⟨part, offset, size, 0, 0, .x⟩] }
    else none

def run (l : Layout) (s : State) (t : ℕ) (thread : Thread) : Option State := do
  let arrays ← thread.store l s.arrays
  some { s with
    threads := s.threads.set t (thread.advance l.stride)
    arrays := arrays }

def step (l : Layout) (data : List UInt8) (num_threads naxis2 : ℕ) (s : State) :
    Action → Option State
  | .spawn => if s.next < num_threads then spawn l data num_threads naxis2 s else none
  | .run t => do
    let thread ← s.threads[t]?
    if thread.i < thread.size then run l s t thread else none

def readEvents (l : Layout) (data : List UInt8) (num_threads naxis2 : ℕ) : System State Action where
  init := ⟨0, [], undefinedArrays naxis2⟩
  step := step l data num_threads naxis2

def Joined (num_threads : ℕ) (s : State) : Prop :=
  s.next = num_threads ∧ ∀ thread ∈ s.threads, ¬thread.i < thread.size

/-! The ranges of the threads. -/

section Ranges

variable {num_threads naxis2 : ℕ}

/-- The range of thread `i`. -/
def InRange (num_threads naxis2 i row : ℕ) : Prop :=
  (threadRows num_threads naxis2 i).1 ≤ row ∧
    row < (threadRows num_threads naxis2 i).1 + (threadRows num_threads naxis2 i).2

theorem mem_rounds {i j : ℕ} :
    (i, j) ∈ rounds num_threads naxis2 ↔
      i < num_threads ∧ j < (threadRows num_threads naxis2 i).2 := by
  simp only [rounds, List.mem_flatMap, List.mem_map, List.mem_range, Prod.mk.injEq]
  constructor
  · rintro ⟨a, ha, b, hb, rfl, rfl⟩
    exact ⟨ha, hb⟩
  · rintro ⟨hi, hj⟩
    exact ⟨i, hi, j, hj, rfl, rfl⟩

theorem inRange_iff {i row : ℕ} (hi : i < num_threads) :
    InRange num_threads naxis2 i row ↔
      ∃ j, (i, j) ∈ rounds num_threads naxis2 ∧ rowOf num_threads naxis2 (i, j) = row := by
  constructor
  · rintro ⟨hle, hlt⟩
    refine ⟨row - (threadRows num_threads naxis2 i).1, mem_rounds.mpr ⟨hi, by omega⟩, ?_⟩
    exact Nat.add_sub_cancel' hle
  · rintro ⟨j, hj, rfl⟩
    have hlt := (mem_rounds.mp hj).2
    exact ⟨Nat.le_add_right _ _, Nat.add_lt_add_left hlt _⟩

theorem exists_range (hpos : 0 < num_threads) (row : ℕ) :
    (∃ i < num_threads, InRange num_threads naxis2 i row) ↔ row < naxis2 := by
  rw [← List.mem_range, ← map_rowOf_rounds hpos naxis2, List.mem_map]
  constructor
  · rintro ⟨i, hi, hrow⟩
    obtain ⟨j, hj, hrow⟩ := (inRange_iff hi).mp hrow
    exact ⟨(i, j), hj, hrow⟩
  · rintro ⟨⟨i, j⟩, hj, hrow⟩
    have hi := (mem_rounds.mp hj).1
    exact ⟨i, hi, (inRange_iff hi).mpr ⟨j, hj, hrow⟩⟩

theorem threadRows_le {i : ℕ} (hi : i < num_threads) :
    (threadRows num_threads naxis2 i).1 ≤ naxis2 :=
  (Nat.mul_le_mul_right _ hi.le).trans (Nat.mul_div_le _ _)

theorem range_unique (hpos : 0 < num_threads) {i i' row : ℕ} (hi : i < num_threads)
    (hi' : i' < num_threads) (h : InRange num_threads naxis2 i row)
    (h' : InRange num_threads naxis2 i' row) : i = i' := by
  obtain ⟨j, hj, hrow⟩ := (inRange_iff hi).mp h
  obtain ⟨j', hj', hrow'⟩ := (inRange_iff hi').mp h'
  have hnodup : ((rounds num_threads naxis2).map (rowOf num_threads naxis2)).Nodup := by
    rw [map_rowOf_rounds hpos]
    exact List.nodup_range
  have heq := List.inj_on_of_nodup_map hnodup hj hj' (hrow.trans hrow'.symm)
  exact congrArg Prod.fst heq

end Ranges

/-! What is read. -/

structure Fits (l : Layout) (data : List UInt8) (naxis2 : ℕ) : Prop where
  length : data.length = naxis2 * l.stride
  x : l.x_offset + 2 ≤ l.stride
  y : l.y_offset + 2 ≤ l.stride
  pi : (l.pi_offset : ℤ) + l.pi_size ≤ l.stride

def value (l : Layout) (data : List UInt8) (row : ℕ) (column : Column) : ℤ :=
  (readColumn l data (row * l.stride) column).getD 0

section Reading

variable {l : Layout} {data : List UInt8} {naxis2 : ℕ}

theorem slice_drop {m : ℕ} (hm : m ≤ data.length) (first last : ℕ) :
    slice (data.drop m) first last = slice data (m + first) (m + last) := by
  have hrange : first ≤ last ∧ last ≤ (data.drop m).length ↔
      m + first ≤ m + last ∧ m + last ≤ data.length := by
    rw [List.length_drop]
    omega
  simp only [slice, hrange]
  rw [List.take_drop, List.drop_drop]

theorem readColumn_drop {m : ℕ} (hm : m ≤ data.length) (offset : ℕ) (column : Column) :
    readColumn l (data.drop m) offset column = readColumn l data (m + offset) column := by
  have hread (o w : ℕ) :
      readInt (data.drop m) (offset + o) w = readInt data (m + offset + o) w := by
    rw [readInt, readInt, slice_drop hm]
    simp only [Nat.add_assoc]
  cases column with
  | x => exact hread _ _
  | y => exact hread _ _
  | pi => simp only [readColumn, hread]

theorem readInt_isSome {offset width : ℕ} (h : offset + width ≤ data.length) :
    (readInt data offset width).isSome := by
  rw [readInt, slice, if_pos ⟨Nat.le_add_right _ _, h⟩]
  rfl

theorem readColumn_row (h : Fits l data naxis2) {row : ℕ} (hrow : row < naxis2) (column : Column) :
    readColumn l data (row * l.stride) column = some (value l data row column) := by
  have hend : row * l.stride + l.stride ≤ data.length := by
    rw [h.length, ← Nat.succ_mul]
    exact Nat.mul_le_mul_right _ hrow
  have hsome : (readColumn l data (row * l.stride) column).isSome := by
    have hx := h.x
    have hy := h.y
    have hpi := h.pi
    cases column with
    | x => exact readInt_isSome (by omega)
    | y => exact readInt_isSome (by omega)
    | pi =>
      rw [readColumn]
      split_ifs with htwo hfour
      · rw [Option.isSome_map]
        exact readInt_isSome (by omega)
      · rw [Option.isSome_map]
        exact readInt_isSome (by omega)
      · rfl
  obtain ⟨v, hv⟩ := Option.isSome_iff_exists.mp hsome
  rw [value, hv, Option.getD_some]

theorem readRow_value (h : Fits l data naxis2) {row : ℕ} (hrow : row < naxis2) :
    readRow data (row * l.stride) l.x_offset l.y_offset l.pi_offset l.pi_size =
      some ⟨value l data row .x, value l data row .y, value l data row .pi⟩ := by
  have hcolumns : readRow data (row * l.stride) l.x_offset l.y_offset l.pi_offset l.pi_size =
      (readColumn l data (row * l.stride) .x).bind fun x =>
        (readColumn l data (row * l.stride) .y).bind fun y =>
          (readColumn l data (row * l.stride) .pi).bind fun pi => some ⟨x, y, pi⟩ := by
    simp only [readRow, readColumn]
    split_ifs <;> rfl
  rw [hcolumns, readColumn_row h hrow, readColumn_row h hrow, readColumn_row h hrow]
  rfl

end Reading

/-! What has been written. -/

def Written (l : Layout) (data : List UInt8) (arrays : Arrays) (row : ℕ) (column : Column) : Prop :=
  (arrays column)[row]? = some (some (value l data row column))

def fullArrays (l : Layout) (data : List UInt8) (naxis2 : ℕ) : Arrays :=
  fun column => (List.range naxis2).map fun row => some (value l data row column)

section Writing

variable {l : Layout} {data : List UInt8} {naxis2 : ℕ} {arrays arrays' : Arrays}

theorem eq_fullArrays (hlength : ∀ column, (arrays column).length = naxis2)
    (h : ∀ row < naxis2, ∀ column, Written l data arrays row column) :
    arrays = fullArrays l data naxis2 := by
  funext column
  refine List.ext_getElem? fun row => ?_
  rw [fullArrays, List.getElem?_map]
  by_cases hrow : row < naxis2
  · rw [List.getElem?_range hrow, h row hrow column, Option.map_some]
  · rw [List.getElem?_eq_none (by rw [hlength]; omega), List.getElem?_eq_none (by simpa using hrow),
      Option.map_none]

variable (l data) in
theorem write_value (hlength : ∀ column, (arrays column).length = naxis2) {row : ℕ}
    (hrow : row < naxis2) (column : Column) :
    ∃ arrays', write arrays column row (value l data row column) = some arrays' ∧
      (∀ c, (arrays' c).length = naxis2) ∧ Written l data arrays' row column ∧
      ∀ r c, Written l data arrays r c → Written l data arrays' r c := by
  have hlt : row < (arrays column).length := by rwa [hlength]
  refine ⟨_, if_pos hlt, fun c => ?_, ?_, fun r c hw => ?_⟩
  · by_cases hc : c = column
    · rw [hc, Function.update_self, List.length_set, hlength]
    · rw [Function.update_of_ne hc, hlength]
  · rw [Written, Function.update_self, List.getElem?_set_self hlt]
  · by_cases hc : c = column
    · subst hc
      by_cases hr : r = row
      · rw [hr, Written, Function.update_self, List.getElem?_set_self hlt]
      · rw [Written, Function.update_self, List.getElem?_set_ne (Ne.symm hr)]
        exact hw
    · rw [Written, Function.update_of_ne hc]
      exact hw

theorem readEventsThreaded_value (hfits : Fits l data naxis2)
    (hlength : ∀ column, (arrays column).length = naxis2) {rounds i : ℕ}
    (hrows : i + rounds ≤ naxis2) :
    ∃ arrays', readEventsThreaded l data 0 rounds i (i * l.stride) arrays = some arrays' ∧
      (∀ column, (arrays' column).length = naxis2) ∧
      (∀ row, i ≤ row → row < i + rounds → ∀ column, Written l data arrays' row column) ∧
      ∀ row column, Written l data arrays row column → Written l data arrays' row column := by
  induction rounds generalizing i arrays with
  | zero => exact ⟨arrays, rfl, hlength, by intros; omega, fun _ _ h => h⟩
  | succ rounds ih =>
    have hi : i < naxis2 := by omega
    obtain ⟨ax, hx, hlx, hwx, hkx⟩ := write_value l data hlength hi .x
    obtain ⟨ay, hy, hly, hwy, hky⟩ := write_value l data hlx hi .y
    obtain ⟨ap, hp, hlp, hwp, hkp⟩ := write_value l data hly hi .pi
    obtain ⟨arrays', hrest, hlength', hwritten, hkeep⟩ := ih hlp (i := i + 1) (by omega)
    refine ⟨arrays', ?_, hlength', ?_, fun row column h => ?_⟩
    · rw [Nat.succ_mul] at hrest
      simp only [readEventsThreaded, readColumn_row hfits hi, zero_add, hx, hy, hp, hrest,
        Option.bind_eq_bind, Option.bind_some]
    · intro row hlow hhigh column
      rcases Nat.eq_or_lt_of_le hlow with rfl | hlt
      · refine hkeep _ _ ?_
        cases column with
        | x => exact hkp _ _ (hky _ _ hwx)
        | y => exact hkp _ _ hwy
        | pi => exact hwp
      · exact hwritten row hlt (by omega) column
    · exact hkeep _ _ (hkp _ _ (hky _ _ (hkx _ _ h)))

theorem sequentialPass_eq (hfits : Fits l data naxis2) :
    sequentialPass l data naxis2 = some (fullArrays l data naxis2) := by
  have hundefined : ∀ column, (undefinedArrays naxis2 column).length = naxis2 :=
    fun _ => List.length_replicate
  have hrows : 0 + naxis2 ≤ naxis2 := (Nat.zero_add naxis2).le
  obtain ⟨arrays, hpass, hlength, hwritten, -⟩ := readEventsThreaded_value hfits hundefined hrows
  rw [Nat.zero_mul] at hpass
  have hall : ∀ row < naxis2, ∀ column, Written l data arrays row column :=
    fun row hrow => hwritten row (Nat.zero_le _) (by omega)
  rw [sequentialPass, hpass, eq_fullArrays hlength hall]

end Writing

/-! The invariant of a run. -/

namespace Column

def index : Column → ℕ
  | .x => 0
  | .y => 1
  | .pi => 2

end Column

/-- Thread `t` works on its range; in round `i` it has written the columns before `column`. -/
structure Thread.Ok (l : Layout) (data : List UInt8) (num_threads naxis2 t : ℕ)
    (thread : Thread) : Prop where
  base : thread.base = (threadRows num_threads naxis2 t).1
  size : thread.size = (threadRows num_threads naxis2 t).2
  data : thread.data = data.drop (thread.base * l.stride)
  offset : thread.offset = thread.i * l.stride
  within : thread.i ≤ thread.size
  started : thread.column ≠ .x → thread.i < thread.size

def Thread.Stored (thread : Thread) (i : ℕ) (column : Column) : Prop :=
  i < thread.i ∨ i = thread.i ∧ column.index < thread.column.index

structure Inv (l : Layout) (data : List UInt8) (num_threads naxis2 : ℕ) (s : State) : Prop where
  next_le : s.next ≤ num_threads
  spawned : s.threads.length = s.next
  ok : ∀ (t : ℕ) (thread : Thread), s.threads[t]? = some thread →
    thread.Ok l data num_threads naxis2 t
  length : ∀ column, (s.arrays column).length = naxis2
  stored : ∀ (t : ℕ) (thread : Thread), s.threads[t]? = some thread →
    ∀ i column, thread.Stored i column → Written l data s.arrays (thread.base + i) column

theorem getElem?_concat_cases {β : Type} {as : List β} {a b : β} {j : ℕ}
    (h : (as ++ [a])[j]? = some b) : as[j]? = some b ∨ j = as.length ∧ b = a := by
  rcases Nat.lt_trichotomy j as.length with hlt | rfl | hgt
  · rw [List.getElem?_append_left hlt] at h
    exact .inl h
  · rw [List.getElem?_concat_length] at h
    exact .inr ⟨rfl, (Option.some.inj h).symm⟩
  · rw [List.getElem?_eq_none (by rw [List.length_append, List.length_singleton]; omega)] at h
    nomatch h

section Steps

variable {l : Layout} {data : List UInt8} {num_threads naxis2 t : ℕ} {s : State} {thread : Thread}

theorem Thread.Ok.row_lt (h : thread.Ok l data num_threads naxis2 t) (ht : t < num_threads)
    (hi : thread.i < thread.size) : thread.base + thread.i < naxis2 := by
  refine (exists_range (Nat.zero_lt_of_lt ht) _).mp ⟨t, ht, ?_⟩
  rw [InRange, ← h.base, ← h.size]
  omega

theorem Thread.Ok.store (h : thread.Ok l data num_threads naxis2 t) (hfits : Fits l data naxis2)
    (hrow : thread.base + thread.i < naxis2) {arrays : Arrays}
    (hlength : ∀ column, (arrays column).length = naxis2) :
    ∃ arrays', thread.store l arrays = some arrays' ∧
      (∀ column, (arrays' column).length = naxis2) ∧
      Written l data arrays' (thread.base + thread.i) thread.column ∧
      ∀ row column, Written l data arrays row column → Written l data arrays' row column := by
  obtain ⟨arrays', hwrite, hrest⟩ := write_value l data hlength hrow thread.column
  have hbase : thread.base * l.stride ≤ data.length := by
    rw [hfits.length]
    exact Nat.mul_le_mul_right _ (by omega)
  have hread : readColumn l thread.data thread.offset thread.column =
      some (value l data (thread.base + thread.i) thread.column) := by
    rw [h.data, h.offset, readColumn_drop hbase, ← Nat.add_mul, readColumn_row hfits hrow]
  refine ⟨arrays', ?_, hrest⟩
  rw [Thread.store, hread]
  exact hwrite

theorem Thread.Ok.advance (h : thread.Ok l data num_threads naxis2 t)
    (hi : thread.i < thread.size) : (thread.advance l.stride).Ok l data num_threads naxis2 t := by
  obtain ⟨hbase, hsize, hdata, hoffset, hwithin, hstarted⟩ := h
  rw [Thread.advance]
  cases thread.column with
  | x => exact ⟨hbase, hsize, hdata, hoffset, hwithin, fun _ => hi⟩
  | y => exact ⟨hbase, hsize, hdata, hoffset, hwithin, fun _ => hi⟩
  | pi =>
    refine ⟨hbase, hsize, hdata, ?_, hi, fun hne => absurd rfl hne⟩
    rw [hoffset]
    exact (Nat.succ_mul _ _).symm

theorem Thread.advance_base (stride : ℕ) (thread : Thread) :
    (thread.advance stride).base = thread.base := by
  rw [Thread.advance]
  cases thread.column <;> rfl

theorem Thread.stored_advance {stride i : ℕ} {column : Column}
    (h : (thread.advance stride).Stored i column) :
    thread.Stored i column ∨ i = thread.i ∧ column = thread.column := by
  rcases thread with ⟨_, _, _, j, _, current⟩
  rw [Thread.Stored, Thread.advance] at h
  rw [Thread.Stored]
  cases current <;> cases column <;>
    simp only [Column.index, reduceCtorEq, and_true, and_false, or_false] at h ⊢ <;> omega

theorem Inv.thread_lt (h : Inv l data num_threads naxis2 s) (ht : s.threads[t]? = some thread) :
    t < num_threads := by
  have hlt := (List.getElem?_eq_some_iff.mp ht).1
  rw [h.spawned] at hlt
  exact hlt.trans_le h.next_le

theorem inv_run (h : Inv l data num_threads naxis2 s) (hfits : Fits l data naxis2)
    (ht : s.threads[t]? = some thread) (hi : thread.i < thread.size) :
    ∃ s', run l s t thread = some s' ∧ Inv l data num_threads naxis2 s' := by
  have hok := h.ok t thread ht
  have hrow := hok.row_lt (h.thread_lt ht) hi
  obtain ⟨arrays', hstore, hlength, hwritten, hkeep⟩ := hok.store hfits hrow h.length
  refine ⟨⟨s.next, s.threads.set t (thread.advance l.stride), arrays'⟩, by rw [run, hstore]; rfl,
    h.next_le, ?_, ?_, hlength, ?_⟩
  · rw [List.length_set, h.spawned]
  · intro t' thread' ht'
    rcases getElem?_set_cases ht' with ⟨rfl, rfl⟩ | ⟨-, hother⟩
    · exact hok.advance hi
    · exact h.ok t' thread' hother
  · intro t' thread' ht' i column hstored
    rcases getElem?_set_cases ht' with ⟨rfl, rfl⟩ | ⟨-, hother⟩
    · rw [Thread.advance_base]
      rcases Thread.stored_advance hstored with hbefore | ⟨rfl, rfl⟩
      · exact hkeep _ _ (h.stored t' thread ht i column hbefore)
      · exact hwritten
    · exact hkeep _ _ (h.stored t' thread' hother i column hstored)

/-- Thread `t` before its first write. -/
def Thread.fresh (l : Layout) (data : List UInt8) (num_threads naxis2 t : ℕ) : Thread where
  data := data.drop ((threadRows num_threads naxis2 t).1 * l.stride)
  base := (threadRows num_threads naxis2 t).1
  size := (threadRows num_threads naxis2 t).2
  i := 0
  offset := 0
  column := .x

theorem Thread.ok_fresh (l : Layout) (data : List UInt8) (num_threads naxis2 t : ℕ) :
    (Thread.fresh l data num_threads naxis2 t).Ok l data num_threads naxis2 t where
  base := rfl
  size := rfl
  data := rfl
  offset := (Nat.zero_mul _).symm
  within := Nat.zero_le _
  started := fun hne => absurd rfl hne

theorem Thread.not_stored_fresh (i : ℕ) (column : Column) :
    ¬(Thread.fresh l data num_threads naxis2 t).Stored i column := by
  rintro (hlt | ⟨-, hlt⟩)
  · exact Nat.not_lt_zero _ hlt
  · exact Nat.not_lt_zero _ hlt

theorem Inv.spawn (h : Inv l data num_threads naxis2 s) (hfits : Fits l data naxis2)
    (hnext : s.next < num_threads) :
    spawn l data num_threads naxis2 s = some { s with
      next := s.next + 1
      threads := s.threads ++ [Thread.fresh l data num_threads naxis2 s.next] } := by
  have hbase : (threadRows num_threads naxis2 s.next).1 ≤ naxis2 := threadRows_le hnext
  have hdata : (threadRows num_threads naxis2 s.next).1 * l.stride ≤ data.length := by
    rw [hfits.length]
    exact Nat.mul_le_mul_right _ hbase
  have hslice : slice data ((threadRows num_threads naxis2 s.next).1 * l.stride) data.length =
      some (data.drop ((threadRows num_threads naxis2 s.next).1 * l.stride)) := by
    rw [slice, if_pos ⟨hdata, le_rfl⟩, List.take_length]
  rw [ZigSchedules.spawn, if_neg (Nat.not_lt.mpr hbase), hslice, h.length, h.length, h.length]
  exact if_pos ⟨hbase, hbase, hbase⟩

theorem inv_spawn (h : Inv l data num_threads naxis2 s) (hnext : s.next < num_threads) :
    Inv l data num_threads naxis2 { s with
      next := s.next + 1
      threads := s.threads ++ [Thread.fresh l data num_threads naxis2 s.next] } := by
  refine ⟨hnext, ?_, ?_, h.length, ?_⟩
  · rw [List.length_append, h.spawned, List.length_singleton]
  · intro t thread ht
    rcases getElem?_concat_cases ht with hold | ⟨rfl, rfl⟩
    · exact h.ok t thread hold
    · rw [h.spawned]
      exact Thread.ok_fresh _ _ _ _ _
  · intro t thread ht i column hstored
    rcases getElem?_concat_cases ht with hold | ⟨-, rfl⟩
    · exact h.stored t thread hold i column hstored
    · exact absurd hstored (Thread.not_stored_fresh i column)

variable (l data num_threads naxis2) in
theorem inv_init : Inv l data num_threads naxis2 (readEvents l data num_threads naxis2).init where
  next_le := Nat.zero_le _
  spawned := rfl
  ok := fun _ _ ht => nomatch ht
  length := fun _ => List.length_replicate
  stored := fun _ _ ht => nomatch ht

theorem step_cases {a : Action} {s' : State}
    (h : (readEvents l data num_threads naxis2).step s a = some s') :
    (a = .spawn ∧ s.next < num_threads ∧ spawn l data num_threads naxis2 s = some s') ∨
      ∃ t thread, a = .run t ∧ s.threads[t]? = some thread ∧ thread.i < thread.size ∧
        run l s t thread = some s' := by
  cases a with
  | spawn => exact .inl ⟨rfl, Option.ite_none_right_eq_some.mp h⟩
  | run t =>
    obtain ⟨thread, ht, h⟩ := Option.bind_eq_some_iff.mp h
    exact .inr ⟨t, thread, rfl, ht, Option.ite_none_right_eq_some.mp h⟩

theorem inv_step (hfits : Fits l data naxis2) {a : Action} {s' : State}
    (h : Inv l data num_threads naxis2 s)
    (hstep : (readEvents l data num_threads naxis2).step s a = some s') :
    Inv l data num_threads naxis2 s' := by
  obtain ⟨-, hnext, hspawn⟩ | ⟨t, thread, -, ht, hi, hrun⟩ := step_cases hstep
  · rw [h.spawn hfits hnext, Option.some_inj] at hspawn
    subst hspawn
    exact inv_spawn h hnext
  · obtain ⟨s'', hrun', hinv⟩ := inv_run h hfits ht hi
    rw [hrun, Option.some_inj] at hrun'
    rwa [hrun']

theorem reachable_inv (hfits : Fits l data naxis2)
    (hs : Reachable (readEvents l data num_threads naxis2) s) :
    Inv l data num_threads naxis2 s :=
  hs.invariant _ (inv_init l data num_threads naxis2) fun _ _ _ h _ hstep => inv_step hfits h hstep

theorem Inv.joined (h : Inv l data num_threads naxis2 s) (hpos : 0 < num_threads)
    (hjoined : Joined num_threads s) : s.arrays = fullArrays l data naxis2 := by
  refine eq_fullArrays h.length fun row hrow column => ?_
  obtain ⟨t, ht, hlow, hhigh⟩ := (exists_range hpos row).mpr hrow
  have hlt : t < s.threads.length := by rwa [h.spawned, hjoined.1]
  have hget : s.threads[t]? = some s.threads[t] := List.getElem?_eq_getElem hlt
  have hok := h.ok t _ hget
  have hended := hjoined.2 _ (List.getElem_mem hlt)
  have hwritten := h.stored t _ hget (row - s.threads[t].base) column
  rw [hok.base, Nat.add_sub_cancel' hlow] at hwritten
  refine hwritten (.inl ?_)
  have hsize := hok.size
  omega

end Steps

/-! How long a run takes. -/

section Work

def Thread.work (thread : Thread) : ℕ := 3 * thread.i + thread.column.index

def State.work (s : State) : ℕ := s.next + (s.threads.map Thread.work).sum

variable {l : Layout} {data : List UInt8} {num_threads naxis2 t : ℕ} {s : State} {thread : Thread}

theorem sum_map_set {β : Type} (f : β → ℕ) {as : List β} {i : ℕ} {a : β} (h : as[i]? = some a)
    (b : β) : ((as.set i b).map f).sum + f a = (as.map f).sum + f b := by
  induction as generalizing i with
  | nil => nomatch h
  | cons c as ih =>
    cases i with
    | zero =>
      obtain rfl := Option.some.inj h
      simp only [List.set_cons_zero, List.map_cons, List.sum_cons]
      omega
    | succ i =>
      have hrest := ih h
      simp only [List.set_cons_succ, List.map_cons, List.sum_cons]
      omega

theorem Thread.work_advance (stride : ℕ) (thread : Thread) :
    (thread.advance stride).work = thread.work + 1 := by
  rcases thread with ⟨_, _, _, i, _, column⟩
  cases column <;> rfl

theorem Thread.Ok.work_le (h : thread.Ok l data num_threads naxis2 t) :
    thread.work ≤ 3 * (threadRows num_threads naxis2 t).2 := by
  have hwithin := h.within
  have hstarted := h.started
  rw [← h.size, Thread.work]
  cases hcolumn : thread.column with
  | x => simp only [Column.index]; omega
  | y =>
    have hlt := hstarted (by rw [hcolumn]; exact Column.noConfusion)
    simp only [Column.index]
    omega
  | pi =>
    have hlt := hstarted (by rw [hcolumn]; exact Column.noConfusion)
    simp only [Column.index]
    omega

theorem sum_sizes (hpos : 0 < num_threads) (naxis2 : ℕ) :
    ((List.range num_threads).map fun t => (threadRows num_threads naxis2 t).2).sum = naxis2 := by
  have hlength := congrArg List.length (map_rowOf_rounds hpos naxis2)
  rw [List.length_map, List.length_range, rounds, List.length_flatMap] at hlength
  simpa only [List.length_map, List.length_range] using hlength

theorem Inv.work_le (h : Inv l data num_threads naxis2 s) (hpos : 0 < num_threads) :
    s.work ≤ num_threads + 3 * naxis2 := by
  have hall : List.Forall₂ (· ≤ ·) (s.threads.map Thread.work)
      ((List.range s.next).map fun t => 3 * (threadRows num_threads naxis2 t).2) := by
    rw [List.forall₂_iff_get]
    refine ⟨by simp only [List.length_map, List.length_range, h.spawned], fun t ht ht' => ?_⟩
    rw [List.length_map] at ht
    have hok := h.ok t _ (List.getElem?_eq_getElem ht)
    simpa only [List.get_eq_getElem, List.getElem_map, List.getElem_range] using hok.work_le
  have hprefix : ((List.range s.next).map fun t => 3 * (threadRows num_threads naxis2 t).2).Sublist
      ((List.range num_threads).map fun t => 3 * (threadRows num_threads naxis2 t).2) :=
    (List.range_sublist.mpr h.next_le).map _
  have hsum : (s.threads.map Thread.work).sum ≤ 3 * naxis2 := calc
    (s.threads.map Thread.work).sum
      ≤ ((List.range s.next).map fun t => 3 * (threadRows num_threads naxis2 t).2).sum :=
        hall.sum_le_sum
    _ ≤ ((List.range num_threads).map fun t => 3 * (threadRows num_threads naxis2 t).2).sum :=
        hprefix.sum_le_sum fun _ _ => Nat.zero_le _
    _ = 3 * naxis2 := by rw [List.sum_map_mul_left, sum_sizes hpos]
  exact Nat.add_le_add h.next_le hsum

theorem work_step (hfits : Fits l data naxis2) {a : Action} {s' : State}
    (h : Inv l data num_threads naxis2 s)
    (hstep : (readEvents l data num_threads naxis2).step s a = some s') :
    s'.work = s.work + 1 := by
  obtain ⟨-, hnext, hspawn⟩ | ⟨t, thread, -, ht, -, hrun⟩ := step_cases hstep
  · rw [h.spawn hfits hnext, Option.some_inj] at hspawn
    subst hspawn
    rw [State.work, State.work, List.map_append, List.sum_append]
    simp only [Thread.fresh, Thread.work, List.map_cons, List.map_nil, List.sum_cons, List.sum_nil,
      Column.index]
    omega
  · obtain ⟨arrays', -, hrun⟩ := Option.bind_eq_some_iff.mp hrun
    obtain rfl := Option.some.inj hrun
    have hsum := sum_map_set Thread.work ht (thread.advance l.stride)
    rw [Thread.work_advance] at hsum
    simp only [State.work]
    omega

theorem work_exec (hfits : Fits l data naxis2) {as : List Action} {s' : State}
    (h : Inv l data num_threads naxis2 s)
    (hexec : (readEvents l data num_threads naxis2).exec (fun _ _ => True) s as = some s') :
    Inv l data num_threads naxis2 s' ∧ s'.work = s.work + as.length := by
  induction as generalizing s with
  | nil =>
    obtain rfl := Option.some.inj hexec
    exact ⟨h, rfl⟩
  | cons a as ih =>
    rw [System.exec, if_pos trivial] at hexec
    obtain ⟨u, hstep, hexec⟩ := Option.bind_eq_some_iff.mp hexec
    obtain ⟨hinv, hwork⟩ := ih (inv_step hfits h hstep) hexec
    rw [work_step hfits h hstep] at hwork
    exact ⟨hinv, by rw [hwork, List.length_cons]; omega⟩

end Work

section Agreement

variable {l : Layout} {data : List UInt8} {num_threads naxis2 : ℕ}

/-- No step fails, no run goes on for ever, and all runs end in the same arrays. -/
theorem runs_agree (hpos : 0 < num_threads) (hfits : Fits l data naxis2) :
    (∀ row, row < naxis2 ↔ ∃ i < num_threads, InRange num_threads naxis2 i row) ∧
    (∀ i < num_threads, ∀ j < num_threads, ∀ row, InRange num_threads naxis2 i row →
      InRange num_threads naxis2 j row → i = j) ∧
    ∃ arrays, sequentialPass l data naxis2 = some arrays ∧
      (∀ s, Reachable (readEvents l data num_threads naxis2) s →
        (s.next < num_threads →
          ((readEvents l data num_threads naxis2).step s .spawn).isSome) ∧
        (∀ (t : ℕ) (thread : Thread), s.threads[t]? = some thread → thread.i < thread.size →
          ((readEvents l data num_threads naxis2).step s (.run t)).isSome) ∧
        (Joined num_threads s → s.arrays = arrays)) ∧
      ∀ as, ((readEvents l data num_threads naxis2).exec (fun _ _ => True)
        (readEvents l data num_threads naxis2).init as).isSome →
          as.length ≤ num_threads + 3 * naxis2 := by
  refine ⟨fun row => (exists_range hpos row).symm, fun i hi j hj row h h' =>
    range_unique hpos hi hj h h', fullArrays l data naxis2, sequentialPass_eq hfits, ?_, ?_⟩
  · intro s hs
    have hinv := reachable_inv hfits hs
    refine ⟨fun hnext => ?_, fun t thread ht hi => ?_, hinv.joined hpos⟩
    · have hspawn := hinv.spawn hfits hnext
      exact Option.isSome_iff_exists.mpr ⟨_, (if_pos hnext).trans hspawn⟩
    · obtain ⟨s', hrun, -⟩ := inv_run hinv hfits ht hi
      refine Option.isSome_iff_exists.mpr ⟨s', ?_⟩
      change (s.threads[t]?.bind fun thread => _) = _
      rw [ht]
      exact (if_pos hi).trans hrun
  · intro as hsome
    obtain ⟨s, hexec⟩ := Option.isSome_iff_exists.mp hsome
    obtain ⟨hinv, hwork⟩ := work_exec hfits (inv_init l data num_threads naxis2) hexec
    have hle := hinv.work_le hpos
    have hinit : (readEvents l data num_threads naxis2).init.work = 0 := rfl
    omega

/-- Whole rounds in any order leave the events that stand in the arrays of one pass. -/
theorem runThreads_value (hpos : 0 < num_threads) (hfits : Fits l data naxis2)
    {schedule : List (ℕ × ℕ) → List (ℕ × ℕ)} (hperm : ∀ rounds, (schedule rounds).Perm rounds) :
    ∃ events, ZigThreads.runThreads num_threads naxis2 l.stride (fun offset =>
        readRow data offset l.x_offset l.y_offset l.pi_offset l.pi_size) schedule = some events ∧
      ∃ arrays, sequentialPass l data naxis2 = some arrays ∧
        arrays .x = events.map (some ·.x) ∧ arrays .y = events.map (some ·.y) ∧
          arrays .pi = events.map (some ·.energy) := by
  refine ⟨(List.range naxis2).map fun row =>
    ⟨value l data row .x, value l data row .y, value l data row .pi⟩, ?_, _,
    sequentialPass_eq hfits, ?_, ?_, ?_⟩
  · have hread : ∀ row < naxis2, ∀ event, readRow data (row * l.stride) l.x_offset l.y_offset
        l.pi_offset l.pi_size = some event ↔
          True ∧ event = ⟨value l data row .x, value l data row .y, value l data row .pi⟩ := by
      intro row hrow event
      rw [readRow_value hfits hrow, Option.some_inj, true_and, eq_comm]
    rw [ZigThreads.runThreads_eq_some_iff hpos hperm hread]
    exact ⟨fun _ _ => trivial, rfl⟩
  all_goals
    rw [fullArrays, List.map_map]
    rfl

/-- Three rows of eight bytes, with `PI` in four of them. -/
def sampleLayout : Layout := ⟨0, 2, 4, 4, 8⟩

def sampleData : List UInt8 :=
  [0, 1, 0, 2, 0, 0, 0, 9, 255, 255, 0, 3, 0, 0, 1, 0, 1, 0, 2, 0, 255, 255, 255, 254]

theorem fits_sampleData : Fits sampleLayout sampleData 3 :=
  ⟨by decide, by decide, by decide, by decide⟩

/-- The first three of four threads have no row. -/
theorem runs_agree_sampleData :
    ∃ arrays, sequentialPass sampleLayout sampleData 3 = some arrays ∧
      ∀ s, Reachable (readEvents sampleLayout sampleData 4 3) s → Joined 4 s →
        s.arrays = arrays := by
  obtain ⟨-, -, arrays, hpass, hruns, -⟩ :=
    @runs_agree sampleLayout sampleData 4 3 (by decide) fits_sampleData
  exact ⟨arrays, hpass, fun s hs => (hruns s hs).2.2⟩

end Agreement

end XWebQL.ZigSchedules
