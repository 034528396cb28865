import XWebQL.FitnessSentinel

/-! The Julia module that the Fortran binning replaces.
`bayesian_blocks` sorts with a permutation, masks repeated values after adding
up their weights, counts without a bound on its pointer, and walks back over
positions instead of edges. Its arrays are read at checked positions, also where
the source turns the check off; the minus infinity of its loops is `⊥`. -/

namespace XWebQL.ReferenceBinning

open FortranArray Quicksort RunLength CountBetweenEdges ConquerBinning OptimalSegmentation
  BayesianBinning BinningAgreement FitnessSentinel

variable {K : Type} [Field K] [LinearOrder K]

/-- `struct BHist{T<:Real}` -/
structure BHist (K : Type) where
  edges : List K
  counts : List K
  centers : List K
  widths : List K
  heights : List K

/-- `a[p]` for positions `p` -/
def gather (a : List K) (p : List ℕ) : Option (List K) := p.mapM (elem a)

/-- `a[f]` for a mask `f` -/
def maskIndex (a : List K) (f : List Bool) : List K := ((a.zip f).filter Prod.snd).map Prod.fst

def sortSane (ssortperm : List K → List ℕ) (rawX rawW : List K) : Option (List K × List K) := do
  let p := ssortperm rawX
  let tmpX ← gather rawX p
  let tmpW ← gather rawW p
  let f := tmpW.map fun w => decide (w > 0)
  some (maskIndex tmpX f, maskIndex tmpW f)

/-- One position of the arrays `x`, `w` and `m` of `sanitize`. -/
structure Entry (K : Type) where
  x : K
  w : K
  m : Bool

/-- The loop over `i = 2:length(x)`; `prev` is the position `i-1`. -/
def mergeLoop (prev : Entry K) : List (Entry K) → List (Entry K)
  | [] => [prev]
  | next :: rest =>
    if next.x = prev.x ∧ prev.m ∧ next.m then
      { prev with w := 0, m := false } :: mergeLoop { next with w := next.w + prev.w } rest
    else prev :: mergeLoop next rest

def mergeEntries : List (Entry K) → List (Entry K)
  | [] => []
  | first :: rest => mergeLoop first rest

def sanitize (ssortperm : List K → List ℕ) (rawX rawW : List K) : Option (List K × List K) := do
  let (x, w) ← sortSane ssortperm rawX rawW
  let kept := (mergeEntries (List.zipWith (fun x w => ⟨x, w, true⟩) x w)).filter Entry.m
  some (kept.map Entry.x, kept.map Entry.w)

/-- `while !(edges[i] <= el <= edges[i+1])`, without a bound on `i`. -/
def seek (edges : List K) (el : K) (i : ℕ) : Option ℕ :=
  match elem edges i, _h : elem edges (i + 1) with
  | some lo, some hi => if lo ≤ el ∧ el ≤ hi then some i else seek edges el (i + 1)
  | _, _ => none
termination_by edges.length - i
decreasing_by
  have := (elem_range _h).2
  omega

def Reference.countLoop (edges : List K) (shift : ℕ) :
    ℕ → List K → List K → List K → Option (List K)
  | i, el :: observations, w :: weights, out => do
    let i ← seek edges el i
    let out ← addTo out (i + shift) w
    Reference.countLoop edges shift i observations weights out
  | _, _, _, out => some out

def Reference.countBetweenEdges (edges weights observations : List K) (shift : ℕ) :
    Option (List K) :=
  Reference.countLoop edges shift 1 observations weights
    (List.replicate (edges.length - 1 + shift) 0)

def Reference.buildBlocks (t edges weights : List K) : Option (BHist K) := do
  let centers := List.zipWith (fun a b => (a + b) / ((2 : ℕ) : K)) edges.dropLast edges.tail
  let counts ← Reference.countBetweenEdges edges weights t 0
  let total := counts.sum
  let widths := List.zipWith (fun a b => b - a) edges.dropLast edges.tail
  let heights := List.zipWith (fun c w => c / (total * w)) counts widths
  some ⟨edges, counts, centers, widths, heights⟩

/-- `BIC`, a function of `max_blocks`, `cnt_total` and `cnt_single`. -/
def bic (log : K → K) (_maxBlocks cntTotal _cntSingle : K) : K := -log cntTotal

/-- `[t[begin]; (t[begin+1:end] .+ t[begin:end-1]) ./ 2; t[end]]` -/
def Reference.cellEdges (t : List K) : Option (List K) := do
  let first ← elem t 1
  let last ← elem t t.length
  some ([first] ++ List.zipWith (fun a b => (b + a) / ((2 : ℕ) : K)) t.dropLast t.tail ++ [last])

/-- The loop over `i = 1:Q` with its two exits. -/
def Reference.innerLoop (log : K → K) (prior : K → K → K → K) (maxBlocks minCounts dt : K)
    (whInEdge edges : List K) (best : List (WithBot K)) (q : ℕ) :
    List ℕ → WithBot K × ℕ → Option (WithBot K × ℕ)
  | [], acc => some acc
  | i :: is, (fitMax, iMax) => do
    let whRight ← elem whInEdge (q + 1)
    let whLeft ← elem whInEdge i
    let cntInRange := whRight - whLeft
    if cntInRange < minCounts then some (fitMax, iMax)
    else do
      let right ← elem edges (q + 1)
      let left ← elem edges i
      let width := right - left
      if width ≤ dt then some (fitMax, iMax)
      else do
        let whTotal ← elem whInEdge whInEdge.length
        let own := cntInRange * log (cntInRange / width) + prior maxBlocks whTotal cntInRange
        let fit ← addBest best i ((own : K) : WithBot K)
        Reference.innerLoop log prior maxBlocks minCounts dt whInEdge edges best q is
          (if fit > fitMax then (fit, i) else (fitMax, iMax))

/-- The loop over `Q = 1:N`, writing into `best` and `lasts`. -/
def Reference.outerLoop (log : K → K) (prior : K → K → K → K) (maxBlocks minCounts dt : K)
    (whInEdge edges : List K) :
    List ℕ → List (WithBot K) → List ℕ → Option (List (WithBot K) × List ℕ)
  | [], best, lasts => some (best, lasts)
  | q :: qs, best, lasts => do
    let (fitMax, iMax) ← Reference.innerLoop log prior maxBlocks minCounts dt whInEdge edges best
      q (List.range' 1 q) (⊥, 0)
    let lasts ← put lasts q iMax
    let best ← put best q fitMax
    Reference.outerLoop log prior maxBlocks minCounts dt whInEdge edges qs best lasts

/-- The positions pushed to `change_points` from `ind` on, in at most `rounds` rounds. -/
def changePoints (lasts : List ℕ) : (rounds ind : ℕ) → Option (List ℕ)
  | 0, _ => none
  | rounds + 1, ind =>
    if ind ≤ 1 then some [ind]
    else do
      let next ← elem lasts (ind - 1)
      let rest ← changePoints lasts rounds next
      some (ind :: rest)

/-- `bayesian_blocks(t; weights, prior, resolution, min_counts)`. An empty array
has the edges `-Inf` and `Inf`, which are no numbers. -/
def bayesianBlocks (log : K → K) (ssortperm : List K → List ℕ) (t weights : List K)
    (prior : K → K → K → K) (resolution : Option ℤ) (minCounts : K) : Option (BHist K) := do
  let (t, weights) ← sanitize ssortperm t weights
  let n := t.length
  if n = 0 then none
  else if n = 1 then do
    let t₁ ← elem t 1
    Reference.buildBlocks t [t₁, t₁] weights
  else do
    let edges ← Reference.cellEdges t
    let whInEdge ← Reference.countBetweenEdges edges weights t 1
    let whInEdge := cumsum whInEdge
    let last ← elem t n
    let first ← elem t 1
    let dt := max (resolutionStep (last - first) resolution) 0
    let (_, lasts) ← Reference.outerLoop log prior n minCounts dt whInEdge edges
      (List.range' 1 n) (List.replicate n 0) (List.replicate n 0)
    let points ← changePoints lasts (n + 1) (n + 1)
    let edges ← gather edges points.reverse
    Reference.buildBlocks t edges weights

/-- `one.(t)`, the default of `weights` -/
def ones (t : List K) : List K := t.map fun _ => 1

/-- What `ssortperm` is for: a permutation of the positions that sorts. -/
def SortsPositions (ssortperm : List K → List ℕ) : Prop :=
  ∀ v : List K, (ssortperm v).Perm (List.range' 1 v.length) ∧
    ∀ sorted, gather v (ssortperm v) = some sorted → sorted.Pairwise (· ≤ ·)

section Gather

omit [LinearOrder K] in
theorem gather_eq {a : List K} {p : List ℕ} (h : ∀ i ∈ p, 1 ≤ i ∧ i ≤ a.length) :
    gather a p = some (p.map (edgeAt a)) := by
  refine mapM_eq_some_map fun i hi => ?_
  obtain ⟨v, hv⟩ := exists_elem (h i hi).1 (h i hi).2
  rw [hv, edgeAt_eq hv]

omit [LinearOrder K] in
theorem gather_perm {a : List K} {p : List ℕ} (hp : p.Perm (List.range' 1 a.length)) :
    gather a p = some (p.map (edgeAt a)) ∧ (p.map (edgeAt a)).Perm a := by
  refine ⟨gather_eq fun i hi => ?_, ?_⟩
  · have := List.mem_range'_1.mp (hp.mem_iff.mp hi)
    omega
  · have hmap := hp.map (edgeAt a)
    rwa [map_edgeAt_range'] at hmap

omit [Field K] [LinearOrder K] in
theorem maskIndex_all (a : List K) {f : List Bool} (hlen : f.length = a.length)
    (hall : ∀ b ∈ f, b = true) : maskIndex a f = a := by
  induction a generalizing f with
  | nil => simp [maskIndex]
  | cons v a ih =>
    cases f with
    | nil => simp at hlen
    | cons b f =>
      have hrest := ih (f := f) (by simpa using hlen) fun c hc => hall c (List.mem_cons_of_mem b hc)
      rw [maskIndex] at hrest
      rw [maskIndex, List.zip_cons_cons, hall b (by simp), List.filter_cons_of_pos rfl,
        List.map_cons, hrest]

theorem sortSane_ones [IsStrictOrderedRing K] {ssortperm : List K → List ℕ}
    (hsort : SortsPositions ssortperm) (x : List K) :
    ∃ sorted, sortSane ssortperm x (ones x) = some (sorted, ones sorted) ∧ sorted.Perm x ∧
      sorted.Pairwise (· ≤ ·) := by
  obtain ⟨hp, hsorted⟩ := hsort x
  obtain ⟨hgather, hperm⟩ := gather_perm hp
  have hp' : (ssortperm x).Perm (List.range' 1 (ones x).length) := by
    rwa [ones, List.length_map]
  obtain ⟨hgather', hperm'⟩ := gather_perm hp'
  have hw : ∀ w ∈ (ssortperm x).map (edgeAt (ones x)), w = 1 := by
    intro w hw
    obtain ⟨_, _, rfl⟩ := List.mem_map.mp (hperm'.mem_iff.mp hw)
    rfl
  have hones : (ssortperm x).map (edgeAt (ones x)) =
      ones ((ssortperm x).map (edgeAt x)) := by
    rw [List.eq_replicate_of_mem hw]
    simp only [ones, List.map_const', List.length_map]
  refine ⟨_, ?_, hperm, hsorted _ hgather⟩
  rw [sortSane, hgather, hgather', hones]
  simp only [Option.bind_eq_bind, Option.bind_some]
  have hall : ∀ b ∈ (ones ((ssortperm x).map (edgeAt x))).map fun w => decide (w > 0),
      b = true := by
    simp [ones]
  rw [maskIndex_all _ (by simp [ones]) hall, maskIndex_all _ (by simp [ones]) hall]

end Gather

section Merge

theorem mergeLoop_runLength (prev c : K) (rest unique weights : List K) :
    runLengthLoop prev rest (prev :: unique) (c :: weights) =
      (unique.reverse ++
        ((mergeLoop ⟨prev, c, true⟩ (rest.map (⟨·, 1, true⟩))).filter Entry.m).map Entry.x,
      weights.reverse ++
        ((mergeLoop ⟨prev, c, true⟩ (rest.map (⟨·, 1, true⟩))).filter Entry.m).map Entry.w) := by
  induction rest generalizing prev c unique weights with
  | nil => simp [runLengthLoop, mergeLoop]
  | cons xi rest ih =>
    rw [runLengthLoop, List.map_cons, mergeLoop]
    by_cases heq : xi = prev
    · subst heq
      simp only [if_true, bumpHead, and_self]
      rw [ih xi (c + 1) unique weights, List.filter_cons_of_neg (by simp), add_comm 1 c]
    · rw [if_neg heq, ih xi 1 (prev :: unique) (c :: weights), if_neg (fun h => heq h.1),
        List.filter_cons_of_pos rfl]
      simp

theorem sanitize_eq [IsStrictOrderedRing K] {ssortperm : List K → List ℕ}
    (hsort : SortsPositions ssortperm) {x : List K} (hne : x ≠ []) :
    ∃ sorted unique weights first last, Prepared x sorted unique weights first last ∧
      sanitize ssortperm x (ones x) = some (unique, weights) := by
  obtain ⟨sorted, hsane, hperm, hsorted⟩ := sortSane_ones hsort x
  obtain ⟨unique, weights, first, last, hrun, h⟩ := exists_prepared hne hperm hsorted
  refine ⟨sorted, unique, weights, first, last, h, ?_⟩
  cases sorted with
  | nil => cases hrun
  | cons x₁ rest =>
    have hentries : List.zipWith (fun x w => (⟨x, w, true⟩ : Entry K)) (x₁ :: rest)
        (ones (x₁ :: rest)) = ⟨x₁, 1, true⟩ :: rest.map (⟨·, 1, true⟩) := by
      rw [ones, List.zipWith_map_right, List.zipWith_self]
      rfl
    rw [runLength, mergeLoop_runLength] at hrun
    rw [sanitize, hsane]
    simp only [Option.bind_eq_bind, Option.bind_some, hentries, mergeEntries]
    exact hrun

end Merge

section Counts

omit [Field K] in
theorem seek_of_edges {edges : List K} {v lo hi : K} {i : ℕ} (hlo : elem edges i = some lo)
    (hhi : elem edges (i + 1) = some hi) :
    seek edges v i = if lo ≤ v ∧ v ≤ hi then some i else seek edges v (i + 1) := by
  rw [seek]
  split
  · next lo' hi' hlo' hhi' =>
    obtain rfl : lo' = lo := Option.some.inj (hlo'.symm.trans hlo)
    obtain rfl : hi' = hi := Option.some.inj (hhi'.symm.trans hhi)
    rfl
  · next hnone => exact absurd hhi (hnone lo hi hlo)

omit [Field K] in
theorem seek_eq_firstBlock {edges : List K} {v : K} {i : ℕ}
    (covered : ∃ m, InBlock edges m v) (hi₁ : 1 ≤ i) (hi₂ : i ≤ firstBlock edges v) :
    seek edges v i = some (firstBlock edges v) := by
  obtain ⟨hfirst, hleast⟩ := firstBlock_spec edges v covered
  obtain ⟨d, hd⟩ := Nat.exists_eq_add_of_le hi₂
  have hrange := inBlock_range hfirst
  induction d generalizing i with
  | zero =>
    obtain rfl : i = firstBlock edges v := hd.symm
    obtain ⟨lo, hi, hlo, hhi, hv⟩ := hfirst
    rw [seek_of_edges hlo hhi, if_pos hv]
  | succ d ih =>
    obtain ⟨lo, hlo⟩ := exists_elem (a := edges) hi₁ (by omega)
    obtain ⟨hi, hhi⟩ := exists_elem (a := edges) (i := i + 1) (by omega) (by omega)
    have hout : ¬ (lo ≤ v ∧ v ≤ hi) := fun hin =>
      hleast i (by omega) ⟨lo, hi, hlo, hhi, hin⟩
    rw [seek_of_edges hlo hhi, if_neg hout]
    exact ih (by omega) (by omega) (by omega)

/-- On sorted data between the edges the pointer never meets the stopping rule
that the Fortran loop added. -/
theorem referenceCountLoop_eq {edges : List K} (sorted : edges.Pairwise (· ≤ ·)) (shift i : ℕ)
    (x weights counts : List K) (hi₁ : 1 ≤ i) (hw : x.length = weights.length)
    (hx : x.Pairwise (· ≤ ·)) (covered : ∀ v ∈ x, ∃ m, InBlock edges m v)
    (hi : ∀ v ∈ x, i ≤ firstBlock edges v) :
    Reference.countLoop edges shift i x weights counts =
      countLoop edges shift i x weights counts := by
  induction x generalizing i weights counts with
  | nil => cases weights <;> rfl
  | cons v x ih =>
    cases weights with
    | nil => simp at hw
    | cons w weights =>
      have hv := covered v (by simp)
      have hiv := hi v (by simp)
      have hpos := (inBlock_range (firstBlock_spec edges v hv).1).1
      have hrest := fun counts => ih (firstBlock edges v) weights counts hpos (by simpa using hw)
        hx.of_cons (fun u hu => covered u (List.mem_cons_of_mem v hu))
        (fun u hu => firstBlock_mono sorted (List.rel_of_pairwise_cons hx hu) hv
          (covered u (List.mem_cons_of_mem v hu)))
      simp only [Reference.countLoop, countLoop, seek_eq_firstBlock hv hi₁ hiv,
        advance_eq_firstBlock hv hi₁ hiv, Option.bind_eq_bind, Option.bind_some, elem_succ,
        List.getElem?_cons_zero, List.tail_cons, hrest]

theorem referenceCounts_eq {x edges weights : List K} (shift : ℕ)
    (sorted : edges.Pairwise (· ≤ ·)) (hw : x.length = weights.length)
    (hx : x.Pairwise (· ≤ ·)) (covered : ∀ v ∈ x, ∃ m, InBlock edges m v) :
    Reference.countBetweenEdges edges weights x shift = countBetweenEdges x edges weights shift :=
  referenceCountLoop_eq sorted shift 1 x weights _ le_rfl hw hx covered
    fun v hv => (inBlock_range (firstBlock_spec edges v (covered v hv)).1).1

omit [LinearOrder K] in
theorem half_add [CharZero K] (a b : K) : 0.5 * (a + b) = (a + b) / ((2 : ℕ) : K) := by
  rw [Nat.cast_ofNat]
  ring

structure SameArrays (blocks : BayesHistogram K) (hist : BHist K) : Prop where
  edges : blocks.edges = hist.edges
  centers : blocks.centers = hist.centers
  widths : blocks.widths = hist.widths
  heights : blocks.heights = hist.heights

theorem referenceBlocks_eq [IsStrictOrderedRing K] {x edges weights : List K}
    (sorted : edges.Pairwise (· ≤ ·)) (hw : x.length = weights.length)
    (hx : x.Pairwise (· ≤ ·)) (covered : ∀ v ∈ x, ∃ m, InBlock edges m v)
    {blocks : BayesHistogram K} (h : buildBlocks x edges weights = some blocks) :
    ∃ hist, Reference.buildBlocks x edges weights = some hist ∧ SameArrays blocks hist := by
  rw [buildBlocks] at h
  rw [Reference.buildBlocks, referenceCounts_eq 0 sorted hw hx covered]
  cases hcounts : countBetweenEdges x edges weights 0 with
  | none => simp [hcounts] at h
  | some counts =>
    rw [hcounts] at h
    obtain rfl := Option.some.inj h
    refine ⟨_, rfl, rfl, ?_, rfl, rfl⟩
    simp only [blockCenters, half_add]

theorem referenceCellEdges_eq [IsStrictOrderedRing K] (unique : List K) :
    Reference.cellEdges unique = cellEdges unique := by
  simp only [Reference.cellEdges, cellEdges, half_add, add_comm]

end Counts

section Loops

variable {log : K → K} {dt maxBlocks : K} {whInEdge edges : List K}

theorem referenceInnerLoop_eq {best best' : List (WithBot K)} (q : ℕ) (is : List ℕ)
    (acc : WithBot K × ℕ) (hbest : ∀ i ∈ is, 1 < i → elem best' (i - 1) = elem best (i - 1)) :
    Reference.innerLoop log (bic log) maxBlocks minCounts dt whInEdge edges best' q is acc =
      innerLoop log dt whInEdge edges best q is acc := by
  induction is generalizing acc with
  | nil => rfl
  | cons i is ih =>
    obtain ⟨fitMax, iMax⟩ := acc
    have hrest := fun acc => ih acc fun k hk => hbest k (List.mem_cons_of_mem i hk)
    have hadd : ∀ own : WithBot K, addBest best' i own = addBest best i own := by
      intro own
      rw [addBest, addBest]
      split_ifs with hi
      · rw [hbest i (by simp) hi]
      · rfl
    simp only [Reference.innerLoop, innerLoop, fitness, bic, ← sub_eq_add_neg, gt_iff_lt, hadd,
      hrest]

omit [Field K] [LinearOrder K] in
theorem put_next {α : Type} (done : List α) (preset v : α) (rest : ℕ) {n : ℕ}
    (hlen : done.length = n) :
    put (done ++ List.replicate (rest + 1) preset) (n + 1) v =
      some ((done ++ [v]) ++ List.replicate rest preset) := by
  subst hlen
  rw [put_eq_some v (by omega) (by simp), Nat.add_sub_cancel, List.set_append_right _ _ le_rfl,
    Nat.sub_self, List.replicate_succ, List.set_cons_zero, List.append_assoc]
  rfl

variable (log dt maxBlocks whInEdge edges) in
/-- The preset arrays of the reference, once written, are the growing arrays of
the Fortran model. -/
theorem referenceOuterLoop_eq (rounds n : ℕ) (best : List (WithBot K)) (bestIdx : List ℕ)
    (hbest : best.length = n) (hidx : bestIdx.length = n) :
    Reference.outerLoop log (bic log) maxBlocks minCounts dt whInEdge edges
        (List.range' (n + 1) rounds) (best ++ List.replicate rounds 0)
        (bestIdx ++ List.replicate rounds 0) =
      outerLoop log dt whInEdge edges (List.range' (n + 1) rounds) best bestIdx := by
  induction rounds generalizing n best bestIdx with
  | zero => simp [Reference.outerLoop, outerLoop]
  | succ rounds ih =>
    have hinner : ∀ acc, Reference.innerLoop log (bic log) maxBlocks minCounts dt whInEdge edges
        (best ++ List.replicate (rounds + 1) 0) (n + 1) (List.range' 1 (n + 1)) acc =
          innerLoop log dt whInEdge edges best (n + 1) (List.range' 1 (n + 1)) acc := by
      intro acc
      refine referenceInnerLoop_eq (n + 1) _ acc fun i hi _ => ?_
      have hik := List.mem_range'_1.mp hi
      rw [elem_append_left (by omega)]
    rw [List.range'_succ, Reference.outerLoop, outerLoop, hinner]
    cases innerLoop log dt whInEdge edges best (n + 1) (List.range' 1 (n + 1)) (⊥, 0) with
    | none => rfl
    | some round =>
      obtain ⟨fitMax, iMax⟩ := round
      simp only [Option.bind_eq_bind, Option.bind_some, put_next bestIdx 0 iMax rounds hidx,
        put_next best 0 fitMax rounds hbest]
      exact ih (n + 1) (best ++ [fitMax]) (bestIdx ++ [iMax]) (by simp [hbest]) (by simp [hidx])

theorem changePoints_backtrace {lasts : List ℕ} {n j : ℕ} {cuts : List ℕ}
    (hlen : lasts.length = n) (hless : ∀ j, 1 < j → j ≤ n + 1 → predAt lasts j < j)
    (h : Backtrace (predAt lasts) 1 j cuts) (hjn : j ≤ n + 1) (rounds : ℕ) (hrounds : j ≤ rounds) :
    changePoints lasts rounds j = some cuts.reverse := by
  induction h generalizing rounds with
  | source =>
    obtain ⟨rounds, rfl⟩ := Nat.exists_eq_add_of_le' hrounds
    rw [changePoints, if_pos le_rfl]
    rfl
  | @step j cuts hj _ ih =>
    obtain ⟨rounds, rfl⟩ := Nat.exists_eq_add_of_le' (hj.le.trans hrounds)
    have hp := hless j hj hjn
    obtain ⟨next, hnext⟩ := exists_elem (a := lasts) (i := j - 1) (by omega) (by omega)
    have hrest := ih (by omega) rounds (by omega)
    rw [predAt, hnext, Option.getD_some] at hrest
    rw [changePoints, if_neg (by omega), hnext]
    simp only [Option.bind_eq_bind, Option.bind_some, hrest, List.reverse_append,
      List.reverse_singleton, List.singleton_append]

end Loops

section Agreement

variable (log : K → K) {unique weights edges : List K} {dt : K}

omit [Field K] in
theorem covered_by_ends {points : List K} {first last : K} (inc : unique.Pairwise (· < ·))
    (hfirst : unique.head? = some first) (hlast : unique.getLast? = some last)
    (htwo : 2 ≤ points.length) (hpoint : points.head? = some first)
    (hpoint' : points.getLast? = some last) : ∀ v ∈ unique, ∃ m, InBlock points m v :=
  fun v hv => covered_of_between htwo hpoint hpoint' (le_of_head? inc hfirst v hv)
    (le_of_getLast? inc hlast v hv)

variable [IsStrictOrderedRing K]

theorem reference_weights_in_cells (hcells : CellEdges unique edges)
    (inc : unique.Pairwise (· < ·)) (hne : unique ≠ [])
    (hlen : unique.length = weights.length) :
    Reference.countBetweenEdges edges weights unique 1 = some (0 :: weights) := by
  have covered : ∀ v ∈ unique, ∃ m, InBlock edges m v := by
    intro v hv
    obtain ⟨k, hk⟩ := exists_elem_of_mem hv
    obtain ⟨lo, hi, hlo, hhi, hlv, hvh, _⟩ := hcells.cell inc hk
    exact ⟨k, lo, hi, hlo, hhi, hlv, hvh⟩
  rw [referenceCounts_eq 1 (CellEdges.sorted hcells inc hne) hlen (inc.imp le_of_lt) covered,
    CellEdges.weights_in_cells hcells inc hne hlen]

theorem changePoints_agree (hcells : CellEdges unique edges) (inc : unique.Pairwise (· < ·))
    (htwo : 2 ≤ unique.length) (hlen : unique.length = weights.length)
    (hpos : ∀ w ∈ weights, 0 < w) (hwide : Wide weights edges dt 1 (unique.length + 1)) :
    ∃ best lasts cuts,
      Reference.outerLoop log (bic log) unique.length minCounts dt (cumsum (0 :: weights)) edges
        (List.range' 1 unique.length) (List.replicate unique.length 0)
        (List.replicate unique.length 0) = some (best, lasts) ∧
      changePoints lasts (unique.length + 1) (unique.length + 1) = some cuts.reverse ∧
      gather edges cuts = some (cuts.map (edgeAt edges)) ∧
      optimalChangePoints log unique weights edges dt = some (cuts.map (edgeAt edges)) ∧
      Segmentation (Admissible weights edges dt) 1 (unique.length + 1) cuts := by
  have hne : unique ≠ [] := List.ne_nil_of_length_pos (by omega)
  have hedges : edges.length = weights.length + 1 := by rw [hcells.length, hlen]
  have hnonneg : ∀ w ∈ weights, 0 ≤ w := fun w hw => (hpos w hw).le
  rw [hlen] at hwide ⊢
  obtain ⟨best, bestIdx, hloop, hsolved⟩ := outerLoop_solves log dt hedges
  have hreference := referenceOuterLoop_eq log dt (weights.length : K) (cumsum (0 :: weights))
    edges weights.length 0 [] [] rfl rfl
  rw [List.nil_append, List.nil_append, Nat.zero_add, hloop] at hreference
  obtain ⟨cuts, htrace, hseg, _⟩ := hsolved.exists_backtrace hedges hnonneg
    (CellEdges.sorted hcells inc hne) ⟨le_rfl, by omega, hedges.ge, hwide⟩
  have hless := fun j hj hjn => hsolved.predAt_lt (j := j) hj hjn
  have hpeel := peel_backtrace hedges hsolved.length_idx hless htrace le_rfl
    (weights.length + 1) le_rfl
  have hwalk := changePoints_backtrace hsolved.length_idx hless htrace le_rfl
    (weights.length + 1) le_rfl
  refine ⟨best, bestIdx, cuts, hreference, hwalk, gather_eq fun i hi => ?_, ?_, hseg⟩
  · have := hseg.mem_range (fun _ _ hok => hok.2.1) i hi
    omega
  · simp only [optimalChangePoints, CellEdges.weights_in_cells hcells inc hne hlen,
      Option.bind_eq_bind, Option.bind_some, hlen, hloop, hpeel, List.reverse_reverse]

omit [IsStrictOrderedRing K] in
theorem points_ends (hcells : CellEdges unique edges) {first last : K}
    (hfirst : unique.head? = some first) (hlast : unique.getLast? = some last) {cuts : List ℕ}
    (hseg : Segmentation (Admissible weights edges dt) 1 (unique.length + 1) cuts) :
    (cuts.map (edgeAt edges)).head? = some first ∧
      (cuts.map (edgeAt edges)).getLast? = some last := by
  have hone : elem edges 1 = some first := by rw [hcells.first, elem_one, hfirst]
  have hend : elem edges (unique.length + 1) = some last := by
    rw [hcells.last, elem_length, hlast]
  constructor
  · rw [List.head?_map, hseg.first, Option.map_some, edgeAt_eq hone]
  · rw [List.getLast?_map, hseg.last, Option.map_some, edgeAt_eq hend]

end Agreement

theorem fastBayesianBinning_eq_reference [IsStrictOrderedRing K] (log : K → K)
    {ssortperm : List K → List ℕ} (hsort : SortsPositions ssortperm) {x : List K}
    {resolution : ℤ} (hn : 20 ≤ x.length) (htwo : 2 ≤ x.toFinset.card) (hres : 2 ≤ resolution) :
    ∃ sorted blocks hist, fastBayesianBinning log x (some resolution) = some (sorted, blocks) ∧
      bayesianBlocks log ssortperm x (ones x) (bic log) (some resolution) minCounts =
        some hist ∧
      SameArrays blocks hist := by
  have hne : x ≠ [] := List.ne_nil_of_length_pos (by omega)
  obtain ⟨sorted, unique, weights, edges, first, last, hpartition, hedges, hcells, h⟩ :=
    partition_eq hne
  obtain ⟨_, _, _, _, _, h', hsanitize⟩ := sanitize_eq hsort hne
  obtain ⟨rfl, rfl, rfl, rfl, rfl⟩ := Prepared.ext h h'
  have inc := h.runs.increasing
  have hlt : first < last := h.lt_iff.mpr htwo
  have hwide := (wide_whole_iff hcells h.length_eq h.head h.last).mpr
    ⟨h.heavy_iff.mpr hn, resolutionStep_lt hlt hres⟩
  rw [← h.runs.card] at htwo
  obtain ⟨best, lasts, cuts, hloop, hwalk, hgather, hpoints, hseg⟩ :=
    changePoints_agree log hcells inc htwo h.length_eq h.positive hwide
  obtain ⟨hhead, hlast⟩ := points_ends hcells h.head h.last hseg
  have htwo' : 2 ≤ (cuts.map (edgeAt edges)).length :=
    two_le_length (List.mem_of_mem_head? hhead) (List.mem_of_mem_getLast? hlast) hlt.ne
  obtain ⟨blocks, hblocks⟩ := Option.isSome_iff_exists.mp
    ((buildBlocks_isSome_iff h.unique_ne_nil h.length_eq).mpr htwo')
  obtain ⟨hist, hhist, hsame⟩ := referenceBlocks_eq
    ((cuts_increasing (hcells.increasing inc htwo) hseg).imp le_of_lt) h.length_eq
    (inc.imp le_of_lt) (covered_by_ends inc h.head h.last htwo' hhead hlast) hblocks
  have hfirst := (elem_one unique).trans h.head
  have hend := (elem_length unique).trans h.last
  have hstep : max (resolutionStep (last - first) (some resolution)) 0 =
      resolutionStep (last - first) (some resolution) := max_eq_left (abs_nonneg _)
  refine ⟨sorted, blocks, hist, ?_, ?_, hsame⟩
  · simp only [fastBayesianBinning, fastChangePoints, hpartition, hfirst, hend, hpoints, hblocks,
      List.length_eq_zero_iff, hne, if_false, Option.bind_eq_bind, Option.bind_some]
  · rw [bayesianBlocks, hsanitize]
    simp only [Option.bind_eq_bind, Option.bind_some]
    rw [if_neg (by omega), if_neg (by omega), referenceCellEdges_eq, hedges]
    simp only [Option.bind_some, hfirst, hend, hstep, hloop, hwalk, hgather,
      reference_weights_in_cells hcells inc h.unique_ne_nil h.length_eq, List.reverse_reverse,
      hhist]

noncomputable def stablePositions (v : List ℝ) : List ℕ :=
  (List.range' 1 v.length).mergeSort fun i j => decide (edgeAt v i ≤ edgeAt v j)

theorem stablePositions_sorts : SortsPositions stablePositions := by
  intro v
  have hperm : (stablePositions v).Perm (List.range' 1 v.length) := List.mergeSort_perm _ _
  refine ⟨hperm, fun sorted hsorted => ?_⟩
  rw [(gather_perm hperm).1] at hsorted
  obtain rfl := Option.some.inj hsorted
  have hpair : (stablePositions v).Pairwise fun i j => decide (edgeAt v i ≤ edgeAt v j) = true :=
    List.pairwise_mergeSort (by simpa using fun i j k => le_trans)
      (by simpa using fun i j => le_total _ _) _
  exact List.pairwise_map.mpr (hpair.imp fun hle => of_decide_eq_true hle)

/-- `fast_bayesian_binning` with its own start value returns the edges, centers,
widths and heights of `bayesian_blocks(x; prior = BIC(), resolution, min_counts = 20)`. -/
theorem fastBayesianBinning_eq_bayesianBlocks (ssortperm : List ℝ → List ℕ)
    (hsort : SortsPositions ssortperm) (x : SingleArray) (resolution : ℤ)
    (hn : 20 ≤ x.values.length) (htwo : 2 ≤ x.values.toFinset.card) (hres : 2 ≤ resolution) :
    ∃ sorted blocks hist,
      fastBayesianBinningFrom fitMaxStart Real.log x.values (some resolution) =
        some (sorted, blocks) ∧
      bayesianBlocks Real.log ssortperm x.values (ones x.values) (bic Real.log)
        (some resolution) 20 = some hist ∧
      blocks.edges = hist.edges ∧ blocks.centers = hist.centers ∧
      blocks.widths = hist.widths ∧ blocks.heights = hist.heights := by
  obtain ⟨sorted, blocks, hist, hfast, hreference, hsame⟩ :=
    fastBayesianBinning_eq_reference Real.log hsort hn htwo hres
  rw [← fastBayesianBinningFrom_eq x resolution hn htwo hres] at hfast
  exact ⟨sorted, blocks, hist, hfast, hreference, hsame.edges, hsame.centers, hsame.widths,
    hsame.heights⟩

def twoValues : SingleArray where
  values := List.replicate 10 0 ++ List.replicate 10 1
  single v hv := by
    obtain rfl | rfl : v = 0 ∨ v = 1 := by simpa using hv
    · exact ⟨0, 0, by norm_num, by norm_num, by norm_num, by norm_num⟩
    · exact ⟨1, 0, by norm_num, by norm_num, by norm_num, by norm_num⟩
  length_lt := by simp

theorem fastBayesianBinning_eq_bayesianBlocks_twenty_events :
    ∃ sorted blocks hist,
      fastBayesianBinningFrom fitMaxStart Real.log twoValues.values (some 160) =
        some (sorted, blocks) ∧
      bayesianBlocks Real.log stablePositions twoValues.values (ones twoValues.values)
        (bic Real.log) (some 160) 20 = some hist ∧
      blocks.edges = hist.edges ∧ blocks.centers = hist.centers ∧
      blocks.widths = hist.widths ∧ blocks.heights = hist.heights := by
  have hcard : twoValues.values.toFinset.card = 2 := by simp [twoValues]
  exact fastBayesianBinning_eq_bayesianBlocks stablePositions stablePositions_sorts twoValues 160
    (by simp [twoValues]) hcard.ge (by norm_num)

end XWebQL.ReferenceBinning
