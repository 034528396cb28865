import XWebQL.BayesianBinning
import XWebQL.FloatValues

/-! The two binning functions in single precision.
Every operation is rounded, and overflows: an extent may be infinite, a mid-point as
well, and an edge between the two infinities is NaN. The events are not NaN. A result
`some _` says that no index left its array, as in the model with exact numbers, whose
definitions of the same names quote the source. -/

namespace XWebQL.SingleBinning

open FloatValues FortranArray Quicksort BayesianBinning

/-- `real(kind=c_float)` -/
abbrev CFloat : Type := Number binary32

/-- One that is not NaN. -/
abbrev Single : Type := Value binary32

/-- A constant, or an integer that is converted. -/
def real (q : ℚ) : CFloat := .ofRat binary32 q

/-- `log` on positive numbers: between `log(2.0**(-149))` and `log(2.0**128)`. -/
structure Logarithm where
  log : ℚ → ℚ
  range : ∀ q, binary32.IsFinite q → 0 < q → |log q| ≤ 2 ^ (7 : ℤ)

def Logarithm.apply (L : Logarithm) : CFloat → CFloat
  | .value (.finite q _) =>
    if 0 < q then real (L.log q) else if q = 0 then .value .negInf else .nan
  | .value .posInf => .value .posInf
  | .value .negInf => .nan
  | .nan => .nan

def minCounts : CFloat := real 20

/-- `fit_max = -1.0e38 ! -Inf` -/
def fitStart : CFloat := real (-10 ^ 38)

def bumpHead : List CFloat → List CFloat
  | [] => []
  | w :: ws => (w + real 1) :: ws

def runLengthLoop (prev : Single) :
    List Single → List Single → List CFloat → List Single × List CFloat
  | [], unique, weights => (unique.reverse, weights.reverse)
  | xi :: rest, unique, weights =>
    if xi = prev then runLengthLoop xi rest unique (bumpHead weights)
    else runLengthLoop xi rest (xi :: unique) (real 1 :: weights)

def runLength : List Single → Option (List Single × List CFloat)
  | [] => none
  | x₁ :: rest => some (runLengthLoop x₁ rest [x₁] [real 1])

def cellEdges (unique : List Single) : Option (List CFloat) := do
  let first ← elem unique 1
  let last ← elem unique unique.length
  some ([.value first] ++
    List.zipWith (fun a b => real (1 / 2) * (.value a + .value b)) unique.dropLast unique.tail ++
    [.value last])

def partition (x : List Single) :
    Option (List Single × List Single × List CFloat × List CFloat) := do
  let x ← quicksort x 1 x.length
  let (unique, weights) ← runLength x
  let edges ← cellEdges unique
  some (x, unique, weights, edges)

def advance (edges : List CFloat) (v : CFloat) (i : ℕ) : Option ℕ := do
  let lo ← elem edges i
  let hi ← elem edges (i + 1)
  if _h : ¬ (lo ≤ v ∧ v ≤ hi) ∧ i < edges.length - 1 then advance edges v (i + 1)
  else some i
termination_by edges.length - i

def addTo (counts : List CFloat) (m : ℕ) (w : CFloat) : Option (List CFloat) := do
  let c ← elem counts m
  put counts m (c + w)

def countLoop (edges : List CFloat) (shift : ℕ) :
    ℕ → List Single → List CFloat → List CFloat → Option (List CFloat)
  | _, [], _, counts => some counts
  | i, v :: x, weights, counts => do
    let i ← advance edges (.value v) i
    let w ← elem weights 1
    let counts ← addTo counts (i + shift) w
    countLoop edges shift i x weights.tail counts

def countBetweenEdges (x : List Single) (edges weights : List CFloat) (shift : ℕ) :
    Option (List CFloat) :=
  countLoop edges shift 1 x weights (List.replicate (edges.length - 1 + shift) (real 0))

def cumsumLoop (prev : CFloat) : List CFloat → List CFloat
  | [] => []
  | v :: rest => (prev + v) :: cumsumLoop (prev + v) rest

def cumsum : List CFloat → List CFloat
  | [] => []
  | v :: rest => v :: cumsumLoop v rest

def fitness (L : Logarithm) (cntInRange width whTotal : CFloat) : CFloat :=
  cntInRange * L.apply (cntInRange / width) - L.apply whTotal

def addBest (best : List CFloat) (i : ℕ) (fitness : CFloat) : Option CFloat :=
  if i > 1 then (elem best (i - 1)).map (fitness + ·) else some fitness

def innerLoop (L : Logarithm) (dt : CFloat) (whInEdge edges best : List CFloat) (q : ℕ) :
    List ℕ → CFloat × ℕ → Option (CFloat × ℕ)
  | [], acc => some acc
  | i :: is, (fitMax, iMax) => do
    let whRight ← elem whInEdge (q + 1)
    let whLeft ← elem whInEdge i
    let cntInRange := whRight - whLeft
    if cntInRange < minCounts then some (fitMax, iMax)
    else do
      let right ← elem edges (q + 1)
      let left ← elem edges i
      let width := right - left
      if width ≤ dt then some (fitMax, iMax)
      else do
        let whTotal ← elem whInEdge whInEdge.length
        let fit ← addBest best i (fitness L cntInRange width whTotal)
        innerLoop L dt whInEdge edges best q is
          (if fitMax < fit then (fit, i) else (fitMax, iMax))

def outerLoop (L : Logarithm) (dt : CFloat) (whInEdge edges : List CFloat) :
    List ℕ → List CFloat → List ℕ → Option (List CFloat × List ℕ)
  | [], best, bestIdx => some (best, bestIdx)
  | q :: qs, best, bestIdx => do
    let (fitMax, iMax) ← innerLoop L dt whInEdge edges best q (List.range' 1 q) (fitStart, 0)
    outerLoop L dt whInEdge edges qs (best ++ [fitMax]) (bestIdx ++ [iMax])

def peel (edges : List CFloat) (bestIdx : List ℕ) : (room L : ℕ) → Option (List CFloat)
  | 0, L => if L > 0 then none else some []
  | room + 1, L =>
    if L > 0 then do
      let e ← elem edges L
      if L = 1 then some [e]
      else do
        let next ← elem bestIdx (L - 1)
        let rest ← peel edges bestIdx room next
        some (e :: rest)
    else some []

def optimalChangePoints (L : Logarithm) (unique : List Single) (weights edges : List CFloat)
    (dt : CFloat) : Option (List CFloat) := do
  let whInEdge ← countBetweenEdges unique edges weights 1
  let whInEdge := cumsum whInEdge
  let (_, bestIdx) ← outerLoop L dt whInEdge edges (List.range' 1 unique.length) [] []
  let changePoints ← peel edges bestIdx (unique.length + 1) (unique.length + 1)
  some changePoints.reverse

def conquerBayesianBinning (L : Logarithm) (unique : List Single) (weights : List CFloat)
    (dt : CFloat) : Option (List CFloat) := do
  let edges ← cellEdges unique
  optimalChangePoints L unique weights edges dt

def halveAt (weights : List CFloat) (mid : ℕ) : Option (List CFloat) := do
  let w ← elem weights mid
  put weights mid (w / real 2)

def restoreAt (weights : List CFloat) (mid : ℕ) : Option (List CFloat) := do
  let w ← elem weights mid
  put weights mid (w * real 2)

def divideBayesianBinning (L : Logarithm) (leftFirst : List Bool → Bool) (dt : CFloat)
    (path : List Bool) (unique : List Single) (weights : List CFloat) :
    Option (List CFloat × List CFloat) :=
  if _h : WORKSIZE < unique.length then do
    let mid := unique.length / 2
    let weights ← halveAt weights mid
    let (left, leftWeights) ← divideBayesianBinning L leftFirst dt (true :: path)
      (unique.take mid) (weights.take mid)
    let weights := leftWeights ++ weights.drop mid
    let (right, rightWeights) ← divideBayesianBinning L leftFirst dt (false :: path)
      (unique.drop (mid - 1)) (weights.drop (mid - 1))
    let weights := weights.take (mid - 1) ++ rightWeights
    let weights ← restoreAt weights mid
    some (if leftFirst path then left ++ right else right ++ left, weights)
  else do
    let changePoints ← conquerBayesianBinning L unique weights dt
    some (changePoints, weights)
termination_by unique.length
decreasing_by
  all_goals
    simp only [List.length_take, List.length_drop, WORKSIZE] at *
    omega

def resolutionStep (extent : CFloat) : Option ℤ → CFloat
  | some resolution => (extent / real resolution).abs
  | none => real 0

def buildBlocks (x : List Single) (changePoints weights : List CFloat) :
    Option (BayesHistogram CFloat) := do
  let centers := List.zipWith (fun a b => real (1 / 2) * (a + b)) changePoints.dropLast
    changePoints.tail
  let widths := List.zipWith (fun a b => b - a) changePoints.dropLast changePoints.tail
  let counts ← countBetweenEdges x changePoints weights 0
  let total := counts.foldl (· + ·) (real 0)
  let heights := List.zipWith (fun c w => c / (total * w)) counts widths
  some ⟨changePoints, centers, widths, heights, changePoints.length - 1⟩

/-- Change points with a NaN among them have no order that a sort could bring them into. -/
def ordered (changePoints : List CFloat) : Option (List Single) :=
  changePoints.mapM fun c =>
    match c with
    | .value v => some v
    | .nan => none

def parallelChangePoints (L : Logarithm) (schedule : Schedule) (x : List Single)
    (resolution : Option ℤ) : Option (List Single × List Single × List CFloat × List CFloat) := do
  let x ← quicksortOmp schedule.sorting x 1 x.length
  let (unique, weights) ← runLength x
  let last ← elem unique unique.length
  let first ← elem unique 1
  let dt := resolutionStep (.value last - .value first) resolution
  let (changePoints, weights) ← divideBayesianBinning L schedule.binning dt [] unique weights
  let changePoints ← ordered changePoints
  let changePoints ← mergeChangePoints changePoints
  some (x, unique, changePoints.map .value, weights)

def parallelBayesianBinning (L : Logarithm) (schedule : Schedule) (x : List Single)
    (resolution : Option ℤ) : Option (List Single × BayesHistogram CFloat) :=
  if x.length = 0 then some (x, ⟨[], [], [], [], 0⟩)
  else do
    let (x, unique, changePoints, weights) ← parallelChangePoints L schedule x resolution
    let blocks ← buildBlocks unique changePoints weights
    some (x, blocks)

def fastChangePoints (L : Logarithm) (x : List Single) (resolution : Option ℤ) :
    Option (List Single × List Single × List CFloat × List CFloat) := do
  let (x, unique, weights, edges) ← partition x
  let last ← elem unique unique.length
  let first ← elem unique 1
  let dt := resolutionStep (.value last - .value first) resolution
  let changePoints ← optimalChangePoints L unique weights edges dt
  some (x, unique, changePoints, weights)

def fastBayesianBinning (L : Logarithm) (x : List Single) (resolution : Option ℤ) :
    Option (List Single × BayesHistogram CFloat) :=
  if x.length = 0 then some (x, ⟨[], [], [], [], 0⟩)
  else do
    let (x, unique, changePoints, weights) ← fastChangePoints L x resolution
    let blocks ← buildBlocks unique changePoints weights
    some (x, blocks)

end XWebQL.SingleBinning
