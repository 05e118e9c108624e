import RecedingHorizon.Controller
import RecedingHorizon.Linear.Blocks

/-!
# Assembling a controller

The computations of a controller on matrices whose shapes are values: every size
and every offset is a number that its constructor works out for itself, and
every window, slice and product judges whether it fits. An access that does not
is no fault that is reported: it ends the computation without any answer.
-/

namespace RecedingHorizon

/-- A computation that may be refused with a fault, or end at an access that
does not fit. -/
abbrev Checked (S α : Type) := ExceptT (Fault S) Option α

/-- A controller with its shapes as values. -/
structure Assembly (S : Type) where
  horizon : Nat
  period : S
  A : Grid S
  B : Grid S
  E : Grid S
  F : Grid S
  stateWeight : Grid S
  inputWeight : Grid S
  differences : Grid S
  /-- The transpose of `F` times the state weight. -/
  gradient : Grid S
  /-- The numbers of variables and of rows of the condensed program. -/
  n : Nat
  m : Nat
  qp : Qp.Solver S n m

namespace Assembly

variable {S : Type} [Scalar S]

/-- The powers of `A` from the first on, stacked. -/
def stateResponse? (A : Grid S) (N : Nat) : Option (Grid S) := do
  let nx := A.rows
  let (E, _) ← (List.range N).foldlM
    (fun (E, power) i => do
      let E ← E.write? (i * nx) 0 nx nx power
      let power ← A.mul? power
      return (E, power))
    ((Mat.zeros (N * nx) nx).toGrid, A)
  return E

/-- The responses to the inputs of all stages: block `(i, j)` is
`A ^ (i - j) B` on and below the diagonal. -/
def inputResponse? (A B : Grid S) (N : Nat) : Option (Grid S) := do
  let nx := A.rows
  let nu := B.cols
  let responses ← A.products? B (N - 1)
  (List.range N).foldlM
    (fun F i =>
      (List.range (i + 1)).foldlM
        (fun F j => do
          let response ← responses[i - j]?
          F.write? (i * nx) (j * nu) nx nu response)
        F)
    (Mat.zeros (N * nx) (N * nu)).toGrid

/-- The first differences of stacked inputs, entry by entry. -/
def differences? (nu N : Nat) : Option (Grid S) := do
  let rows := (N - 1) * nu
  (List.range rows).foldlM
    (fun D r => do
      let D ← D.set? r r (-1)
      D.set? r (r + nu) 1)
    (Mat.zeros rows (N * nu)).toGrid

/-- The identity above a matrix of rate rows. -/
def boxAbove? (rates : Grid S) : Option (Grid S) := do
  let n := rates.cols
  let G := (Mat.zeros (n + rates.rows) n).toGrid
  let G ← G.write? 0 0 n n (Mat.identity n).toGrid
  G.write? n 0 rates.rows n rates

/-- The cost matrix of the stacked inputs, freed of rounding asymmetry. -/
def hessian? (gradient F inputWeight : Grid S) : Option (Grid S) := do
  let cost ← gradient.mul? F
  let cost ← cost.add? inputWeight
  let cost ← cost.add? cost.transpose
  return cost.scale Scalar.half

/-- Builds from weights that fit the model. -/
def assemble (N : Nat) (A B Q R : Grid S) (settings : Settings S) (period : S) :
    Checked S (Assembly S) := do
  let nu := B.cols
  let E ← stateResponse? A N
  let F ← inputResponse? A B N
  let stateWeight ← Q.blockDiagonal? N
  let inputWeight ← R.blockDiagonal? N
  let gradient ← F.transposeMul? stateWeight
  let P ← hessian? gradient F inputWeight
  let differences ← differences? nu N
  let G ← boxAbove? differences
  let qp ← Qp.Solver.ofGrids P G settings
  return {
    horizon := N, period, A, B, E, F, stateWeight, inputWeight, differences, gradient,
    n := P.rows, m := G.rows, qp }

variable {nx nu p r : Nat}

/-- Builds an assembly. The horizon is judged first, then the period, then the
sizes of the weights. -/
def build (N : Nat) (model : LinearModel S nx nu) (cost : StageCost S p r)
    (settings : Settings S) (period : S) : Checked S (Assembly S) :=
  if 0 < N then do
    Check.positive "dt" period
    let A := model.A.toGrid
    let B := model.B.toGrid
    let Q := cost.Q.toGrid
    let R := cost.R.toGrid
    if Q.rows = A.rows then
      if R.rows = B.cols then
        assemble N A B Q R settings period
      else
        throw (.dimensionMismatch "R" B.cols R.rows)
    else
      throw (.dimensionMismatch "Q" A.rows Q.rows)
  else
    throw (.invalidHorizon N)

/-- The number of stages as the shape of `E` shows it. -/
def condensedHorizon (a : Assembly S) : Nat := a.E.rows / max a.E.cols 1

def coldStart (a : Assembly S) : WarmStart S := .cold a.n a.m

/-- `Fᵀ Q̂ (E x - x̂ref) - R̂ ûref`. -/
def linearCost (a : Assembly S) (x : Array S) (ref : Reference S) : Checked S (Array S) := do
  let x ← Check.length "x_k" x a.A.rows
  let states ← Check.length "x_ref_hat" ref.states a.E.rows
  let inputs ← Check.length "u_ref_hat" ref.inputs a.n
  let free ← a.E.mulVec? x.toArray
  let deviation ← Slice.sub? free states.toArray
  let pull ← a.gradient.mulVec? deviation
  let push ← a.inputWeight.mulVec? inputs.toArray
  Slice.sub? pull push

/-- The stacked states from `x₀` under stacked inputs. -/
def predict (a : Assembly S) (x₀ u : Array S) : Checked S (Array S) := do
  let x₀ ← Check.length "x0" x₀ a.E.cols
  let u ← Check.length "u_hat" u a.F.cols
  let forced ← a.F.mulVec? u.toArray
  let free ← a.E.mulVec? x₀.toArray
  Slice.add? forced free

/-- One step of receding-horizon control, with the input to apply now. -/
def action (a : Assembly S) (x : Array S) (ref : Reference S) (bounds : InputBounds S)
    (warm : WarmStart S) : Checked S (Qp.Solution S a.n a.m × Array S) := do
  let nu := a.B.cols
  let inputMin ← Check.length "u_min_hat" bounds.inputMin a.n
  let inputMax ← Check.length "u_max_hat" bounds.inputMax a.n
  let rateMin ← Check.length "du_min_hat" bounds.rateMin a.differences.rows
  let rateMax ← Check.length "du_max_hat" bounds.rateMax a.differences.rows
  let q ← a.linearCost x ref
  let lower ← Slice.stack? inputMin.toArray rateMin.toArray
  let upper ← Slice.stack? inputMax.toArray rateMax.toArray
  let solution ← a.qp.solve q lower upper warm
  let first ← Slice.read? solution.z.toArray 0 nu
  let firstMin ← Slice.read? inputMin.toArray 0 nu
  let firstMax ← Slice.read? inputMax.toArray 0 nu
  let control ← Slice.clamp? firstMin firstMax first
  return (solution, control)

end Assembly

end RecedingHorizon
