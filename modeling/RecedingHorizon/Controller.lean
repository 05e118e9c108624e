import RecedingHorizon.InputBounds
import RecedingHorizon.Prediction
import RecedingHorizon.Qp.Solve
import RecedingHorizon.Reference

/-!
# Receding-horizon control

Building a controller eliminates the predicted states, which leaves a
quadratic program in the stacked inputs alone:

* cost matrix `Fᵀ Q̂ F + R̂`, with the stage weights along block diagonals;
* constraint matrix: the identity above the first differences;
* linear cost `Fᵀ Q̂ (E x - x̂ref) - R̂ ûref`.

Only the linear cost and the bounds depend on the measured state and on the
reference, so an action reuses the factor of the build.
-/

namespace RecedingHorizon

/-- A controller for `nx` states and `nu` inputs over `N` stages. -/
structure Controller (S : Type) (nx nu N : Nat) where
  stages_pos : 0 < N
  /-- The control period in seconds. -/
  period : S
  model : LinearModel S nx nu
  prediction : Prediction S (N * nx) nx (N * nu)
  stateWeight : Mat S (N * nx) (N * nx)
  inputWeight : Mat S (N * nu) (N * nu)
  differences : Mat S ((N - 1) * nu) (N * nu)
  /-- The transpose of `F` times the state weight. -/
  gradient : Mat S (N * nu) (N * nx)
  qp : Qp.Solver S (N * nu) (N * nu + (N - 1) * nu)

/-- The answer to one measured state. -/
structure Action (S : Type) (nu N : Nat) where
  solution : Qp.Solution S (N * nu) (N * nu + (N - 1) * nu)
  /-- The input to apply now: the first block of the solution, clamped to the
  bounds of the first stage. -/
  control : Vec S nu

/-- The start for the next action. -/
def Action.warmStart {S : Type} {nu N : Nat} (a : Action S nu N) : WarmStart S :=
  a.solution.warmStart

namespace Controller

variable {S : Type} {nx nu p r N : Nat} [Scalar S]

/-- The cost matrix of the stacked inputs, freed of rounding asymmetry. -/
def hessian (gradient : Mat S (N * nu) (N * nx)) (F : Mat S (N * nx) (N * nu))
    (inputWeight : Mat S (N * nu) (N * nu)) : Mat S (N * nu) (N * nu) :=
  let cost := (gradient.mul F).add inputWeight
  (cost.add cost.transpose).scale Scalar.half

/-- Builds from weights that fit the model. -/
def assemble (stages_pos : 0 < N) (model : LinearModel S nx nu) (cost : StageCost S nx nu)
    (settings : Settings S) (period : S) : Except (Fault S) (Controller S nx nu N) := do
  let prediction := Prediction.unroll model N
  let stateWeight := cost.Q.blockDiagonal N
  let inputWeight := cost.R.blockDiagonal N
  let gradient := prediction.F.transposeMul stateWeight
  let differences := Mat.differences nu N
  let qp ← Qp.Solver.setup (hessian gradient prediction.F inputWeight)
    differences.boxAbove settings
  return {
    stages_pos, period, model, prediction, stateWeight, inputWeight, differences, gradient, qp }

/-- Builds a controller. The horizon is judged first, then the period, then
the sizes of the weights. -/
def build (N : Nat) (model : LinearModel S nx nu) (cost : StageCost S p r)
    (settings : Settings S) (period : S) : Except (Fault S) (Controller S nx nu N) :=
  if stages_pos : 0 < N then do
    Check.positive "dt" period
    if hx : p = nx then
      if hu : r = nu then
        assemble stages_pos model { Q := cost.Q.cast hx hx, R := cost.R.cast hu hu }
          settings period
      else
        .error (.dimensionMismatch "R" nu r)
    else
      .error (.dimensionMismatch "Q" nx p)
  else
    .error (.invalidHorizon N)

/-- The zero start of this controller. -/
def coldStart (_ : Controller S nx nu N) : WarmStart S :=
  .cold (N * nu) (N * nu + (N - 1) * nu)

/-- `Fᵀ Q̂ (E x - x̂ref) - R̂ ûref`. -/
def tracking (c : Controller S nx nu N) (x : Vec S nx) (states : Vec S (N * nx))
    (inputs : Vec S (N * nu)) : Vec S (N * nu) :=
  let deviation := (c.prediction.E.mulVec x).sub states
  (c.gradient.mulVec deviation).sub (c.inputWeight.mulVec inputs)

/-- The linear cost of following a reference from the state `x`. -/
def linearCost (c : Controller S nx nu N) (x : Array S) (ref : Reference S) :
    Except (Fault S) (Vec S (N * nu)) := do
  let x ← Check.length "x_k" x nx
  let states ← Check.length "x_ref_hat" ref.states (N * nx)
  let inputs ← Check.length "u_ref_hat" ref.inputs (N * nu)
  return c.tracking x states inputs

/-- One step of receding-horizon control from the measured state `x`. -/
def action (c : Controller S nx nu N) (x : Array S) (ref : Reference S)
    (bounds : InputBounds S) (warm : WarmStart S) : Except (Fault S) (Action S nu N) := do
  let inputMin ← Check.length "u_min_hat" bounds.inputMin (N * nu)
  let inputMax ← Check.length "u_max_hat" bounds.inputMax (N * nu)
  let _ ← Check.length "du_min_hat" bounds.rateMin ((N - 1) * nu)
  let _ ← Check.length "du_max_hat" bounds.rateMax ((N - 1) * nu)
  let q ← c.linearCost x ref
  let solution ← c.qp.solve q.toArray bounds.lower bounds.upper warm
  let now : Fin N := ⟨0, c.stages_pos⟩
  return {
    solution
    control := Vec.clamp (inputMin.block now) (inputMax.block now) (solution.z.block now) }

end Controller

end RecedingHorizon
