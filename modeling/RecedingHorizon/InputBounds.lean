import RecedingHorizon.Check
import RecedingHorizon.Linear.Stages

/-!
# Input bounds over the horizon

Every stage bounds the input, and every transition between neighbouring stages
bounds its change. The constraint matrix stacks the identity above the first
differences, so that the rows line up with the stacked bounds: `N` boxes, then
`N - 1` rate boxes.
-/

namespace RecedingHorizon

/-- Stacked bounds. The fields are open: a controller judges them each time it
is given some. -/
structure InputBounds (S : Type) where
  inputMin : Array S
  inputMax : Array S
  rateMin : Array S
  rateMax : Array S

namespace InputBounds

variable {S : Type} [Scalar S]

/-- Bounds whose lengths match in pairs and whose lower sides do not exceed
the upper ones. -/
def ofStacked (inputMin inputMax rateMin rateMax : Array S) :
    Except (Fault S) (InputBounds S) := do
  let boxMax ← Check.length "u_max_hat" inputMax inputMin.size
  let changeMax ← Check.length "du_max_hat" rateMax rateMin.size
  Check.ordered "u_min_hat, u_max_hat" inputMin.toVector boxMax
  Check.ordered "du_min_hat, du_max_hat" rateMin.toVector changeMax
  return { inputMin, inputMax, rateMin, rateMax }

/-- The same bounds at each of `N` stages and each of `N - 1` transitions. -/
def ofStage (inputMin inputMax rateMin rateMax : Array S) (N : Nat) :
    Except (Fault S) (InputBounds S) := do
  if N < 1 then .error (.invalidHorizon N)
  let nu := inputMin.size
  let _ ← Check.length "u_max" inputMax nu
  let _ ← Check.length "du_min" rateMin nu
  let _ ← Check.length "du_max" rateMax nu
  ofStacked (tile inputMin N) (tile inputMax N) (tile rateMin (N - 1)) (tile rateMax (N - 1))

/-- Infinite bounds everywhere. -/
def unbounded (nu N : Nat) : InputBounds S where
  inputMin := .replicate (N * nu) (-Scalar.infinity)
  inputMax := .replicate (N * nu) Scalar.infinity
  rateMin := .replicate ((N - 1) * nu) (-Scalar.infinity)
  rateMax := .replicate ((N - 1) * nu) Scalar.infinity

/-- The lower sides, boxes first. -/
def lower (b : InputBounds S) : Array S := b.inputMin ++ b.rateMin

/-- The upper sides, boxes first. -/
def upper (b : InputBounds S) : Array S := b.inputMax ++ b.rateMax

end InputBounds

namespace Mat

variable {S : Type} [Scalar S]

/-- The first differences of stacked inputs: block `k` of the image is
`u_{k+1} - u_k`. -/
def differences (nu N : Nat) : Mat S ((N - 1) * nu) (N * nu) :=
  ofFn fun i j =>
    if (j : Nat) = i then -1 else if (j : Nat) = i + nu then 1 else 0

/-- The identity above a matrix of rate rows. -/
def boxAbove {k n : Nat} (rates : Mat S k n) : Mat S (n + k) n := (identity n).above rates

end Mat

end RecedingHorizon
