import RecedingHorizon.Fault
import RecedingHorizon.Scalar

/-!
# Solver settings

The parameters of the splitting iteration. The penalty and the regularization
enter the factored system, so a change of either needs a new factor. The
tolerances never end the iteration early; they only classify its answer.
-/

namespace RecedingHorizon

structure Settings (S : Type) where
  /-- Penalty on the distance between `A x` and its slack, positive. -/
  rho : S
  /-- Weight of the step from the previous iterate, not negative. -/
  sigma : S
  /-- Relaxation factor, strictly between zero and two. -/
  alpha : S
  /-- How many iterations every solve runs, at least one. -/
  maxIter : Nat
  primalTolerance : S
  dualTolerance : S
  deriving BEq

namespace Settings

variable {S : Type}

/-- The settings used where none are given. -/
def standard [OfScientific S] : Settings S where
  rho := 0.1
  sigma := 1e-4
  alpha := 1.6
  maxIter := 5
  primalTolerance := 1e-3
  dualTolerance := 1e-3

/-- The standard settings with other iteration parameters. -/
def withParameters [OfScientific S] (rho sigma alpha : S) (maxIter : Nat) : Settings S :=
  { standard with rho, sigma, alpha, maxIter }

/-- The control period of the reference plants, in seconds. -/
def standardPeriod [OfScientific S] : S := 0.02

variable [Scalar S]

/-- Refuses parameters that the iteration is not defined for. A zero `sigma`
passes: whether the unregularized system can be factored is for the
factorization to say. -/
def validate (s : Settings S) : Except (Fault S) Unit := do
  let require (sound : Bool) (name : String) (value : S) : Except (Fault S) Unit :=
    if Scalar.isFinite value && sound then .ok () else .error (.invalidParameter name value)
  require (!decide (s.rho ≤ 0)) "rho" s.rho
  require (!decide (s.sigma < 0)) "sigma" s.sigma
  require (!decide (s.alpha ≤ 0) && !decide (Scalar.two ≤ s.alpha)) "alpha" s.alpha
  if s.maxIter < 1 then .error (.invalidParameter "max_iter" 0) else .ok ()
  require (!decide (s.primalTolerance < 0)) "abs_pri_tol" s.primalTolerance
  require (!decide (s.dualTolerance < 0)) "abs_dua_tol" s.dualTolerance

end Settings

end RecedingHorizon
