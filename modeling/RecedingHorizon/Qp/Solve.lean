import RecedingHorizon.Qp.Iterate

/-!
# Solving a prepared program

A solve checks its data, runs the demanded number of iterations and reports
the last iterate with its residuals. The tolerances only decide the status.
-/

namespace RecedingHorizon

/-- What a finished solve says of its residuals. -/
inductive SolveStatus
  | converged
  | maxIterReached
  deriving BEq, DecidableEq

/-- The point and the multipliers that a solve starts from. -/
structure WarmStart (S : Type) where
  z : Array S
  y : Array S

/-- The all-zero start. -/
def WarmStart.cold {S : Type} [Scalar S] (n m : Nat) : WarmStart S where
  z := (Vec.zeros n).toArray
  y := (Vec.zeros m).toArray

namespace Qp

structure Solution (S : Type) (n m : Nat) where
  z : Vec S n
  /-- The multipliers of the constraint rows. -/
  y : Vec S m
  /-- The slack, inside the bounds. -/
  w : Vec S m
  iterations : Nat
  residuals : Residuals S
  status : SolveStatus

/-- The start for the next solve. -/
def Solution.warmStart {S : Type} {n m : Nat} (sol : Solution S n m) : WarmStart S where
  z := sol.z.toArray
  y := sol.y.toArray

variable {S : Type} {n m : Nat} [Scalar S]

/-- The status of residuals under the tolerances of the settings. -/
def Residuals.status (r : Residuals S) (settings : Settings S) : SolveStatus :=
  if r.primal ≤ settings.primalTolerance ∧ r.dual ≤ settings.dualTolerance then
    .converged
  else
    .maxIterReached

namespace Solver

/-- The answer after `k + 1` steps from the start. -/
def answer (s : Solver S n m) (d : Data S n m) (z : Vec S n) (y : Vec S m) (k : Nat) :
    Solution S n m :=
  let before := s.run d k (s.start d z y)
  let after := s.step d before
  let residuals := s.residuals before after
  { z := after.x
    y := after.y
    w := after.w
    iterations := k + 1
    residuals := residuals
    status := residuals.status s.settings }

/-- Solves with a given number of iterations. Lengths are judged before
entries and entries before the order of the bounds. -/
def solveWith (s : Solver S n m) (q lower upper : Array S) (warm : WarmStart S)
    (iterations : Nat) : Except (Fault S) (Solution S n m) :=
  match iterations with
  | 0 => .error (.invalidParameter "max_iter" 0)
  | k + 1 => do
    let q ← Check.length "q" q n
    let lower ← Check.length "l" lower m
    let upper ← Check.length "u" upper m
    let z ← Check.length "warm start z" warm.z n
    let y ← Check.length "warm start y" warm.y m
    Check.finite "q" q
    Check.finite "warm start z" z
    Check.finite "warm start y" y
    Check.ordered "l, u" lower upper
    return s.answer { q, lower, upper } z y k

/-- Solves with the number of iterations of the settings. -/
def solve (s : Solver S n m) (q lower upper : Array S) (warm : WarmStart S) :
    Except (Fault S) (Solution S n m) :=
  s.solveWith q lower upper warm s.settings.maxIter

end Solver

end Qp

end RecedingHorizon
