import RecedingHorizon.Check
import RecedingHorizon.Linear.Cholesky
import RecedingHorizon.Settings

/-!
# Quadratic programs with a factored system

A solver holds what stays fixed between solves of

  minimize `½ zᵀ P z + qᵀ z` subject to `l ≤ A z ≤ u`:

the two matrices, the settings, and the lower triangular factor of the system
matrix `P + σ I + ρ Aᵀ A`.
-/

namespace RecedingHorizon

namespace Qp

/-- A program of `n` variables and `m` constraint rows, ready to be solved. -/
structure Solver (S : Type) (n m : Nat) where
  cost : Mat S n n
  constraints : Mat S m n
  settings : Settings S
  /-- The lower triangular factor of the system matrix. -/
  factor : Mat S n n

variable {S : Type} {n m : Nat} [Scalar S]

/-- `P + ρ Aᵀ A + σ I`. -/
def systemMatrix (cost : Mat S n n) (constraints : Mat S m n) (rho sigma : S) : Mat S n n :=
  (cost.add ((constraints.transposeMul constraints).scale rho)).shift sigma

/-- The factor of the system matrix. It is handed out only when its diagonal
is finite and positive throughout. -/
def factorize (cost : Mat S n n) (constraints : Mat S m n) (rho sigma : S) :
    Except (Fault S) (Mat S n n) :=
  match (systemMatrix cost constraints rho sigma).cholesky with
  | none => .error (.factorization n .notPositiveDefinite)
  | some L =>
    if L.hasSoundDiagonal then .ok L else .error (.factorization n .degeneratePivot)

namespace Solver

/-- Prepares a program whose shapes agree and whose settings were validated. -/
def prepare (cost : Mat S n n) (constraints : Mat S m n) (settings : Settings S) :
    Except (Fault S) (Solver S n m) := do
  Check.finiteEntries "P" cost
  Check.finiteEntries "A" constraints
  Check.symmetric "P" cost
  let factor ← factorize cost constraints settings.rho settings.sigma
  return { cost, constraints, settings, factor }

/-- Prepares a program whose shapes agree. -/
def setup (cost : Mat S n n) (constraints : Mat S m n) (settings : Settings S) :
    Except (Fault S) (Solver S n m) := do
  settings.validate
  prepare cost constraints settings

/-- Prepares a program from matrices of any shapes. The settings are judged
first, then the shapes, then the entries. -/
def ofGrids (cost constraints : Grid S) (settings : Settings S) :
    Except (Fault S) (Solver S cost.rows constraints.rows) := do
  settings.validate
  let square ← Check.square "P" cost
  if h : constraints.cols = cost.rows then
    prepare square (constraints.entries.castCols h) settings
  else
    .error (.dimensionMismatch "columns of A" cost.rows constraints.cols)

/-- `½ zᵀ P z + qᵀ z`. -/
def objective (s : Solver S n m) (z q : Vec S n) : S :=
  (s.cost.transposeMulVec z).dot z * Scalar.half + q.dot z

/-- The objective at vectors of any lengths; nothing when one does not fit. -/
def objective? (s : Solver S n m) (z q : Array S) : Option S :=
  if hz : z.size = n then
    if hq : q.size = n then some (s.objective ⟨z, hz⟩ ⟨q, hq⟩) else none
  else
    none

end Solver

end Qp

end RecedingHorizon
