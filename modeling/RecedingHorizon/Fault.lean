/-!
# Faults

Why a problem or one of its inputs is refused. Running out of iterations is
not a fault: a solve always answers, and its status says how far it came.
-/

namespace RecedingHorizon

/-- How the factorization of a system matrix breaks down. -/
inductive Breakdown
  /-- A pivot is zero, negative or not a number. -/
  | notPositiveDefinite
  /-- Every pivot passed, but the finished diagonal is not finite or not
  positive throughout. -/
  | degeneratePivot
  deriving BEq, DecidableEq, Repr

/-- The cause of a refusal. Parameters out of range are kept as scalars. -/
inductive Fault (S : Type)
  | dimensionMismatch (what : String) (expected got : Nat)
  | notSquare (what : String) (rows cols : Nat)
  | notSymmetric (what : String)
  | nonFinite (what : String)
  | invalidBounds (what : String) (index : Nat)
  | invalidParameter (name : String) (value : S)
  | invalidHorizon (horizon : Nat)
  | factorization (dim : Nat) (cause : Breakdown)
  deriving BEq

namespace Fault

variable {S : Type}

/-- The wording of a fault, given the text of a parameter's value. -/
def message (text : S → String) : Fault S → String
  | dimensionMismatch what expected got =>
    s!"dimension mismatch for {what}: expected {expected}, got {got}"
  | notSquare what rows cols => s!"{what} must be square, got {rows}x{cols}"
  | notSymmetric what => s!"{what} must be symmetric"
  | nonFinite what => s!"{what} contains non-finite entries"
  | invalidBounds what index =>
    s!"invalid bounds for {what} at index {index}: lower bound exceeds upper bound"
  | invalidParameter name value =>
    let shown := text value
    s!"invalid value for {name}: {shown}"
  | invalidHorizon horizon => s!"horizon must be at least 1, got {horizon}"
  | factorization dim _ =>
    s!"factorization of the {dim}x{dim} ADMM system matrix failed (not positive definite)"

end Fault

end RecedingHorizon
