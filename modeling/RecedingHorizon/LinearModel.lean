import RecedingHorizon.Check

/-!
# Linear models and stage costs

The plant `x⁺ = A x + B u` and the quadratic weights `xᵀ Q x + uᵀ R u` of one
stage.
-/

namespace RecedingHorizon

/-- A model of `nx` states and `nu` inputs. -/
structure LinearModel (S : Type) (nx nu : Nat) where
  A : Mat S nx nx
  B : Mat S nx nu

namespace LinearModel

variable {S : Type} [Scalar S]

/-- A model from matrices of any shapes; their entries have to be finite. -/
def ofGrids (A B : Grid S) : Except (Fault S) (LinearModel S A.rows B.cols) := do
  let square ← Check.square "A" A
  if h : B.rows = A.rows then
    Check.finiteEntries "A" square
    Check.finiteEntries "B" B.entries
    return { A := square, B := B.entries.cast h rfl }
  else
    .error (.dimensionMismatch "rows of B" A.rows B.rows)

variable {nx nu : Nat}

/-- The state after `x` under the input `u`. -/
def next (model : LinearModel S nx nu) (x : Vec S nx) (u : Vec S nu) : Vec S nx :=
  (model.A.mulVec x).add (model.B.mulVec u)

/-- The next state for vectors of any lengths. -/
def step (model : LinearModel S nx nu) (x u : Array S) : Except (Fault S) (Vec S nx) := do
  let x ← Check.length "x" x nx
  let u ← Check.length "u" u nu
  return model.next x u

end LinearModel

/-- The weights of one stage, for states of dimension `p` and inputs of
dimension `r`. -/
structure StageCost (S : Type) (p r : Nat) where
  Q : Mat S p p
  R : Mat S r r

namespace StageCost

variable {S : Type} [Scalar S]

/-- Weights from matrices of any shapes. Each has to be square, finite and
symmetric; the state weight is judged first. -/
def ofGrids (Q R : Grid S) : Except (Fault S) (StageCost S Q.rows R.rows) := do
  let state ← weight "Q" Q
  let input ← weight "R" R
  return { Q := state, R := input }
where
  weight (what : String) (M : Grid S) : Except (Fault S) (Mat S M.rows M.rows) := do
    let square ← Check.square what M
    Check.finiteEntries what square
    Check.symmetric what square
    return square

/-- Diagonal weights, taken as they are. -/
def diagonal (q r : Array S) : StageCost S q.size r.size where
  Q := .diagonal q.toVector
  R := .diagonal r.toVector

end StageCost

end RecedingHorizon
