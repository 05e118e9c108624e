import RecedingHorizon.Controller

/-!
# The closed loop

A controller and its plant in alternation: act on the measured state, apply
the control to the plant, and start the next action from the last answer
unless another start is asked for.
-/

namespace RecedingHorizon

namespace ClosedLoop

/-- What one round is asked for. -/
structure Demand (S : Type) where
  reference : Reference S
  bounds : InputBounds S
  /-- Where the action starts; without it, from the last answer. -/
  start : Option (WarmStart S) := none

/-- What one round hands to the next. -/
structure State (S : Type) where
  plant : Array S
  warm : WarmStart S

/-- A finished round: the action and the state that it led to. -/
structure Round (S : Type) (nu N : Nat) where
  action : Action S nu N
  after : State S

variable {S : Type} {nx nu N : Nat} [Scalar S]

/-- One round from a state. -/
def round (c : Controller S nx nu N) (d : Demand S) (s : State S) :
    Except (Fault S) (Round S nu N) := do
  let action ← c.action s.plant d.reference d.bounds (d.start.getD s.warm)
  let plant ← c.model.step s.plant action.control.toArray
  return { action, after := { plant := plant.toArray, warm := action.warmStart } }

/-- The rounds that a loop went through, and the fault that ended it early, if
one did. -/
structure Run (S : Type) (nu N : Nat) where
  rounds : List (Round S nu N)
  fault : Option (Fault S)

/-- One round for each demand, up to the first fault. -/
def run (c : Controller S nx nu N) : List (Demand S) → State S → Run S nu N
  | [], _ => { rounds := [], fault := none }
  | d :: ds, s =>
    match round c d s with
    | .error fault => { rounds := [], fault := some fault }
    | .ok r =>
      let rest := run c ds r.after
      { rest with rounds := r :: rest.rounds }

end ClosedLoop

end RecedingHorizon
