import RecedingHorizon.Linear.Stages

/-!
# References

The states and inputs that the plant is to follow over one horizon. State
`k` of the reference belongs to the end of stage `k`, input `k` to its start.
-/

namespace RecedingHorizon

structure Reference (S : Type) where
  states : Array S
  inputs : Array S

/-- One set point held over `N` stages. -/
def Reference.constant {S : Type} (x u : Array S) (N : Nat) : Reference S where
  states := tile x N
  inputs := tile u N

end RecedingHorizon
