import RecedingHorizon.Qp.Solver

/-!
# The splitting iteration

Alternating directions with over-relaxation. An iterate carries the primal
point `x`, the slack `w`, which stands for `A x` and always lies in the box,
and the multipliers `y` of the constraint rows. One step is a pure function of
the iterate; a run repeats it a fixed number of times.
-/

namespace RecedingHorizon

namespace Qp

/-- The linear cost and the bounds of one solve. -/
structure Data (S : Type) (n m : Nat) where
  q : Vec S n
  lower : Vec S m
  upper : Vec S m

structure Iterate (S : Type) (n m : Nat) where
  x : Vec S n
  w : Vec S m
  y : Vec S m

/-- How far an iterate is from standing still: the largest entry of
`A x - w`, and the largest entry of `ρ Aᵀ (w - w')` against the slack `w'` of
the iterate before. -/
structure Residuals (S : Type) where
  primal : S
  dual : S

namespace Solver

variable {S : Type} {n m : Nat} [Scalar S]

/-- The first iterate: the slack is the projection of `A z` onto the box. -/
def start (s : Solver S n m) (d : Data S n m) (z : Vec S n) (y : Vec S m) : Iterate S n m where
  x := z
  w := Vec.clamp d.lower d.upper (s.constraints.mulVec z)
  y := y

/-- `σ x - q + Aᵀ (ρ w - y)`. -/
def rightSide (s : Solver S n m) (d : Data S n m) (it : Iterate S n m) : Vec S n :=
  let pull := s.constraints.transposeMulVec
    (Vec.ofFn fun i => s.settings.rho * it.w.get i - it.y.get i)
  Vec.ofFn fun j => s.settings.sigma * it.x.get j - d.q.get j + pull.get j

/-- The blend `α A x + (1 - α) w` of a new point with the slack before it. -/
def relax (s : Solver S n m) (x : Vec S n) (w : Vec S m) : Vec S m :=
  let image := s.constraints.mulVec x
  Vec.ofFn fun i => s.settings.alpha * image.get i + (1 - s.settings.alpha) * w.get i

/-- Solves for the next point, relaxes, projects the shifted blend onto the
box and moves the multipliers by what the projection cut off. -/
def step (s : Solver S n m) (d : Data S n m) (it : Iterate S n m) : Iterate S n m :=
  let x := s.factor.choleskySolve (s.rightSide d it)
  let r := s.relax x it.w
  let w := Vec.clamp d.lower d.upper
    (Vec.ofFn fun i => r.get i + it.y.get i / s.settings.rho)
  let y := Vec.ofFn fun i => it.y.get i + s.settings.rho * (r.get i - w.get i)
  { x, w, y }

/-- The iterate after `k` steps. -/
def run (s : Solver S n m) (d : Data S n m) (k : Nat) (it : Iterate S n m) : Iterate S n m :=
  Nat.repeat (s.step d) k it

/-- The residuals of the step from `before` to `after`. -/
def residuals (s : Solver S n m) (before after : Iterate S n m) : Residuals S where
  primal := ((s.constraints.mulVec after.x).sub after.w).maxAbs
  dual := s.settings.rho * (s.constraints.transposeMulVec (after.w.sub before.w)).maxAbs

end Solver

end Qp

end RecedingHorizon
