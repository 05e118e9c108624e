import RecedingHorizon.Qp.Solve

/-!
# Solving in place

The iteration over buffers that are allocated once. Each kernel overwrites some
of them and reads others, among them leftovers of earlier kernels: the image
`A x` is computed for the blend and read again by the residuals, the row scratch
holds three vectors in turn, and a finished right side changes places with the
point.
-/

namespace RecedingHorizon

namespace Qp

/-- The iterate and the buffers of one solve. -/
structure Workspace (S : Type) (n m : Nat) where
  x : Vec S n
  y : Vec S m
  w : Vec S m
  /-- The slack before the last step. -/
  slackBefore : Vec S m
  /-- `A x`. -/
  image : Vec S m
  /-- The blend of the image with the slack before it. -/
  relaxed : Vec S m
  rightSide : Vec S n
  rowScratch : Vec S m
  columnScratch : Vec S n
  residuals : Residuals S
  iterations : Nat

namespace Workspace

variable {S : Type} {n m : Nat} [Scalar S]

def iterate (b : Workspace S n m) : Iterate S n m where
  x := b.x
  w := b.w
  y := b.y

/-- Allocates the buffers for a start at `z` and `y`. -/
def load (s : Solver S n m) (d : Data S n m) (z : Vec S n) (y : Vec S m) : Workspace S n m :=
  let image := s.constraints.mulVec z
  let w := Vec.clamp d.lower d.upper image
  { x := z
    y := y
    w := w
    slackBefore := w
    image := image
    relaxed := Vec.zeros m
    rightSide := Vec.zeros n
    rowScratch := Vec.zeros m
    columnScratch := Vec.zeros n
    residuals := { primal := 0, dual := 0 }
    iterations := 0 }

/-- Solves for the next point. The solution changes places with the point. -/
def updatePrimal (s : Solver S n m) (d : Data S n m) (b : Workspace S n m) : Workspace S n m :=
  let b := { b with
    rowScratch := Vec.ofFn fun i => s.settings.rho * b.w.get i - b.y.get i }
  let b := { b with
    rightSide := Vec.ofFn fun j => s.settings.sigma * b.x.get j - d.q.get j }
  let b := { b with
    rightSide := b.rightSide.add (s.constraints.transposeMulVec b.rowScratch) }
  let b := { b with rightSide := s.factor.choleskySolve b.rightSide }
  { b with x := b.rightSide, rightSide := b.x }

/-- Blends the image of the new point with the slack before it. -/
def relax (s : Solver S n m) (b : Workspace S n m) : Workspace S n m :=
  let b := { b with image := s.constraints.mulVec b.x }
  let beta := 1 - s.settings.alpha
  { b with relaxed := Vec.ofFn fun i => s.settings.alpha * b.image.get i + beta * b.w.get i }

/-- Projects the shifted blend onto the box. The slack before is kept. -/
def updateSlack (s : Solver S n m) (d : Data S n m) (b : Workspace S n m) : Workspace S n m :=
  let b := { b with slackBefore := b.w }
  let b := { b with w := Vec.ofFn fun i => b.relaxed.get i + b.y.get i / s.settings.rho }
  { b with w := Vec.clamp d.lower d.upper b.w }

def updateDual (s : Solver S n m) (b : Workspace S n m) : Workspace S n m :=
  { b with y := Vec.ofFn fun i => b.y.get i + s.settings.rho * (b.relaxed.get i - b.w.get i) }

def updateResiduals (s : Solver S n m) (b : Workspace S n m) : Workspace S n m :=
  let b := { b with rowScratch := b.image.sub b.w }
  let b := { b with residuals := { b.residuals with primal := b.rowScratch.maxAbs } }
  let b := { b with rowScratch := b.w.sub b.slackBefore }
  let b := { b with columnScratch := s.constraints.transposeMulVec b.rowScratch }
  { b with residuals :=
      { b.residuals with dual := s.settings.rho * b.columnScratch.maxAbs } }

def step (s : Solver S n m) (d : Data S n m) (b : Workspace S n m) : Workspace S n m :=
  let b := b.updatePrimal s d
  let b := b.relax s
  let b := b.updateSlack s d
  let b := b.updateDual s
  let b := b.updateResiduals s
  { b with iterations := b.iterations + 1 }

/-- The buffers after `k` more iterations. -/
def run (s : Solver S n m) (d : Data S n m) (k : Nat) (b : Workspace S n m) : Workspace S n m :=
  Nat.repeat (step s d) k b

/-- What a solve reports of its buffers. -/
def solution (settings : Settings S) (b : Workspace S n m) : Solution S n m where
  z := b.x
  y := b.y
  w := b.w
  iterations := b.iterations
  residuals := b.residuals
  status := b.residuals.status settings

end Workspace

end Qp

end RecedingHorizon
