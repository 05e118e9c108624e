import RecedingHorizon.ClosedLoop
import RecedingHorizon.MachineScalar

/-!
# The journal

What an observer is told of a setup, a solve or an action. Every record is a
function of the outcome, so the computations themselves carry no log.
-/

namespace RecedingHorizon

inductive Level
  | warn
  | debug
  | trace
  deriving BEq, DecidableEq

/-- Something worth telling. -/
inductive Event (S : Type)
  | breakdown (dim : Nat) (cause : Breakdown)
  | prepared (n m : Nat) (rho sigma : S)
  | built (nx nu horizon : Nat) (period : S) (n m : Nat)
  | solved (iterations : Nat) (residuals : Qp.Residuals S) (status : SolveStatus)
  | acted (control : List S) (residuals : Qp.Residuals S)

namespace Event

variable {S : Type}

def level : Event S → Level
  | breakdown .. => .warn
  | prepared .. => .debug
  | built .. => .debug
  | solved .. => .trace
  | acted .. => .trace

def statusText : SolveStatus → String
  | .converged => "Converged"
  | .maxIterReached => "MaxIterReached"

/-- The wording of a record, given the text of a scalar. -/
def message (text : S → String) : Event S → String
  | breakdown dim .notPositiveDefinite =>
    s!"ADMM system matrix ({dim}x{dim}) is not positive definite"
  | breakdown dim .degeneratePivot =>
    s!"ADMM system matrix ({dim}x{dim}) has a degenerate pivot"
  | prepared n m rho sigma =>
    let penalty := text rho
    let weight := text sigma
    s!"QP setup: n = {n}, m = {m}, rho = {penalty}, sigma = {weight}"
  | built nx nu horizon period n m =>
    let seconds := text period
    s!"MPC build: nx = {nx}, nu = {nu}, N = {horizon}, dt = {seconds}, " ++
      s!"QP {n}x{n} with {m} constraints"
  | solved iterations residuals status =>
    let primal := text residuals.primal
    let dual := text residuals.dual
    let verdict := statusText status
    s!"QP solve: {iterations} iterations, r_prim = {primal}, r_dual = {dual}, {verdict}"
  | acted control residuals =>
    let inputs := ", ".intercalate (control.map text)
    let primal := text residuals.primal
    let dual := text residuals.dual
    s!"MPC action: u0 = [{inputs}], r_prim = {primal}, r_dual = {dual}"

/-- The records of a refusal: only a breakdown of the factorization leaves
one. -/
def ofFault : Fault S → List (Event S)
  | .factorization dim cause => [breakdown dim cause]
  | _ => []

/-- The records of an outcome, given those of a success. -/
def ofOutcome {α : Type} (success : α → List (Event S)) : Except (Fault S) α → List (Event S)
  | .error fault => ofFault fault
  | .ok a => success a

def ofSolver {n m : Nat} (s : Qp.Solver S n m) : List (Event S) :=
  [prepared n m s.settings.rho s.settings.sigma]

def ofController {nx nu N : Nat} (c : Controller S nx nu N) : List (Event S) :=
  ofSolver c.qp ++ [built nx nu N c.period (N * nu) (N * nu + (N - 1) * nu)]

def ofSolution {n m : Nat} (sol : Qp.Solution S n m) : List (Event S) :=
  [solved sol.iterations sol.residuals sol.status]

def ofAction {nu N : Nat} (a : Action S nu N) : List (Event S) :=
  ofSolution a.solution ++ [acted a.control.toList a.solution.residuals]

def ofRun {nu N : Nat} (r : ClosedLoop.Run S nu N) : List (Event S) :=
  r.rounds.flatMap (fun round => ofAction round.action) ++ (r.fault.map ofFault).getD []

end Event

end RecedingHorizon
