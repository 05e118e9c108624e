import Mathlib.Algebra.Order.Star.Real
import RecedingHorizon.Proofs.Acceptance
import RecedingHorizon.Proofs.Box
import RecedingHorizon.Proofs.CholeskyFactor

/-!
# Quadratic programs over the reals

A `Problem` is the program

  minimize `½ zᵀ P z + qᵀ z` subject to `l ≤ A z ≤ u`

with real data and bounds that may be infinite outward. `Problem.setup` and
`Solver.solveProblem` hand it to a solver. A setup with a symmetric `P` leaves the
solver with the factor of `P + ρ AᵀA + σ I` (`Problem.isFactored_of_setup`), and every
solve of a real start is accepted (`Solver.IsFactored.solveProblem_eq_ok`). When `P` passes
for symmetric without being so, the factor is that of the mirrored lower triangle
(`Problem.isFactored_mirrored_of_setup`).
-/

namespace RecedingHorizon

namespace Qp

open Extended Matrix

structure Problem (n m : ℕ) where
  P : Matrix (Fin n) (Fin n) ℝ
  A : Matrix (Fin m) (Fin n) ℝ
  q : Fin n → ℝ
  box : Box m

namespace Problem

variable {n m : ℕ} (p : Problem n m)

noncomputable def objective (z : Fin n → ℝ) : ℝ := 0.5 * (z ⬝ᵥ p.P *ᵥ z) + p.q ⬝ᵥ z

/-- The first-order conditions: the gradient of the Lagrangian vanishes, `A z` lies in
the box, and a multiplier that is not zero sits on the bound to which it points. -/
structure IsKKT (z : Fin n → ℝ) (y : Fin m → ℝ) : Prop where
  stationary : p.P *ᵥ z + p.q + p.Aᵀ *ᵥ y = 0
  normal : p.box.IsNormal (p.A *ᵥ z) y

variable {p} in
theorem objective_le_add (hP : p.P.PosSemidef) (z z' : Fin n → ℝ) :
    p.objective z ≤ p.objective z' + (p.P *ᵥ z + p.q) ⬝ᵥ (z - z') := by
  have hSymm : p.P.IsSymm := by simpa using hP.isHermitian
  have hForm : 0 ≤ (z - z') ⬝ᵥ p.P *ᵥ (z - z') := by simpa using hP.dotProduct_mulVec_nonneg (z - z')
  have hCross : z ⬝ᵥ p.P *ᵥ z' = z' ⬝ᵥ p.P *ᵥ z := dot_mulVec_comm hSymm z z'
  have hGradient : (p.P *ᵥ z + p.q) ⬝ᵥ (z - z') =
      z ⬝ᵥ p.P *ᵥ z - z' ⬝ᵥ p.P *ᵥ z + (p.q ⬝ᵥ z - p.q ⬝ᵥ z') := by
    rw [add_dotProduct, dotProduct_sub, dotProduct_sub, dotProduct_comm _ z, dotProduct_comm _ z']
  rw [mulVec_sub, sub_dotProduct, dotProduct_sub, dotProduct_sub, hCross] at hForm
  unfold objective
  rw [hGradient]
  linarith

/-- `P + ρ AᵀA + σ I`. -/
def system (t : Settings ℝ) : Matrix (Fin n) (Fin n) ℝ :=
  p.P + t.rho • (p.Aᵀ * p.A) + t.sigma • (1 : Matrix (Fin n) (Fin n) ℝ)

variable {p} in
theorem system_isSymm (hP : p.P.IsSymm) (t : Settings ℝ) : (p.system t).IsSymm := by
  rw [Matrix.IsSymm, system, transpose_add, transpose_add, transpose_smul, transpose_smul,
    transpose_mul, transpose_transpose, transpose_one, hP.eq]

variable {p} in
/-- A positive semidefinite cost makes the system positive definite, when it is
regularised. -/
theorem system_posDef {t : Settings ℝ} (hP : p.P.PosSemidef) (hRho : 0 ≤ t.rho) (hSigma : 0 < t.sigma) :
    (p.system t).PosDef := by
  have hGram : (p.Aᵀ * p.A).PosSemidef := by
    simpa using posSemidef_conjTranspose_mul_self p.A
  exact (PosDef.one.smul hSigma).posSemidef_add (hP.add (hGram.smul hRho))

/-- The linear cost and the bounds as a solver takes them. -/
def data : Data Extended n m where
  q := Vec.ofReal p.q
  lower := p.box.lower
  upper := p.box.upper

/-- The problem with the symmetric cost that has the lower triangle of `P`. -/
def mirrored : Problem n m := { p with P := Mat.mirror p.P }

variable {p} in
theorem mirrored_eq_self (hP : p.P.IsSymm) : p.mirrored = p := by
  rw [mirrored, Mat.mirror_eq_self hP]

noncomputable def setup [Precision] (t : Settings ℝ) : Except (Fault Extended) (Solver Extended n m) :=
  Solver.setup (Mat.ofReal p.P) (Mat.ofReal p.A) t.ofReal

end Problem

namespace Solver

variable {n m : ℕ}

/-- Solves a problem from the point `z` and the multipliers `y` with `k` iterations. -/
noncomputable def solveProblem [Precision] (s : Solver Extended n m) (p : Problem n m)
    (z : Fin n → ℝ) (y : Fin m → ℝ) (k : ℕ) : Except (Fault Extended) (Solution Extended n m) :=
  s.solveWith (Vec.ofReal p.q).toArray p.box.lower.toArray p.box.upper.toArray
    { z := (Vec.ofReal z).toArray, y := (Vec.ofReal y).toArray } k

/-- The solver holds the matrices of the problem, valid settings and the factor of the
system matrix. -/
structure IsFactored (s : Solver Extended n m) (p : Problem n m) (t : Settings ℝ) : Prop where
  cost : s.cost = Mat.ofReal p.P
  constraints : s.constraints = Mat.ofReal p.A
  settings : s.settings = t.ofReal
  valid : t.IsValid
  factor : ∃ R, s.factor = Mat.ofReal R ∧ IsCholeskyFactor R (p.system t)

/-- The factor does not depend on the linear cost and the bounds. -/
theorem IsFactored.with_data {s : Solver Extended n m} {p : Problem n m} {t : Settings ℝ}
    (h : s.IsFactored p t) (q : Fin n → ℝ) (box : Box m) : s.IsFactored { p with q, box } t :=
  ⟨h.cost, h.constraints, h.settings, h.valid, h.factor⟩

end Solver

section Solvers

variable [Precision] {n m : ℕ} {p : Problem n m} {t : Settings ℝ} {s : Solver Extended n m}

theorem systemMatrix_ofReal (p : Problem n m) (t : Settings ℝ) :
    systemMatrix (Mat.ofReal p.P) (Mat.ofReal p.A) (finite t.rho) (finite t.sigma) =
      Mat.ofReal (p.system t) := by
  rw [systemMatrix, Mat.transposeMul_ofReal, Mat.scale_ofReal, Mat.add_ofReal, Mat.shift_ofReal,
    Problem.system]

namespace Problem

theorem cholesky_system_mirrored (p : Problem n m) (t : Settings ℝ) :
    (Mat.ofReal (p.system t)).cholesky = (Mat.ofReal (p.mirrored.system t)).cholesky := by
  apply Mat.cholesky_eq_of_lower
  intro i j hij
  rw [Mat.entry_ofReal, Mat.entry_ofReal, system, system]
  simp only [Matrix.add_apply, mirrored, Mat.mirror_apply_of_le _ hij]

/-- The factor of a setup is that of the system with the mirrored cost. -/
theorem cholesky_of_setup (hs : p.setup t = .ok s) :
    (Mat.ofReal (p.mirrored.system t)).cholesky = some s.factor := by
  obtain ⟨-, -, -, -, L, hFactor, rfl⟩ := Solver.setup_eq_ok_iff.mp hs
  rw [factorize_eq_ok_iff] at hFactor
  change (systemMatrix (Mat.ofReal p.P) (Mat.ofReal p.A) (finite t.rho)
    (finite t.sigma)).cholesky = some L ∧ _ at hFactor
  rw [systemMatrix_ofReal, cholesky_system_mirrored] at hFactor
  exact hFactor.1

/-- A solve reads the cost matrix through the factor alone, so it solves the mirrored problem. -/
theorem isFactored_mirrored_of_setup (hs : p.setup t = .ok s) :
    ({ s with cost := Mat.ofReal p.mirrored.P } : Solver Extended n m).IsFactored p.mirrored t := by
  have hFactor := cholesky_of_setup hs
  obtain ⟨hValid, -, -, -, L, -, rfl⟩ := Solver.setup_eq_ok_iff.mp hs
  exact {
    cost := rfl
    constraints := rfl
    settings := rfl
    valid := Settings.validate_ofReal_eq_ok_iff.mp hValid
    factor := Mat.cholesky_ofReal (system_isSymm (Mat.mirror_isSymm p.P) t) hFactor }

theorem isFactored_of_setup (hs : p.setup t = .ok s) (hP : p.P.IsSymm) : s.IsFactored p t := by
  have hFactored := isFactored_mirrored_of_setup hs
  rw [mirrored_eq_self hP] at hFactored
  obtain ⟨-, -, -, -, L, -, rfl⟩ := Solver.setup_eq_ok_iff.mp hs
  exact hFactored

/-- A setup with a cost that passes for symmetric, valid settings and a positive definite system
succeeds. -/
theorem exists_setup_of_isNearlySymmetric (hP : (Mat.ofReal p.P).isNearlySymmetric = true)
    (hValid : t.IsValid) (hSystem : (p.mirrored.system t).PosDef) : ∃ s, p.setup t = .ok s := by
  obtain ⟨L, hL⟩ := Mat.exists_cholesky_of_posDef hSystem
  obtain ⟨R, rfl, hR⟩ := Mat.cholesky_ofReal (system_isSymm (Mat.mirror_isSymm p.P) t) hL
  have hFactor : factorize (Mat.ofReal p.P) (Mat.ofReal p.A) (finite t.rho) (finite t.sigma) =
      .ok (Mat.ofReal R) := by
    rw [factorize_eq_ok_iff, systemMatrix_ofReal, cholesky_system_mirrored]
    exact ⟨hL, Mat.hasSoundDiagonal_ofReal hR⟩
  exact ⟨_, Solver.setup_eq_ok_iff.mpr ⟨Settings.validate_ofReal_eq_ok_iff.mpr hValid,
    Mat.isFinite_ofReal _, Mat.isFinite_ofReal _, hP, _, hFactor, rfl⟩⟩

theorem exists_setup (hP : p.P.IsSymm) (hValid : t.IsValid) (hSystem : (p.system t).PosDef) :
    ∃ s, p.setup t = .ok s :=
  exists_setup_of_isNearlySymmetric (Mat.isNearlySymmetric_ofReal hP) hValid
    (by rwa [mirrored_eq_self hP])

end Problem

namespace Solver

theorem objective_ofReal {P : Matrix (Fin n) (Fin n) ℝ} (hs : s.cost = Mat.ofReal P)
    (z q : Fin n → ℝ) :
    s.objective (Vec.ofReal z) (Vec.ofReal q) = finite (0.5 * (z ⬝ᵥ P *ᵥ z) + q ⬝ᵥ z) := by
  rw [objective, hs, Mat.transposeMulVec_ofReal, Vec.dot_ofReal, Vec.dot_ofReal, half_eq,
    finite_mul, finite_add, mulVec_transpose, ← dotProduct_mulVec, mul_comm]

/-- Every problem is solved from every start, with any positive number of
iterations. -/
theorem solveProblem_eq_ok (s : Solver Extended n m) (p : Problem n m) (z : Fin n → ℝ)
    (y : Fin m → ℝ) (k : ℕ) :
    s.solveProblem p z y (k + 1) = .ok (s.answer p.data (Vec.ofReal z) (Vec.ofReal y) k) :=
  s.solveWith_eq_ok (d := p.data) (Vec.isFinite_ofReal _) (Vec.isFinite_ofReal _)
    (Vec.isFinite_ofReal _) (fun i => (p.box.isInterval i).ordered) k

end Solver

end Solvers

/-! ## A program in one variable -/

namespace Problem

/-- Minimize `½ z² - z` over `-1 ≤ z ≤ 0`. -/
def clippedParabola : Problem 1 1 where
  P := 1
  A := 1
  q := ![-1]
  box := {
    lower := Vec.ofReal ![-1]
    upper := Vec.ofReal ![0]
    isInterval := fun i => by
      rw [Vec.get_ofReal, Vec.get_ofReal, Fin.fin_one_eq_zero i]
      exact ⟨finite_le.mpr (by norm_num), trivial, trivial⟩ }

theorem clippedParabola_posSemidef : clippedParabola.P.PosSemidef := PosSemidef.one

theorem clippedParabola_isKKT : clippedParabola.IsKKT ![0] ![1] where
  stationary := by
    ext i
    norm_num [clippedParabola]
  normal := {
    mem := fun i => by
      rw [Fin.fin_one_eq_zero i]
      simp [clippedParabola]
    upper := fun i _ => by simp [clippedParabola]
    lower := fun i hi => absurd hi (by simp) }

theorem exists_setup_clippedParabola [Precision] :
    ∃ s, clippedParabola.setup .standard = .ok s :=
  exists_setup isSymm_one Settings.standard_isValid
    (system_posDef clippedParabola_posSemidef Settings.standard_isValid.rho_pos.le
      (by norm_num [Settings.standard]))

end Problem

end Qp

end RecedingHorizon
