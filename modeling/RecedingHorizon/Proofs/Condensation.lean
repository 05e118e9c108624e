import RecedingHorizon.Proofs.Problem
import RecedingHorizon.Proofs.Simulation

/-!
# The condensed program

Over the reals a controller holds the matrices `E` and `F` of the prediction, the gradient
`Fᵀ Q̂`, and a factored program (`exists_isBuilt_of_build`). The program has the identity above
the first differences for constraints, and for cost the mean of `Fᵀ Q̂ F + R̂` and its
transpose. With symmetric weights the mean changes nothing (`isCondensed_of_build`).

The identity among the constraints makes the system matrix positive definite whenever
the weights are convex. So every such plant has a controller, without regularization
too (`exists_build`).
-/

namespace RecedingHorizon

open Extended Matrix

/-- A plant with the weights of one stage, over the reals. -/
structure Plant (nx nu : ℕ) where
  A : Matrix (Fin nx) (Fin nx) ℝ
  B : Matrix (Fin nx) (Fin nu) ℝ
  Q : Matrix (Fin nx) (Fin nx) ℝ
  R : Matrix (Fin nu) (Fin nu) ℝ

namespace Plant

variable {nx nu : ℕ} (a : Plant nx nu) (N : ℕ)

def model : LinearModel Extended nx nu := .ofReal a.A a.B

def cost : StageCost Extended nx nu where
  Q := Mat.ofReal a.Q
  R := Mat.ofReal a.R

noncomputable def build [Precision] (settings : Settings Extended) (period : Extended) :
    Except (Fault Extended) (Controller Extended nx nu N) :=
  Controller.build N a.model a.cost settings period

/-! ## The matrices -/

def E : Matrix (Fin (N * nx)) (Fin nx) ℝ := Prediction.realE a.A N

def F : Matrix (Fin (N * nx)) (Fin (N * nu)) ℝ := Prediction.realF a.A a.B N

/-- `Fᵀ Q̂`. -/
def gradient : Matrix (Fin (N * nu)) (Fin (N * nx)) ℝ := (a.F N)ᵀ * Stage.diagonal N a.Q

/-- `Fᵀ Q̂ F + R̂`. -/
def hessian : Matrix (Fin (N * nu)) (Fin (N * nu)) ℝ := a.gradient N * a.F N + Stage.diagonal N a.R

/-- The cost matrix as a controller stores it, made symmetric. -/
noncomputable def curvature : Matrix (Fin (N * nu)) (Fin (N * nu)) ℝ :=
  (0.5 : ℝ) • (a.hessian N + (a.hessian N)ᵀ)

def differences (nu N : ℕ) : Matrix (Fin ((N - 1) * nu)) (Fin (N * nu)) ℝ :=
  Matrix.of fun i j => if (j : ℕ) = i then -1 else if (j : ℕ) = i + nu then 1 else 0

/-- The identity above the first differences. -/
def constraints (nu N : ℕ) : Matrix (Fin (N * nu + (N - 1) * nu)) (Fin (N * nu)) ℝ :=
  Mat.stack 1 (differences nu N)

/-- `Fᵀ Q̂ (E x - x̂ref) - R̂ ûref`. -/
def linear {N : ℕ} (x : Fin nx → ℝ) (states : Fin (N * nx) → ℝ) (inputs : Fin (N * nu) → ℝ) :
    Fin (N * nu) → ℝ :=
  a.gradient N *ᵥ (a.E N *ᵥ x - states) - Stage.diagonal N a.R *ᵥ inputs

/-- The condensed program at a linear cost of zero and without bounds. -/
def program : Qp.Problem (N * nu) (N * nu + (N - 1) * nu) where
  P := a.hessian N
  A := constraints nu N
  q := 0
  box := .univ _

variable {a N}

theorem hessian_isSymm (hQ : a.Q.IsSymm) (hR : a.R.IsSymm) : (a.hessian N).IsSymm := by
  rw [Matrix.IsSymm, hessian, gradient, transpose_add, transpose_mul, transpose_mul,
    transpose_transpose, (Stage.diagonal_isSymm hQ).eq, (Stage.diagonal_isSymm hR).eq,
    Matrix.mul_assoc]

theorem curvature_isSymm : (a.curvature N).IsSymm := by
  rw [Matrix.IsSymm, curvature, transpose_smul, transpose_add, transpose_transpose, add_comm]

theorem curvature_eq_hessian (hQ : a.Q.IsSymm) (hR : a.R.IsSymm) :
    a.curvature N = a.hessian N := by
  rw [curvature, (hessian_isSymm hQ hR).eq, ← two_smul ℝ, smul_smul]
  norm_num

theorem hessian_posSemidef (hQ : a.Q.PosSemidef) (hR : a.R.PosSemidef) :
    (a.hessian N).PosSemidef := by
  have hForm : ((a.F N)ᵀ * Stage.diagonal N a.Q * a.F N).PosSemidef := by
    simpa using (Stage.diagonal_posSemidef hQ).conjTranspose_mul_mul_same (a.F N)
  exact hForm.add (Stage.diagonal_posSemidef hR)

/-- The identity among the constraints adds `ρ` to the curvature in every direction. -/
theorem le_dot_system_mulVec {t : Settings ℝ} (hQ : a.Q.PosSemidef) (hR : a.R.PosSemidef)
    (ht : t.IsValid) (v : Fin (N * nu) → ℝ) :
    (t.sigma + t.rho) * (v ⬝ᵥ v) ≤ v ⬝ᵥ (a.program N).system t *ᵥ v := by
  have hSystem : (a.program N).system t *ᵥ v = a.hessian N *ᵥ v +
      t.rho • ((constraints nu N)ᵀ *ᵥ constraints nu N *ᵥ v) + t.sigma • v := by
    rw [Qp.Problem.system, add_mulVec, add_mulVec, smul_mulVec, smul_mulVec, one_mulVec,
      ← mulVec_mulVec]
    rfl
  have hForm : 0 ≤ v ⬝ᵥ a.hessian N *ᵥ v := by
    simpa using (hessian_posSemidef (N := N) hQ hR).dotProduct_mulVec_nonneg v
  have hBoxes : v ⬝ᵥ v ≤ (constraints nu N *ᵥ v) ⬝ᵥ (constraints nu N *ᵥ v) := by
    have hTop := Mat.dot_le_dot_stack (1 : Matrix (Fin (N * nu)) (Fin (N * nu)) ℝ)
      (differences nu N) v
    rwa [one_mulVec] at hTop
  have hRows : t.rho * (v ⬝ᵥ v) ≤
      t.rho * ((constraints nu N *ᵥ v) ⬝ᵥ (constraints nu N *ᵥ v)) :=
    mul_le_mul_of_nonneg_left hBoxes ht.rho_pos.le
  rw [hSystem, dotProduct_add, dotProduct_add, dotProduct_smul, dotProduct_smul, smul_eq_mul,
    smul_eq_mul, dotProduct_comm v ((constraints nu N)ᵀ *ᵥ _), transpose_mulVec_dot]
  linarith

theorem system_posDef {t : Settings ℝ} (hQ : a.Q.PosSemidef) (hR : a.R.PosSemidef)
    (ht : t.IsValid) : ((a.program N).system t).PosDef := by
  have hHessian : (a.hessian N).IsSymm := by
    simpa using (hessian_posSemidef (N := N) hQ hR).isHermitian
  have hSymm : ((a.program N).system t).IsSymm := Qp.Problem.system_isSymm hHessian t
  apply PosDef.of_dotProduct_mulVec_pos (by simpa using hSymm)
  intro v hv
  have hPos : 0 < v ⬝ᵥ v :=
    (dot_self_nonneg v).lt_of_ne fun h => hv (dotProduct_self_eq_zero.mp h.symm)
  rw [star_trivial]
  exact (mul_pos (add_pos_of_nonneg_of_pos ht.sigma_nonneg ht.rho_pos) hPos).trans_le
    (le_dot_system_mulVec hQ hR ht v)

/-! ## What a controller stores -/

variable [Precision]

/-- What a controller holds: the prediction, the parts of the linear cost, and a factored
program. -/
structure IsBuilt (a : Plant nx nu) (c : Controller Extended nx nu N) (t : Settings ℝ) :
    Prop where
  model : c.model = a.model
  prediction : c.prediction = { E := Mat.ofReal (a.E N), F := Mat.ofReal (a.F N) }
  gradient : c.gradient = Mat.ofReal (a.gradient N)
  inputWeight : c.inputWeight = Mat.ofReal (Stage.diagonal N a.R)
  differences : c.differences = Mat.ofReal (Plant.differences nu N)
  factored : ∀ q box,
    c.qp.IsFactored { P := a.curvature N, A := Plant.constraints nu N, q, box } t

namespace IsBuilt

variable {a : Plant nx nu} {c : Controller Extended nx nu N} {t : Settings ℝ}

omit [Precision] in
theorem settings (h : a.IsBuilt c t) : c.qp.settings = t.ofReal :=
  (h.factored 0 (.univ _)).settings

omit [Precision] in
theorem valid (h : a.IsBuilt c t) : t.IsValid := (h.factored 0 (.univ _)).valid

end IsBuilt

/-- The matrices of a controller are those of the condensed cost. -/
structure IsCondensed (a : Plant nx nu) (c : Controller Extended nx nu N) : Prop where
  model : c.model = a.model
  prediction : c.prediction = { E := Mat.ofReal (a.E N), F := Mat.ofReal (a.F N) }
  gradient : c.gradient = Mat.ofReal (a.gradient N)
  inputWeight : c.inputWeight = Mat.ofReal (Stage.diagonal N a.R)
  cost : c.qp.cost = Mat.ofReal (a.hessian N)
  constraints : c.qp.constraints = Mat.ofReal (Plant.constraints nu N)

theorem unroll_ofReal (a : Plant nx nu) (N : ℕ) :
    Prediction.unroll a.model N = { E := Mat.ofReal (a.E N), F := Mat.ofReal (a.F N) } :=
  Prediction.unroll_ofReal a.A a.B N

theorem gradient_ofReal (a : Plant nx nu) (N : ℕ) :
    (Mat.ofReal (a.F N)).transposeMul (a.cost.Q.blockDiagonal N) = Mat.ofReal (a.gradient N) := by
  rw [cost, Mat.blockDiagonal_ofReal, Mat.transposeMul_ofReal, gradient]

theorem curvature_ofReal (a : Plant nx nu) (N : ℕ) :
    Controller.hessian (Mat.ofReal (a.gradient N)) (Mat.ofReal (a.F N))
      (a.cost.R.blockDiagonal N) = Mat.ofReal (a.curvature N) := by
  rw [Controller.hessian, cost, Mat.blockDiagonal_ofReal]
  simp only [Mat.mul_ofReal, Mat.add_ofReal, Mat.transpose_ofReal, half_eq, Mat.scale_ofReal]
  rfl

theorem differences_ofReal (nu N : ℕ) :
    Mat.differences nu N = Mat.ofReal (differences nu N) := by
  apply Mat.ext
  intro i j
  rw [Mat.differences, Mat.entry_ofFn, Mat.entry_ofReal, differences, of_apply, one_eq, zero_eq,
    finite_neg]
  split_ifs <;> rfl

theorem constraints_ofReal (nu N : ℕ) :
    (Mat.differences nu N).boxAbove = Mat.ofReal (constraints nu N) := by
  rw [Mat.boxAbove, differences_ofReal, Mat.identity_ofReal, Mat.above_ofReal, constraints]

section Build

variable {settings : Settings Extended} {period : Extended} {c : Controller Extended nx nu N}

theorem setup_ofReal (a : Plant nx nu) :
    Qp.Solver.setup
      (Controller.hessian ((Prediction.unroll a.model N).F.transposeMul (a.cost.Q.blockDiagonal N))
        (Prediction.unroll a.model N).F (a.cost.R.blockDiagonal N))
      (Mat.differences nu N).boxAbove settings =
    Qp.Solver.setup (Mat.ofReal (a.curvature N)) (Mat.ofReal (constraints nu N)) settings := by
  rw [unroll_ofReal, gradient_ofReal, curvature_ofReal, constraints_ofReal]

theorem exists_isBuilt_of_build (hc : a.build N settings period = .ok c) :
    ∃ t, settings = Settings.ofReal t ∧ a.IsBuilt c t := by
  obtain ⟨-, hN, qp, hqp, rfl⟩ := Controller.build_eq_ok_iff.mp hc
  rw [setup_ofReal] at hqp
  obtain ⟨t, rfl⟩ := Settings.exists_ofReal (Qp.Solver.setup_eq_ok_iff.mp hqp).1
  exact ⟨t, rfl, {
    model := rfl
    prediction := unroll_ofReal a N
    gradient := by rw [unroll_ofReal, gradient_ofReal]
    inputWeight := Mat.blockDiagonal_ofReal N a.R
    differences := differences_ofReal nu N
    factored := fun _ _ => Qp.Problem.isFactored_of_setup hqp curvature_isSymm }⟩

theorem isCondensed_of_build (hc : a.build N settings period = .ok c) (hQ : a.Q.IsSymm)
    (hR : a.R.IsSymm) : a.IsCondensed c := by
  obtain ⟨t, -, hBuilt⟩ := exists_isBuilt_of_build hc
  have hFactored := hBuilt.factored 0 (.univ _)
  exact {
    model := hBuilt.model
    prediction := hBuilt.prediction
    gradient := hBuilt.gradient
    inputWeight := hBuilt.inputWeight
    cost := by rw [hFactored.cost, curvature_eq_hessian hQ hR]
    constraints := hFactored.constraints }

theorem exists_build {t : Settings ℝ} (hN : 0 < N) (hQ : a.Q.PosSemidef) (hR : a.R.PosSemidef)
    (ht : t.IsValid) {dt : ℝ} (hdt : 0 < dt) :
    ∃ c, a.build N t.ofReal (finite dt) = .ok c := by
  have hQ' : a.Q.IsSymm := by simpa using hQ.isHermitian
  have hR' : a.R.IsSymm := by simpa using hR.isHermitian
  obtain ⟨s, hs⟩ := Qp.Problem.exists_setup (p := a.program N) (hessian_isSymm hQ' hR') ht
    (system_posDef hQ hR ht)
  refine ⟨_, Controller.build_eq_ok_iff.mpr ⟨⟨rfl, finite_lt.mpr hdt⟩, hN, s, ?_, rfl⟩⟩
  rw [setup_ofReal, curvature_eq_hessian hQ' hR']
  exact hs

end Build

theorem linear_ofReal {c : Controller Extended nx nu N}
    (hPrediction : c.prediction = { E := Mat.ofReal (a.E N), F := Mat.ofReal (a.F N) })
    (hGradient : c.gradient = Mat.ofReal (a.gradient N))
    (hWeight : c.inputWeight = Mat.ofReal (Stage.diagonal N a.R)) (x : Fin nx → ℝ)
    (states : Fin (N * nx) → ℝ) (inputs : Fin (N * nu) → ℝ) :
    c.tracking (Vec.ofReal x) (Vec.ofReal states) (Vec.ofReal inputs) =
      Vec.ofReal (a.linear x states inputs) := by
  rw [Controller.tracking, hPrediction, hGradient, hWeight]
  simp only [Mat.mulVec_ofReal, Vec.sub_ofReal]
  rfl

theorem IsCondensed.linearCost_eq_ok {c : Controller Extended nx nu N} (h : a.IsCondensed c)
    (x : Fin nx → ℝ) (states : Fin (N * nx) → ℝ) (inputs : Fin (N * nu) → ℝ) :
    c.linearCost (Vec.ofReal x).toArray
        { states := (Vec.ofReal states).toArray, inputs := (Vec.ofReal inputs).toArray } =
      .ok (Vec.ofReal (a.linear x states inputs)) := by
  rw [Controller.linearCost_toArray, linear_ofReal h.prediction h.gradient h.inputWeight]

/-- The scalar integrator `x⁺ = x + u` with unit weights. -/
def integrator : Plant 1 1 where
  A := 1
  B := 1
  Q := 1
  R := 1

theorem exists_build_integrator (hN : 0 < N) :
    ∃ c, integrator.build N (Settings.standard : Settings ℝ).ofReal (finite 0.02) = .ok c :=
  exists_build hN PosSemidef.one PosSemidef.one Settings.standard_isValid (by norm_num)

end Plant

end RecedingHorizon
