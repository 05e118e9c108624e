import RecedingHorizon.Proofs.TrackingCost

/-!
# Convex weights

Weights that are positive semidefinite at one stage are so along the block diagonal, and the
congruence with `F` keeps them so. Nothing is asked of the plant for this, and no regularization
is needed either: each stacked input has a constraint row of its own, which lends the system matrix
the curvature `ρ` in every direction. So a controller is always built, and the form of the matrix
that it factors is at least `(σ + ρ) |v|²` (`exists_build_of_convex`).
-/

namespace RecedingHorizon

open Extended Matrix

/-- The factor of a prepared program reconstructs its system matrix. -/
theorem Qp.Solver.IsFactored.factor_mul_transpose [Precision] {n m : ℕ} {p : Qp.Problem n m}
    {t : Settings ℝ} {s : Qp.Solver Extended n m} (h : s.IsFactored p t) :
    s.factor.mul s.factor.transpose = Mat.ofReal (p.system t) := by
  obtain ⟨L, hL, hFactor⟩ := h.factor
  rw [hL, Mat.transpose_ofReal, Mat.mul_ofReal, hFactor.mul_transpose]

/-- **Convex weights.** With weights that are positive semidefinite, and all settings that pass,
a zero `σ` too, every plant has a controller over every horizon. Its cost matrix is symmetric and
positive semidefinite. The system matrix that it factors has a form of at least `(σ + ρ) |v|²`. -/
theorem Plant.exists_build_of_convex [Precision] {nx nu N : ℕ} (hN : 1 ≤ N) {a : Plant nx nu}
    (hQ : a.Q.PosSemidef) (hR : a.R.PosSemidef) {settings : Settings Extended}
    (hSettings : settings.validate = .ok ()) {period : ℝ} (hPeriod : 0 < period) :
    ∃ c, a.build N settings (finite period) = .ok c ∧
      (c.qp.cost.transpose = c.qp.cost ∧
        ∀ v : Fin (N * nu) → ℝ, 0 ≤ c.qp.cost.form (Vec.ofReal v)) ∧
      let M := Qp.systemMatrix c.qp.cost c.qp.constraints settings.rho settings.sigma
      c.qp.factor.mul c.qp.factor.transpose = M ∧
        ∀ v : Fin (N * nu) → ℝ,
          (settings.sigma + settings.rho) * (Vec.ofReal v).dot (Vec.ofReal v) ≤
            M.form (Vec.ofReal v) := by
  obtain ⟨t, rfl⟩ := Settings.exists_ofReal hSettings
  obtain ⟨c, hc⟩ := exists_build hN hQ hR (Settings.validate_ofReal_eq_ok_iff.mp hSettings) hPeriod
  obtain ⟨t', hSame, hBuilt⟩ := exists_isBuilt_of_build hc
  have hQ' : a.Q.IsSymm := by simpa using hQ.isHermitian
  have hR' : a.R.IsSymm := by simpa using hR.isHermitian
  have hFactored : c.qp.IsFactored (a.program N) t' := by
    have h := hBuilt.factored 0 (.univ _)
    rwa [curvature_eq_hessian hQ' hR'] at h
  have hSystem : Qp.systemMatrix c.qp.cost c.qp.constraints (finite t'.rho) (finite t'.sigma) =
      Mat.ofReal ((a.program N).system t') := by
    rw [hFactored.cost, hFactored.constraints, Qp.systemMatrix_ofReal]
  rw [hSame] at hc ⊢
  refine ⟨c, hc, ⟨?_, fun v => ?_⟩, ?_, fun v => ?_⟩
  · rw [hFactored.cost, Mat.transpose_ofReal]
    exact congrArg Mat.ofReal (hessian_isSymm hQ' hR').eq
  · have hForm : 0 ≤ v ⬝ᵥ a.hessian N *ᵥ v := by
      simpa using (hessian_posSemidef (N := N) hQ hR).dotProduct_mulVec_nonneg v
    rw [hFactored.cost, form_ofReal]
    exact finite_le.mpr hForm
  · exact hFactored.factor_mul_transpose.trans hSystem.symm
  · simp only [Settings.ofReal, hSystem, form_ofReal, Vec.dot_ofReal, finite_add, finite_mul,
      finite_le]
    exact le_dot_system_mulVec hQ hR hFactored.valid v

/-- A plant of two growing states. The input enters the second one, and only the first one is
weighted. -/
def Plant.partlyWeighted : Plant 2 1 where
  A := Matrix.of ![![2.0, 1], ![0, 2.0]]
  B := Matrix.of ![![0], ![1]]
  Q := Matrix.diagonal ![1, 0]
  R := 0

theorem Plant.partlyWeighted_posSemidef : Plant.partlyWeighted.Q.PosSemidef := by
  refine PosSemidef.diagonal fun i => ?_
  fin_cases i <;> simp

/-- With singular weights and without regularization the constraint rows hold the system up. -/
theorem partlyWeighted_exists_build :
    letI := Precision.double
    let settings : Settings Extended := Settings.ofReal { Settings.standard with sigma := 0 }
    settings.validate = .ok () ∧ ∃ c : Controller Extended 2 1 3,
      Plant.partlyWeighted.build 3 settings (finite 0.02) = .ok c ∧
      (c.qp.cost.transpose = c.qp.cost ∧
        ∀ v : Fin (3 * 1) → ℝ, 0 ≤ c.qp.cost.form (Vec.ofReal v)) ∧
      let M := Qp.systemMatrix c.qp.cost c.qp.constraints settings.rho settings.sigma
      c.qp.factor.mul c.qp.factor.transpose = M ∧
        ∀ v : Fin (3 * 1) → ℝ,
          (settings.sigma + settings.rho) * (Vec.ofReal v).dot (Vec.ofReal v) ≤
            M.form (Vec.ofReal v) := by
  let _ := Precision.double
  intro settings
  have hSettings : settings.validate = .ok () := by
    apply Settings.validate_ofReal_eq_ok_iff.mpr
    constructor <;> norm_num [Settings.standard]
  exact ⟨hSettings, Plant.exists_build_of_convex (a := .partlyWeighted) (N := 3) (by norm_num)
    Plant.partlyWeighted_posSemidef PosSemidef.zero hSettings (show (0 : ℝ) < 0.02 by norm_num)⟩

end RecedingHorizon
