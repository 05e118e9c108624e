import RecedingHorizon.Proofs.Splitting

/-!
# Fixed points of a solve

One iteration returns the start `(z, y)` unchanged exactly when `(z, y)` satisfies the
first-order conditions of the program. From such a start every solve returns it, with
residuals zero and status converged (`solve_fixes_iff_isKKT`).

That a repeated start satisfies the conditions needs an argument for `A z` in the box: the
slack moves from the projection `w` of `A z` to `w + α (A z - w)`, which stays in the box only
when `A z = w`.
-/

namespace RecedingHorizon

namespace Qp

open Extended Matrix

namespace Problem

variable {n m : ℕ} {p : Problem n m} {t : Settings ℝ} {z : Fin n → ℝ} {y : Fin m → ℝ}

/-- A point that meets the slack before it is reached without moving slack and multipliers, when
they are in balance and the gradient is `σ` times the step, taken backwards. -/
theorem step_eq_rest (hUnit : IsUnit (p.system t).det) (hRho : 0 < t.rho) {u : Point n m}
    (hImage : p.A *ᵥ z = u.w) (hNormal : p.box.IsNormal u.w u.y)
    (hGradient : p.P *ᵥ z + p.q + p.Aᵀ *ᵥ u.y = t.sigma • (u.x - z)) :
    p.step t u = p.rest z u.y := by
  have hx : (p.step t u).x = z := by
    rw [step_x_eq_iff hUnit, hImage, sub_self, smul_zero, add_zero]
    exact hGradient
  have hBlend : t.alpha • (p.A *ᵥ (p.step t u).x) + (1 - t.alpha) • u.w = u.w := by
    rw [hx, hImage, ← add_smul, add_sub_cancel, one_smul]
  have hw : (p.step t u).w = u.w := by
    change p.box.project (t.alpha • (p.A *ᵥ (p.step t u).x) + (1 - t.alpha) • u.w +
      t.rho⁻¹ • u.y) = _
    rw [hBlend]
    exact (Box.project_add_smul_eq_iff (inv_pos.mpr hRho)).mpr hNormal
  have hy : (p.step t u).y = u.y := by
    change u.y + t.rho • (t.alpha • (p.A *ᵥ (p.step t u).x) + (1 - t.alpha) • u.w -
      (p.step t u).w) = _
    rw [hBlend, hw, sub_self, smul_zero, add_zero]
  exact Point.ext hx (hw.trans hImage.symm) hy

theorem residuals_rest {u : Point n m} (hImage : p.A *ᵥ z = u.w) :
    p.residuals t u (p.rest z y) = { primal := 0, dual := 0 } := by
  simp only [residuals, rest_x, rest_w, hImage, sub_self, mulVec_zero, norm_zero, mul_zero]

theorem status_of_no_residuals [Precision] (ht : t.IsValid) {r : Residuals ℝ}
    (hPrimal : r.primal = 0) (hDual : r.dual = 0) :
    (Residuals.ofReal r).status t.ofReal = .converged :=
  if_pos ⟨finite_le.mpr (hPrimal.trans_le ht.primalTolerance_nonneg),
    finite_le.mpr (hDual.trans_le ht.dualTolerance_nonneg)⟩

namespace IsKKT

theorem start_eq (h : p.IsKKT z y) : p.start z y = p.rest z y := by
  rw [start, rest, Box.project_eq_self h.normal.mem]

theorem step_eq (h : p.IsKKT z y) (hUnit : IsUnit (p.system t).det) (hRho : 0 < t.rho) :
    p.step t (p.rest z y) = p.rest z y := by
  refine step_eq_rest hUnit hRho rfl h.normal ?_
  rw [rest_x, sub_self, smul_zero]
  exact h.stationary

theorem run_eq (h : p.IsKKT z y) (hUnit : IsUnit (p.system t).det) (hRho : 0 < t.rho) (k : ℕ) :
    p.run t k (p.start z y) = p.rest z y := by
  induction k with
  | zero => exact h.start_eq
  | succ k ih => rw [run_succ, ih, h.step_eq hUnit hRho]

/-- Every solve from a pair that satisfies the conditions returns it. -/
theorem solveProblem_eq_ok [Precision] {s : Solver Extended n m} (h : p.IsKKT z y)
    (hFactored : s.IsFactored p t) {k : ℕ} (hk : 1 ≤ k) :
    s.solveProblem p z y k = .ok {
      z := Vec.ofReal z
      y := Vec.ofReal y
      w := Vec.ofReal (p.A *ᵥ z)
      iterations := k
      residuals := { primal := 0, dual := 0 }
      status := .converged } := by
  have hUnit := hFactored.isUnit_det
  have hRho := hFactored.valid.rho_pos
  obtain ⟨k, rfl⟩ := Nat.exists_eq_add_of_le' hk
  have hResiduals : p.residuals t (p.rest z y) (p.rest z y) =
      { primal := 0, dual := 0 } := residuals_rest rfl
  rw [hFactored.solveProblem_eq_ok]
  simp only [h.run_eq hUnit hRho, hResiduals, status_of_no_residuals hFactored.valid]
  rfl

end IsKKT

/-- A step that keeps the multipliers and whose slack started at the projection of the
image `A x` of its own point has that image for both slacks. -/
theorem IsStep.slacks_eq {u v : Point n m} (h : p.IsStep t u v) (hRho : 0 < t.rho)
    (hAlpha : 0 < t.alpha) (hw : p.box.project (p.A *ᵥ v.x) = u.w) (hy : v.y = u.y) :
    u.w = p.A *ᵥ v.x ∧ v.w = p.A *ᵥ v.x := by
  have hMove : v.w - u.w = t.alpha • (p.A *ᵥ v.x - u.w) := by
    have hShift := h.shift
    rw [hy, add_right_comm, add_left_inj, mul_smul, ← smul_add] at hShift
    rw [smul_right_injective _ hRho.ne' hShift, add_sub_cancel_left]
  have hZero : p.A *ᵥ v.x - u.w = 0 := by
    have hDot := (Box.project_eq_iff.mp hw).dot_sub_nonpos h.normal.mem
    rw [hMove, dotProduct_smul, smul_eq_mul] at hDot
    have hSq : (p.A *ᵥ v.x - u.w) ⬝ᵥ (p.A *ᵥ v.x - u.w) ≤ 0 :=
      nonpos_of_mul_nonpos_right hDot hAlpha
    exact dotProduct_self_eq_zero.mp (le_antisymm hSq (dot_self_nonneg _))
  rw [hZero, smul_zero, sub_eq_zero] at hMove
  exact ⟨(sub_eq_zero.mp hZero).symm, by rw [hMove, sub_eq_zero.mp hZero]⟩

theorem step_start_eq_iff (hUnit : IsUnit (p.system t).det) (hRho : 0 < t.rho)
    (hAlpha : 0 < t.alpha) :
    (p.step t (p.start z y)).x = z ∧ (p.step t (p.start z y)).y = y ↔ p.IsKKT z y := by
  constructor
  · rintro ⟨hx, hy⟩
    have hStep := step_isStep hUnit hRho (p.start z y)
    obtain ⟨hw, hw'⟩ := hStep.slacks_eq hRho hAlpha (by rw [hx]; rfl) hy
    have hStationary := hStep.stationary
    have hNormal := hStep.normal
    rw [hw', hy, hx] at hNormal
    rw [hw, hx, sub_self, smul_zero, add_zero] at hStationary
    change p.P *ᵥ z + p.q + p.Aᵀ *ᵥ y = t.sigma • (z - z) at hStationary
    rw [sub_self, smul_zero] at hStationary
    exact ⟨hStationary, hNormal⟩
  · intro h
    rw [h.start_eq, h.step_eq hUnit hRho]
    exact ⟨rfl, rfl⟩

end Problem

/-- **Fixed points.** One iteration returns the start exactly when it satisfies the
first-order conditions, and then every solve returns it with `w = A z`, residuals zero and
status converged. -/
theorem solve_fixes_iff_isKKT [Precision] {n m : ℕ} {p : Problem n m} {t : Settings ℝ}
    {s : Solver Extended n m} (hs : p.setup t = .ok s) (hP : p.P.IsSymm) (z : Fin n → ℝ)
    (y : Fin m → ℝ) :
    (∃ sol, s.solveProblem p z y 1 = .ok sol ∧
      ((sol.z = Vec.ofReal z ∧ sol.y = Vec.ofReal y) ↔ p.IsKKT z y)) ∧
    (p.IsKKT z y → ∀ k, 1 ≤ k → s.solveProblem p z y k = .ok {
      z := Vec.ofReal z
      y := Vec.ofReal y
      w := Vec.ofReal (p.A *ᵥ z)
      iterations := k
      residuals := { primal := 0, dual := 0 }
      status := .converged }) := by
  have hFactored := Problem.isFactored_of_setup hs hP
  constructor
  · refine ⟨_, hFactored.solveProblem_eq_ok z y 0, ?_⟩
    rw [Vec.ofReal_inj, Vec.ofReal_inj]
    exact Problem.step_start_eq_iff hFactored.isUnit_det hFactored.valid.rho_pos
      hFactored.valid.alpha_pos
  · intro h k hk
    exact h.solveProblem_eq_ok hFactored hk

theorem solve_fixes_clippedParabola :
    letI := Precision.double
    ∃ s, Problem.clippedParabola.setup .standard = .ok s ∧
      s.solveProblem Problem.clippedParabola ![0] ![1] 1 = .ok {
        z := Vec.ofReal ![0]
        y := Vec.ofReal ![1]
        w := Vec.ofReal (Problem.clippedParabola.A *ᵥ ![0])
        iterations := 1
        residuals := { primal := 0, dual := 0 }
        status := .converged } := by
  let _ := Precision.double
  obtain ⟨s, hs⟩ := Problem.exists_setup_clippedParabola
  exact ⟨s, hs, (solve_fixes_iff_isKKT hs isSymm_one _ _).2 Problem.clippedParabola_isKKT 1 le_rfl⟩

end Qp

end RecedingHorizon
