import RecedingHorizon.Proofs.Splitting

/-!
# Stationarity after a step

A step solves its linear system for the point, with the old slack and the old multipliers. Put in
terms of the new ones, that equation says by how much the new point and multipliers fail to
be stationary (`IsStep.gradient_eq`): by the step in `x`, by what `A x` misses of the slack and
by the step in the slack. The over-relaxation weighs the second term with `α - 1`, and the third
with `2 - α`. Of the three, the dual residual measures the third alone, so it bounds the
gradient only together with the other two (`solve_gradient_eq`).
-/

namespace RecedingHorizon

namespace Qp

open Extended Matrix

variable {n m : ℕ} {p : Problem n m} {t : Settings ℝ}

namespace Problem

variable {u v : Point n m}

/-- The gradient of the Lagrangian at the new point and multipliers. -/
theorem IsStep.gradient_eq (h : p.IsStep t u v) :
    p.P *ᵥ v.x + p.q + p.Aᵀ *ᵥ v.y = t.sigma • (u.x - v.x) +
      ((t.alpha - 1) * t.rho) • (p.Aᵀ *ᵥ (p.A *ᵥ v.x - v.w)) -
      ((2 - t.alpha) * t.rho) • (p.Aᵀ *ᵥ (v.w - u.w)) := by
  have hMultipliers : u.y + t.rho • (p.A *ᵥ v.x - u.w) =
      v.y - ((t.alpha - 1) * t.rho) • (p.A *ᵥ v.x - v.w) +
        ((2 - t.alpha) * t.rho) • (v.w - u.w) := by
    ext i
    have hi := congrFun h.shift i
    simp only [Pi.add_apply, Pi.sub_apply, Pi.smul_apply, smul_eq_mul] at hi ⊢
    linear_combination -hi
  have hStationary := h.stationary
  rw [hMultipliers, mulVec_add, mulVec_sub, mulVec_smul, mulVec_smul] at hStationary
  rw [← hStationary]
  abel

/-- The dual residual is one of three terms that bound the gradient. -/
theorem IsStep.norm_gradient_le_add (h : p.IsStep t u v) (ht : t.IsValid) :
    ‖p.P *ᵥ v.x + p.q + p.Aᵀ *ᵥ v.y‖ ≤ t.sigma * ‖v.x - u.x‖ +
      |t.alpha - 1| * t.rho * ‖p.Aᵀ *ᵥ (p.A *ᵥ v.x - v.w)‖ +
      (2 - t.alpha) * (p.residuals t u v).dual := by
  have hAlpha : 0 ≤ 2 - t.alpha := sub_nonneg.mpr ht.alpha_lt_two.le
  have hProximal : ‖t.sigma • (u.x - v.x)‖ = t.sigma * ‖v.x - u.x‖ := by
    rw [norm_smul, Real.norm_of_nonneg ht.sigma_nonneg, norm_sub_rev]
  have hPulled : ‖((t.alpha - 1) * t.rho) • (p.Aᵀ *ᵥ (p.A *ᵥ v.x - v.w))‖ =
      |t.alpha - 1| * t.rho * ‖p.Aᵀ *ᵥ (p.A *ᵥ v.x - v.w)‖ := by
    rw [norm_smul, Real.norm_eq_abs, abs_mul, abs_of_pos ht.rho_pos]
  have hDual : ‖((2 - t.alpha) * t.rho) • (p.Aᵀ *ᵥ (v.w - u.w))‖ =
      (2 - t.alpha) * (p.residuals t u v).dual := by
    rw [norm_smul, Real.norm_of_nonneg (mul_nonneg hAlpha ht.rho_pos.le), mul_assoc]
    rfl
  rw [h.gradient_eq]
  calc
    _ ≤ ‖t.sigma • (u.x - v.x)‖ + ‖((t.alpha - 1) * t.rho) • (p.Aᵀ *ᵥ (p.A *ᵥ v.x - v.w))‖ +
        ‖((2 - t.alpha) * t.rho) • (p.Aᵀ *ᵥ (v.w - u.w))‖ :=
      (norm_sub_le _ _).trans (add_le_add_left (norm_add_le _ _) _)
    _ = _ := by rw [hProximal, hPulled, hDual]

end Problem

/-- **Stationarity defect.** After every iteration of a solve the gradient of the Lagrangian is a
sum of three terms: `σ` times the step of the point, taken backwards, `(α - 1) ρ Aᵀ` times what
`A z` misses of the slack, and `-(2 - α) ρ Aᵀ` times the step of the slack. So the largest entry
of the gradient at an answer is at most the sum of their sizes. The dual residual of the answer
gives the size of the last one. -/
theorem solve_gradient_eq [Precision] {s : Solver Extended n m} (hs : p.setup t = .ok s)
    (hP : p.P.IsSymm) (z₀ : Fin n → ℝ) (y₀ : Fin m → ℝ) :
    ∃ u : ℕ → Point n m, (∀ k, s.iterate p z₀ y₀ k = .ofReal (u k)) ∧
      ∀ k,
        let x := (u k).x
        let w := (u k).w
        let z := (u (k + 1)).x
        let y := (u (k + 1)).y
        let slack := (u (k + 1)).w
        let gradient := p.P *ᵥ z + p.q + p.Aᵀ *ᵥ y
        gradient = t.sigma • (x - z) + ((t.alpha - 1) * t.rho) • (p.Aᵀ *ᵥ (p.A *ᵥ z - slack)) -
          ((2 - t.alpha) * t.rho) • (p.Aᵀ *ᵥ (slack - w)) ∧
        ∃ (dual : ℝ) (sol : Solution Extended n m), s.solveProblem p z₀ y₀ (k + 1) = .ok sol ∧
          sol.z = Vec.ofReal z ∧ sol.y = Vec.ofReal y ∧ sol.w = Vec.ofReal slack ∧
          sol.residuals.dual = finite dual ∧
          ‖gradient‖ ≤ t.sigma * ‖z - x‖ +
            |t.alpha - 1| * t.rho * ‖p.Aᵀ *ᵥ (p.A *ᵥ z - slack)‖ + (2 - t.alpha) * dual := by
  have hFactored := Problem.isFactored_of_setup hs hP
  refine ⟨fun k => p.run t k (p.start z₀ y₀), hFactored.iterate_ofReal z₀ y₀, fun k => ?_⟩
  have hStep := hFactored.run_isStep k (p.start z₀ y₀)
  exact ⟨hStep.gradient_eq, _, _, hFactored.solveProblem_eq_ok z₀ y₀ k, rfl, rfl, rfl, rfl,
    hStep.norm_gradient_le_add hFactored.valid⟩

theorem clippedParabola_gradient_eq :
    letI := Precision.double
    ∃ (s : Solver Extended 1 1) (u : ℕ → Point 1 1) (dual : ℝ) (sol : Solution Extended 1 1),
      Problem.clippedParabola.setup .standard = .ok s ∧
      (∀ k, s.iterate Problem.clippedParabola ![1] ![-7] k = .ofReal (u k)) ∧
      s.solveProblem Problem.clippedParabola ![1] ![-7] 3 = .ok sol ∧
      sol.z = Vec.ofReal (u 3).x ∧ sol.residuals.dual = finite dual ∧
      ‖Problem.clippedParabola.P *ᵥ (u 3).x + Problem.clippedParabola.q +
          Problem.clippedParabola.Aᵀ *ᵥ (u 3).y‖ ≤
        1e-4 * ‖(u 3).x - (u 2).x‖ + |(1.6 : ℝ) - 1| * 0.1 *
          ‖Problem.clippedParabola.Aᵀ *ᵥ (Problem.clippedParabola.A *ᵥ (u 3).x - (u 3).w)‖ +
          (2 - 1.6) * dual := by
  let _ := Precision.double
  obtain ⟨s, hs⟩ := Problem.exists_setup_clippedParabola
  obtain ⟨u, hIterates, hSteps⟩ := solve_gradient_eq hs isSymm_one ![1] ![-7]
  obtain ⟨-, dual, sol, hSolve, hz, -, -, hDual, hNorm⟩ := hSteps 2
  exact ⟨s, u, dual, sol, hs, hIterates, hSolve, hz, hDual, hNorm⟩

end Qp

end RecedingHorizon
