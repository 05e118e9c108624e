import RecedingHorizon.Proofs.FixedPoint
import RecedingHorizon.Proofs.Stationarity

/-!
# What the residuals certify

The gradient of the Lagrangian after a step is an explicit combination of the step in
`x`, the primal residual and the step in the slack (`IsStep.gradient_eq`). The largest column
sum of the constraint matrix bounds the second term by the residual that a solve reports. With
a convex cost this turns the two residuals of a truncated run into a bound on how far the
returned cost is above that of any feasible point (`solve_objective_le`).

When both residuals are zero, the step in `x` is all that is left of the gradient. No residual
measures that step, so the answer is optimal exactly when `σ` times it is zero
(`solve_isKKT_iff_of_residuals_eq_zero`). Without constraint rows both residuals are always
zero, and a single regularized step from zero shows the difference
(`zero_residuals_not_isKKT`).
-/

namespace RecedingHorizon

namespace Qp

open Extended Matrix

namespace Problem

variable {n m : ℕ} {p : Problem n m} {t : Settings ℝ} {u v : Point n m}

/-- The largest column sum of the absolute values of the constraint matrix. -/
noncomputable def columnSum (p : Problem n m) : ℝ := ⨆ j, ∑ i, |p.A i j|

theorem norm_transpose_mulVec_le (r : Fin m → ℝ) : ‖p.Aᵀ *ᵥ r‖ ≤ p.columnSum * ‖r‖ := by
  have hBounded : BddAbove (Set.range fun j => ∑ i, |p.A i j|) := (Set.finite_range _).bddAbove
  have hColumn : ∀ j, ∑ i, |p.A i j| ≤ p.columnSum := fun j => le_ciSup hBounded j
  have hNonneg : 0 ≤ p.columnSum :=
    Real.iSup_nonneg fun j => Finset.sum_nonneg fun i _ => abs_nonneg _
  apply (pi_norm_le_iff_of_nonneg (mul_nonneg hNonneg (norm_nonneg r))).mpr
  intro j
  exact (abs_dot_le (fun i => p.A i j) r).trans
    (mul_le_mul_of_nonneg_right (hColumn j) (norm_nonneg r))

theorem IsStep.norm_gradient_le (h : p.IsStep t u v) (ht : t.IsValid) :
    ‖p.P *ᵥ v.x + p.q + p.Aᵀ *ᵥ v.y‖ ≤ t.sigma * ‖v.x - u.x‖ +
      |t.alpha - 1| * t.rho * p.columnSum * (p.residuals t u v).primal +
      (2 - t.alpha) * (p.residuals t u v).dual := by
  have hPulled : |t.alpha - 1| * t.rho * ‖p.Aᵀ *ᵥ (p.A *ᵥ v.x - v.w)‖ ≤
      |t.alpha - 1| * t.rho * p.columnSum * (p.residuals t u v).primal := by
    rw [mul_assoc _ p.columnSum]
    exact mul_le_mul_of_nonneg_left (norm_transpose_mulVec_le _)
      (mul_nonneg (abs_nonneg _) ht.rho_pos.le)
  have hGradient := h.norm_gradient_le_add ht
  linarith

/-! ## The cost after a step -/

/-- The new cost against that of a feasible point: the gradient pairs with the way between
the points, the multipliers with what `A x` misses of the slack. -/
theorem IsStep.objective_le (h : p.IsStep t u v) (hP : p.P.PosSemidef) {z' : Fin n → ℝ}
    (hFeasible : p.A *ᵥ z' ∈ p.box) :
    p.objective v.x ≤ p.objective z' + (∑ i, |v.y i|) * ‖p.A *ᵥ v.x - v.w‖ +
      (∑ j, |v.x j - z' j|) * ‖p.P *ᵥ v.x + p.q + p.Aᵀ *ᵥ v.y‖ := by
  have hConvex := objective_le_add hP v.x z'
  have hNormal : v.y ⬝ᵥ (p.A *ᵥ z' - v.w) ≤ 0 := h.normal.dot_sub_nonpos hFeasible
  have hSlack : |v.y ⬝ᵥ (p.A *ᵥ v.x - v.w)| ≤ _ := abs_dot_le v.y (p.A *ᵥ v.x - v.w)
  have hGradient : |(v.x - z') ⬝ᵥ (p.P *ᵥ v.x + p.q + p.Aᵀ *ᵥ v.y)| ≤ _ := abs_dot_le _ _
  have hSplit : (p.P *ᵥ v.x + p.q) ⬝ᵥ (v.x - z') =
      (v.x - z') ⬝ᵥ (p.P *ᵥ v.x + p.q + p.Aᵀ *ᵥ v.y) - v.y ⬝ᵥ (p.A *ᵥ v.x - v.w) +
        v.y ⬝ᵥ (p.A *ᵥ z' - v.w) := by
    rw [dotProduct_add _ _ (p.Aᵀ *ᵥ v.y), dotProduct_comm _ (p.Aᵀ *ᵥ v.y), transpose_mulVec_dot,
      mulVec_sub, dotProduct_comm (v.x - z')]
    simp only [dotProduct_sub]
    ring
  have hSlack' := neg_le_of_abs_le hSlack
  have hGradient' := le_of_abs_le hGradient
  simp only [Pi.sub_apply] at hGradient'
  linarith

end Problem

/-- **A-posteriori certificate.** With a convex cost, the cost returned after any number of
iterations exceeds that of a feasible point by no more than the residuals, the last step
and the distance between the points allow. -/
theorem solve_objective_le [Precision] {n m : ℕ} {p : Problem n m} {t : Settings ℝ}
    {s : Solver Extended n m} (hs : p.setup t = .ok s) (hP : p.P.PosSemidef) (z₀ : Fin n → ℝ)
    (y₀ : Fin m → ℝ) (k : ℕ) :
    ∃ (zPrev z : Fin n → ℝ) (w y : Fin m → ℝ) (primal dual : ℝ) (status : SolveStatus),
      (s.run p.data k (s.start p.data (Vec.ofReal z₀) (Vec.ofReal y₀))).x = Vec.ofReal zPrev ∧
      s.solveProblem p z₀ y₀ (k + 1) = .ok {
        z := Vec.ofReal z
        y := Vec.ofReal y
        w := Vec.ofReal w
        iterations := k + 1
        residuals := { primal := finite primal, dual := finite dual }
        status } ∧
      ∀ z', p.A *ᵥ z' ∈ p.box →
        s.objective (Vec.ofReal z) (Vec.ofReal p.q) ≤
          s.objective (Vec.ofReal z') (Vec.ofReal p.q) +
            finite ((∑ i, |y i|) * primal + (∑ j, |z j - z' j|) *
              (t.sigma * ‖z - zPrev‖ + |t.alpha - 1| * t.rho * p.columnSum * primal +
                (2 - t.alpha) * dual)) := by
  have hSymm : p.P.IsSymm := by simpa using hP.isHermitian
  have hFactored := Problem.isFactored_of_setup hs hSymm
  refine ⟨(p.run t k (p.start z₀ y₀)).x, _, _, _, _, _, _, ?_,
    hFactored.solveProblem_eq_ok z₀ y₀ k, ?_⟩
  · rw [hFactored.start_ofReal, hFactored.run_ofReal]
    rfl
  · intro z' hFeasible
    have hStep := hFactored.run_isStep k (p.start z₀ y₀)
    have hCost := hStep.objective_le hP hFeasible
    have hGradient := hStep.norm_gradient_le hFactored.valid
    have hDistance : 0 ≤ ∑ j, |(p.run t (k + 1) (p.start z₀ y₀)).x j - z' j| :=
      Finset.sum_nonneg fun j _ => abs_nonneg _
    rw [Solver.objective_ofReal hFactored.cost, Solver.objective_ofReal hFactored.cost,
      finite_add, finite_le, ← add_assoc]
    exact hCost.trans (add_le_add_right (mul_le_mul_of_nonneg_left hGradient hDistance) _)

theorem clippedParabola_objective_le :
    letI := Precision.double
    ∃ (s : Solver Extended 1 1) (zPrev z w y : Fin 1 → ℝ) (primal dual : ℝ)
      (status : SolveStatus),
      Problem.clippedParabola.setup .standard = .ok s ∧
      (s.run Problem.clippedParabola.data 2
        (s.start Problem.clippedParabola.data (Vec.ofReal ![1]) (Vec.ofReal ![0]))).x =
          Vec.ofReal zPrev ∧
      s.solveProblem Problem.clippedParabola ![1] ![0] 3 = .ok {
        z := Vec.ofReal z
        y := Vec.ofReal y
        w := Vec.ofReal w
        iterations := 3
        residuals := { primal := finite primal, dual := finite dual }
        status } ∧
      s.objective (Vec.ofReal z) (Vec.ofReal ![-1]) ≤
        s.objective (Vec.ofReal ![0]) (Vec.ofReal ![-1]) +
          finite ((∑ i, |y i|) * primal + (∑ j, |z j - ![0] j|) *
            (1e-4 * ‖z - zPrev‖ + |1.6 - 1| * 0.1 * Problem.clippedParabola.columnSum * primal +
              (2 - 1.6) * dual)) := by
  let _ := Precision.double
  obtain ⟨s, hs⟩ := Problem.exists_setup_clippedParabola
  obtain ⟨zPrev, z, w, y, primal, dual, status, hPrev, hSolve, hBound⟩ :=
    solve_objective_le hs Problem.clippedParabola_posSemidef ![1] ![0] 2
  exact ⟨s, zPrev, z, w, y, primal, dual, status, hs, hPrev, hSolve,
    hBound ![0] Problem.clippedParabola_isKKT.normal.mem⟩

/-! ## Vanishing residuals -/

namespace Problem

variable {n m : ℕ} {p : Problem n m} {t : Settings ℝ} {u v : Point n m}

theorem IsStep.image_eq_slack (hPrimal : (p.residuals t u v).primal = 0) : p.A *ᵥ v.x = v.w :=
  sub_eq_zero.mp (norm_eq_zero.mp hPrimal)

/-- Vanishing residuals leave the proximal term of the gradient. -/
theorem IsStep.gradient_eq_of_residuals (h : p.IsStep t u v) (hRho : 0 < t.rho)
    (hPrimal : (p.residuals t u v).primal = 0) (hDual : (p.residuals t u v).dual = 0) :
    p.P *ᵥ v.x + p.q + p.Aᵀ *ᵥ v.y = t.sigma • (u.x - v.x) := by
  have hSlack : p.Aᵀ *ᵥ (v.w - u.w) = 0 :=
    norm_eq_zero.mp ((mul_eq_zero.mp hDual).resolve_left hRho.ne')
  rw [h.gradient_eq, image_eq_slack hPrimal, hSlack, sub_self, mulVec_zero, smul_zero, smul_zero,
    add_zero, sub_zero]

/-- Minimize `½ z² - z` without constraints. -/
def freeParabola : Problem 1 0 where
  P := 1
  A := 0
  q := ![-1]
  box := .univ 0

noncomputable def unitSettings : Settings ℝ := .withParameters 1 1 1 1

theorem unitSettings_isValid : unitSettings.IsValid := by
  constructor <;> norm_num [unitSettings, Settings.withParameters, Settings.standard]

section OneStep

variable [Precision] {s : Solver Extended n m}

theorem exists_unit_setup (hP : p.P.PosSemidef) : ∃ s, p.setup unitSettings = .ok s :=
  exists_setup (by simpa using hP.isHermitian) unitSettings_isValid
    (system_posDef hP unitSettings_isValid.rho_pos.le one_pos)

/-- One step ends without residuals at a point that meets the slack of the start. -/
theorem solveProblem_eq_rest (h : s.IsFactored p t) {z₀ z : Fin n → ℝ} {y : Fin m → ℝ}
    (hImage : p.A *ᵥ z = p.box.project (p.A *ᵥ z₀)) (hNormal : p.box.IsNormal (p.A *ᵥ z) y)
    (hGradient : p.P *ᵥ z + p.q + p.Aᵀ *ᵥ y = t.sigma • (z₀ - z)) :
    s.solveProblem p z₀ y 1 = .ok {
      z := Vec.ofReal z
      y := Vec.ofReal y
      w := Vec.ofReal (p.A *ᵥ z)
      iterations := 1
      residuals := { primal := 0, dual := 0 }
      status := .converged } := by
  have hStart : p.box.IsNormal (p.start z₀ y).w y := by
    rw [hImage] at hNormal
    exact hNormal
  have hStep : p.step t (p.start z₀ y) = p.rest z y :=
    step_eq_rest h.isUnit_det h.valid.rho_pos hImage hStart hGradient
  have hResiduals : p.residuals t (p.start z₀ y) (p.rest z y) = { primal := 0, dual := 0 } :=
    residuals_rest hImage
  rw [h.solveProblem_eq_ok]
  simp only [run_succ, run_zero, hStep, hResiduals, status_of_no_residuals h.valid]
  rfl

end OneStep

/-- One step from zero goes half of the way to the minimum. -/
theorem freeParabola_solve [Precision] {s : Solver Extended 1 0}
    (hs : freeParabola.setup unitSettings = .ok s) :
    s.solveProblem freeParabola ![0] ![] 1 = .ok {
      z := Vec.ofReal ![0.5]
      y := Vec.ofReal ![]
      w := Vec.ofReal ![]
      iterations := 1
      residuals := { primal := 0, dual := 0 }
      status := .converged } := by
  have hNoRows : freeParabola.A *ᵥ ![0.5] = ![] := Subsingleton.elim _ _
  have hNormal : freeParabola.box.IsNormal ![] ![] :=
    ⟨fun i => i.elim0, fun i => i.elim0, fun i => i.elim0⟩
  rw [← hNoRows] at hNormal
  refine (solveProblem_eq_rest (isFactored_of_setup hs isSymm_one) (Subsingleton.elim _ _) hNormal
    ?_).trans ?_
  · ext i
    norm_num [freeParabola, unitSettings, Settings.withParameters]
  · rw [hNoRows]

/-- One step from beyond the bound comes to the bound. -/
theorem clippedParabola_solve [Precision] {s : Solver Extended 1 1}
    (hs : clippedParabola.setup unitSettings = .ok s) :
    s.solveProblem clippedParabola ![2] ![3] 1 = .ok {
      z := Vec.ofReal ![0]
      y := Vec.ofReal ![3]
      w := Vec.ofReal ![0]
      iterations := 1
      residuals := { primal := 0, dual := 0 }
      status := .converged } := by
  have hRow : ∀ v : Fin 1 → ℝ, clippedParabola.A *ᵥ v = v := one_mulVec
  have hBound := clippedParabola_isKKT.normal
  have hImage : clippedParabola.A *ᵥ ![0] =
      clippedParabola.box.project (clippedParabola.A *ᵥ ![2]) := by
    have hAbove := (Box.isNormal_smul_iff two_pos).mpr hBound
    rw [eq_comm, Box.project_eq_iff, ← mulVec_sub, hRow (_ - _)]
    convert hAbove using 1
    simp
  have hNormal : clippedParabola.box.IsNormal (clippedParabola.A *ᵥ ![0]) ![3] := by
    convert (Box.isNormal_smul_iff three_pos).mpr hBound using 1
    simp
  have hGradient : clippedParabola.P *ᵥ ![0] + clippedParabola.q + clippedParabola.Aᵀ *ᵥ ![3] =
      unitSettings.sigma • (![2] - ![0]) := by
    ext i
    norm_num [clippedParabola, unitSettings, Settings.withParameters]
  have hSolve :=
    solveProblem_eq_rest (isFactored_of_setup hs isSymm_one) hImage hNormal hGradient
  rwa [hRow] at hSolve

theorem freeParabola_not_isKKT : ¬ freeParabola.IsKKT ![0.5] ![] := by
  intro h
  have hRow := congrFun h.stationary 0
  norm_num [freeParabola] at hRow

end Problem

/-- **Vanishing residuals.** When a solve reports two zero residuals, its status is converged, its
answer is feasible and complementary, and the gradient of the Lagrangian is `σ` times the last
step, taken backwards. So the answer is optimal exactly when that product is zero. -/
theorem solve_isKKT_iff_of_residuals_eq_zero [Precision] {n m : ℕ} {p : Problem n m}
    {t : Settings ℝ} {s : Solver Extended n m} (hs : p.setup t = .ok s) (hP : p.P.IsSymm)
    (z₀ : Fin n → ℝ) (y₀ : Fin m → ℝ) (k : ℕ) :
    ∃ (zPrev z : Fin n → ℝ) (y : Fin m → ℝ) (sol : Solution Extended n m),
      (s.run p.data k (s.start p.data (Vec.ofReal z₀) (Vec.ofReal y₀))).x = Vec.ofReal zPrev ∧
      s.solveProblem p z₀ y₀ (k + 1) = .ok sol ∧ sol.z = Vec.ofReal z ∧ sol.y = Vec.ofReal y ∧
      (sol.residuals.primal = 0 → sol.residuals.dual = 0 →
        sol.status = .converged ∧ p.box.IsNormal (p.A *ᵥ z) y ∧
        p.P *ᵥ z + p.q + p.Aᵀ *ᵥ y = t.sigma • (zPrev - z) ∧
        (p.IsKKT z y ↔ t.sigma • (zPrev - z) = 0)) := by
  have hFactored := Problem.isFactored_of_setup hs hP
  have hStep := hFactored.run_isStep k (p.start z₀ y₀)
  refine ⟨(p.run t k (p.start z₀ y₀)).x, _, _, _, ?_, hFactored.solveProblem_eq_ok z₀ y₀ k, rfl,
    rfl, fun hPrimal hDual => ?_⟩
  · rw [hFactored.start_ofReal, hFactored.run_ofReal]
    rfl
  · have hValid := hFactored.valid
    have hPrimal' := finite.inj hPrimal
    have hDual' := finite.inj hDual
    have hNormal := hStep.normal
    rw [← Problem.IsStep.image_eq_slack hPrimal'] at hNormal
    have hGradient := hStep.gradient_eq_of_residuals hValid.rho_pos hPrimal' hDual'
    have hStatus := Problem.status_of_no_residuals hValid hPrimal' hDual'
    refine ⟨hStatus, hNormal, hGradient, ?_⟩
    rw [← hGradient]
    exact ⟨fun hKKT => hKKT.stationary, fun hZero => ⟨hZero, hNormal⟩⟩

/-- A step without rows, and one from beyond the bound of a row. Both have no residuals and leave a
gradient of `σ` times the step. -/
theorem parabolas_gradient_eq :
    letI := Precision.double
    let t := Problem.unitSettings
    (let p : Problem 1 0 := .freeParabola
      ∃ s : Solver Extended 1 0, p.setup t = .ok s ∧
      (s.run p.data 0 (s.start p.data (Vec.ofReal ![0]) (Vec.ofReal ![]))).x = Vec.ofReal ![0] ∧
      (∃ sol, s.solveProblem p ![0] ![] 1 = .ok sol ∧ sol.z = Vec.ofReal ![0.5] ∧
        sol.residuals = { primal := 0, dual := 0 } ∧ sol.status = .converged) ∧
      p.P *ᵥ ![0.5] + p.q + p.Aᵀ *ᵥ ![] = t.sigma • (![0] - ![0.5]) ∧
      (p.IsKKT ![0.5] ![] ↔ t.sigma • (![0] - ![0.5]) = (0 : Fin 1 → ℝ))) ∧
    let p : Problem 1 1 := .clippedParabola
      ∃ s : Solver Extended 1 1, p.setup t = .ok s ∧
      (s.run p.data 0 (s.start p.data (Vec.ofReal ![2]) (Vec.ofReal ![3]))).x = Vec.ofReal ![2] ∧
      (∃ sol, s.solveProblem p ![2] ![3] 1 = .ok sol ∧ sol.z = Vec.ofReal ![0] ∧
        sol.y = Vec.ofReal ![3] ∧ sol.residuals = { primal := 0, dual := 0 } ∧
        sol.status = .converged) ∧
      p.P *ᵥ ![0] + p.q + p.Aᵀ *ᵥ ![3] = t.sigma • (![2] - ![0]) ∧
      (p.IsKKT ![0] ![3] ↔ t.sigma • (![2] - ![0]) = (0 : Fin 1 → ℝ)) := by
  let _ := Precision.double
  constructor
  · intro p
    obtain ⟨s, hs⟩ := Problem.exists_unit_setup (p := p) PosSemidef.one
    obtain ⟨zPrev, z, y, sol, hPrev, hSolve, hz, hy, hVanishing⟩ :=
      solve_isKKT_iff_of_residuals_eq_zero hs isSymm_one ![0] ![] 0
    obtain rfl : ![0] = zPrev := Vec.ofReal_injective hPrev
    obtain rfl := Except.ok.inj (hSolve.symm.trans (Problem.freeParabola_solve hs))
    obtain rfl : ![0.5] = z := Vec.ofReal_injective hz
    obtain rfl : ![] = y := Vec.ofReal_injective hy
    obtain ⟨hStatus, -, hGradient, hKKT⟩ := hVanishing rfl rfl
    exact ⟨s, hs, hPrev, ⟨_, hSolve, rfl, rfl, hStatus⟩, hGradient, hKKT⟩
  · intro p
    obtain ⟨s, hs⟩ := Problem.exists_unit_setup Problem.clippedParabola_posSemidef
    obtain ⟨zPrev, z, y, sol, hPrev, hSolve, hz, hy, hVanishing⟩ :=
      solve_isKKT_iff_of_residuals_eq_zero hs isSymm_one ![2] ![3] 0
    obtain rfl : ![2] = zPrev := Vec.ofReal_injective hPrev
    obtain rfl := Except.ok.inj (hSolve.symm.trans (Problem.clippedParabola_solve hs))
    obtain rfl : ![0] = z := Vec.ofReal_injective hz
    obtain rfl : ![3] = y := Vec.ofReal_injective hy
    obtain ⟨hStatus, -, hGradient, hKKT⟩ := hVanishing rfl rfl
    exact ⟨s, hs, hPrev, ⟨_, hSolve, rfl, rfl, rfl, hStatus⟩, hGradient, hKKT⟩

/-- Two zero residuals and the status converged do not make an answer optimal. -/
theorem zero_residuals_not_isKKT :
    letI := Precision.double
    Problem.freeParabola.P.PosSemidef ∧
    ∃ s : Solver Extended 1 0, Problem.freeParabola.setup Problem.unitSettings = .ok s ∧
      s.solveProblem Problem.freeParabola ![0] ![] 1 = .ok {
        z := Vec.ofReal ![0.5]
        y := Vec.ofReal ![]
        w := Vec.ofReal ![]
        iterations := 1
        residuals := { primal := 0, dual := 0 }
        status := .converged } ∧
      ¬ Problem.freeParabola.IsKKT ![0.5] ![] := by
  let _ := Precision.double
  obtain ⟨s, hs⟩ := Problem.exists_unit_setup (p := .freeParabola) PosSemidef.one
  exact ⟨PosSemidef.one, s, hs, Problem.freeParabola_solve hs, Problem.freeParabola_not_isKKT⟩

end Qp

end RecedingHorizon
