import RecedingHorizon.Proofs.Convergence

/-!
# Iteration budgets

How good the answer of a given number of iterations is. With a convex cost the energy between
neighbouring iterates never grows, since it is the energy between a run and the same run one
step ahead. Each step also takes at least `c = min ((2 - α) / α) 1` times that energy from the
energy to an optimum, which is `V₁` after the first step. So the last of `K` more steps has an
energy of at most `V₁ / (c K)`.

That energy bounds the move of the shifted slack `w + y / ρ`, and the move bounds both residuals
of the step (`solve_residuals_le`).
-/

namespace RecedingHorizon

namespace Qp

open Extended Matrix

/-- When steps that never grow are taken out of a nonnegative energy, the last one is at most
their mean. -/
theorem mul_le_of_antitone_of_decrease {V d : ℕ → ℝ} (hV : ∀ k, 0 ≤ V k) (hd : Antitone d)
    (hDecrease : ∀ k, V (k + 1) + d k ≤ V k) (K : ℕ) : (K + 1) * d K ≤ V 0 := by
  have hSpent : ∀ k, k ≤ K + 1 → V k + k * d K ≤ V 0 := by
    intro k
    induction k with
    | zero => intro _; simp
    | succ k ih =>
      intro hk
      have hLast : d K ≤ d k := hd (Nat.le_of_succ_le_succ hk)
      have hStep := hDecrease k
      have hBefore := ih (Nat.le_of_succ_le hk)
      push_cast
      linarith
  have hAll := hSpent (K + 1) le_rfl
  push_cast at hAll
  linarith [hV (K + 1)]

namespace Problem

variable {n m : ℕ} {p : Problem n m} {t : Settings ℝ}

/-! ## The residuals of a step -/

/-- The largest Euclidean norm of a column of the constraint matrix. -/
noncomputable def columnNorm (p : Problem n m) : ℝ := ⨆ j, Real.sqrt (∑ i, p.A i j ^ 2)

theorem columnNorm_nonneg (p : Problem n m) : 0 ≤ p.columnNorm :=
  Real.iSup_nonneg fun _ => Real.sqrt_nonneg _

theorem norm_transpose_mulVec_le_sqrt (r : Fin m → ℝ) :
    ‖p.Aᵀ *ᵥ r‖ ≤ p.columnNorm * Real.sqrt (r ⬝ᵥ r) := by
  have hBounded : BddAbove (Set.range fun j => Real.sqrt (∑ i, p.A i j ^ 2)) :=
    (Set.finite_range _).bddAbove
  have hColumn : ∀ j, Real.sqrt (∑ i, p.A i j ^ 2) ≤ p.columnNorm := fun j => le_ciSup hBounded j
  have hDot : r ⬝ᵥ r = ∑ i, r i ^ 2 := Finset.sum_congr rfl fun i _ => (pow_two (r i)).symm
  apply (pi_norm_le_iff_of_nonneg (mul_nonneg p.columnNorm_nonneg (Real.sqrt_nonneg _))).mpr
  intro j
  have hCauchy := Finset.sum_mul_sq_le_sq_mul_sq Finset.univ (fun i => p.A i j) r
  have hEntry : |(p.Aᵀ *ᵥ r) j| ≤ Real.sqrt (∑ i, p.A i j ^ 2) * Real.sqrt (r ⬝ᵥ r) := by
    rw [hDot, ← Real.sqrt_mul (Finset.sum_nonneg fun i _ => sq_nonneg _)]
    exact Real.abs_le_sqrt hCauchy
  exact hEntry.trans (mul_le_mul_of_nonneg_right (hColumn j) (Real.sqrt_nonneg _))

/-- The move of the shifted slack `w + y / ρ` from `u` to `v`. -/
noncomputable def shiftMove (t : Settings ℝ) (u v : Point n m) : Fin m → ℝ :=
  v.w - u.w + t.rho⁻¹ • (v.y - u.y)

namespace IsStep

variable {u v : Point n m}

theorem shiftMove_eq (h : p.IsStep t u v) (hRho : t.rho ≠ 0) :
    shiftMove t u v = t.alpha • (p.A *ᵥ v.x - u.w) := by
  have hScaled : t.rho • shiftMove t u v = t.rho • t.alpha • (p.A *ᵥ v.x - u.w) := by
    have hLeft : t.rho • shiftMove t u v = t.rho • v.w + v.y - (t.rho • u.w + u.y) := by
      rw [shiftMove, smul_add, smul_inv_smul₀ hRho, smul_sub]
      abel
    rw [hLeft, h.shift, add_sub_cancel_left, mul_smul]
  exact smul_right_injective _ hRho hScaled

/-- The slack moves no more than the shifted slack, of which it is the projection. -/
theorem dot_slack_le (h : p.IsStep t u v) (hRho : 0 < t.rho) (hu : p.box.IsNormal u.w u.y) :
    (v.w - u.w) ⬝ᵥ (v.w - u.w) ≤ shiftMove t u v ⬝ᵥ shiftMove t u v := by
  have hMonotone := h.normal.sub_dot_sub_nonneg hu
  have hCross : 0 ≤ (v.w - u.w) ⬝ᵥ (t.rho⁻¹ • (v.y - u.y)) := by
    rw [dotProduct_smul, smul_eq_mul, dotProduct_comm]
    exact mul_nonneg (inv_pos.mpr hRho).le hMonotone
  rw [shiftMove, dot_self_add]
  linarith [dot_self_nonneg (t.rho⁻¹ • (v.y - u.y))]

theorem primal_residual_le (h : p.IsStep t u v) (ht : t.IsValid) (hu : p.box.IsNormal u.w u.y) :
    (p.residuals t u v).primal ≤
      (1 + t.alpha) / t.alpha * Real.sqrt (shiftMove t u v ⬝ᵥ shiftMove t u v) := by
  have hDefect : p.A *ᵥ v.x - u.w = t.alpha⁻¹ • shiftMove t u v := by
    rw [h.shiftMove_eq ht.rho_pos.ne', inv_smul_smul₀ ht.alpha_pos.ne']
  have hSplit : p.A *ᵥ v.x - v.w = t.alpha⁻¹ • shiftMove t u v - (v.w - u.w) := by
    rw [← hDefect]
    abel
  have hShift := norm_le_sqrt_dot_self (shiftMove t u v)
  have hSlack : ‖v.w - u.w‖ ≤ Real.sqrt (shiftMove t u v ⬝ᵥ shiftMove t u v) :=
    (norm_le_sqrt_dot_self _).trans (Real.sqrt_le_sqrt (h.dot_slack_le ht.rho_pos hu))
  calc
    ‖p.A *ᵥ v.x - v.w‖ ≤ t.alpha⁻¹ * ‖shiftMove t u v‖ + ‖v.w - u.w‖ := by
      rw [hSplit]
      refine (norm_sub_le _ _).trans_eq ?_
      rw [norm_smul, Real.norm_of_nonneg (inv_pos.mpr ht.alpha_pos).le]
    _ ≤ t.alpha⁻¹ * Real.sqrt (shiftMove t u v ⬝ᵥ shiftMove t u v) +
        Real.sqrt (shiftMove t u v ⬝ᵥ shiftMove t u v) :=
      add_le_add (mul_le_mul_of_nonneg_left hShift (inv_pos.mpr ht.alpha_pos).le) hSlack
    _ = (1 + t.alpha) / t.alpha * Real.sqrt (shiftMove t u v ⬝ᵥ shiftMove t u v) := by
      have := ht.alpha_pos.ne'
      field_simp

theorem dual_residual_le (h : p.IsStep t u v) (ht : t.IsValid) (hu : p.box.IsNormal u.w u.y) :
    (p.residuals t u v).dual ≤
      t.rho * p.columnNorm * Real.sqrt (shiftMove t u v ⬝ᵥ shiftMove t u v) := by
  rw [mul_assoc]
  apply mul_le_mul_of_nonneg_left _ ht.rho_pos.le
  exact (norm_transpose_mulVec_le_sqrt _).trans (mul_le_mul_of_nonneg_left
    (Real.sqrt_le_sqrt (h.dot_slack_le ht.rho_pos hu)) p.columnNorm_nonneg)

end IsStep

/-! ## The energy of a step -/

theorem energy_succ_eq (u v : Point n m) :
    energy t v u = t.rho * (shiftMove t u v ⬝ᵥ shiftMove t u v) +
      t.alpha * t.sigma * ((v.x - u.x) ⬝ᵥ (v.x - u.x)) := rfl

theorem energy_rest_eq (u : Point n m) (z : Fin n → ℝ) (y : Fin m → ℝ) :
    energy t u (p.rest z y) =
      t.rho * ∑ i, (u.w i + u.y i / t.rho - (p.A *ᵥ z) i - y i / t.rho) ^ 2 +
        t.alpha * t.sigma * ∑ j, (u.x j - z j) ^ 2 := by
  have hShift : ∀ i, (u.w - p.A *ᵥ z + t.rho⁻¹ • (u.y - y)) i =
      u.w i + u.y i / t.rho - (p.A *ᵥ z) i - y i / t.rho := by
    intro i
    simp only [Pi.add_apply, Pi.sub_apply, Pi.smul_apply, smul_eq_mul, div_eq_inv_mul]
    ring
  simp only [energy, rest_x, rest_w, rest_y, dotProduct, hShift, Pi.sub_apply, ← pow_two]

theorem dot_shiftMove_le (ht : t.IsValid) {u v : Point n m} {e : ℝ} (h : energy t v u ≤ e) :
    shiftMove t u v ⬝ᵥ shiftMove t u v ≤ e / t.rho := by
  have hPoint : 0 ≤ t.alpha * t.sigma * ((v.x - u.x) ⬝ᵥ (v.x - u.x)) :=
    mul_nonneg (mul_nonneg ht.alpha_pos.le ht.sigma_nonneg) (dot_self_nonneg _)
  rw [energy_succ_eq] at h
  rw [le_div_iff₀' ht.rho_pos]
  linarith

namespace IsTail

variable {u : ℕ → Point n m} {z : Fin n → ℝ} {y : Fin m → ℝ}

variable (h : p.IsTail t u) (ht : t.IsValid) (hUnit : IsUnit (p.system t).det)

include h ht hUnit

/-- The energy between neighbours is the energy between a run and the run one step ahead. -/
theorem antitone_energy_succ (hP : p.P.PosSemidef) :
    Antitone fun k => energy t (u (k + 1)) (u k) := by
  apply antitone_nat_of_succ_le
  intro k
  exact (h.isStep ht hUnit (k + 1)).energy_le_energy (h.isStep ht hUnit k) ht hP
    (h.normal (k + 1)) (h.normal k)

/-- A step takes a fixed share `c` of its energy from the energy to an optimum. -/
theorem mul_energy_succ_le {c : ℝ} (hRelaxed : c * t.alpha ≤ 2 - t.alpha) (hOne : c ≤ 1) (k : ℕ) :
    c * energy t (u (k + 1)) (u k) ≤
      t.alpha * (2 - t.alpha) * t.rho * (defect p u k ⬝ᵥ defect p u k) +
        t.alpha * (move t u k ⬝ᵥ move t u k) := by
  have hShift : shiftMove t (u k) (u (k + 1)) = t.alpha • defect p u k :=
    (h.isStep ht hUnit k).shiftMove_eq ht.rho_pos.ne'
  have hDefect : c * (t.rho * (t.alpha * (t.alpha * (defect p u k ⬝ᵥ defect p u k)))) ≤
      t.alpha * (2 - t.alpha) * t.rho * (defect p u k ⬝ᵥ defect p u k) := by
    have hFactor : 0 ≤ t.alpha * t.rho * (defect p u k ⬝ᵥ defect p u k) :=
      mul_nonneg (mul_pos ht.alpha_pos ht.rho_pos).le (dot_self_nonneg _)
    linarith [mul_le_mul_of_nonneg_right hRelaxed hFactor]
  have hPoint : c * (t.alpha * (move t u k ⬝ᵥ move t u k)) ≤
      t.alpha * (move t u k ⬝ᵥ move t u k) :=
    mul_le_of_le_one_left (move_loss_nonneg ht k) hOne
  rw [energy_succ_eq, hShift, smul_dotProduct, dotProduct_smul, smul_eq_mul, smul_eq_mul,
    mul_assoc t.alpha t.sigma, ← dot_move_eq ht, mul_add]
  exact add_le_add hDefect hPoint

/-- The last of some first steps has at most an equal part of the energy to an optimum. -/
theorem energy_succ_le (hP : p.P.PosSemidef) (hKKT : p.IsKKT z y) {c : ℝ} (hPos : 0 < c)
    (hRelaxed : c * t.alpha ≤ 2 - t.alpha) (hOne : c ≤ 1) (K : ℕ) :
    energy t (u (K + 1)) (u K) ≤ energy t (u 0) (p.rest z y) / (c * (K + 1)) := by
  have hDecrease : ∀ k, energy t (u (k + 1)) (p.rest z y) + c * energy t (u (k + 1)) (u k) ≤
      energy t (u k) (p.rest z y) := fun k =>
    (add_le_add_right (h.mul_energy_succ_le ht hUnit hRelaxed hOne k) _).trans
      (h.energy_add_loss_le ht hUnit hP hKKT k)
  have hAntitone : Antitone fun k => c * energy t (u (k + 1)) (u k) :=
    (h.antitone_energy_succ ht hUnit hP).const_mul hPos.le
  have hMean := mul_le_of_antitone_of_decrease (fun k => energy_nonneg ht (u k) (p.rest z y))
    hAntitone hDecrease K
  rw [le_div_iff₀ (mul_pos hPos (by positivity))]
  linarith

end IsTail

end Problem

/-- **Iteration budgets.** With a convex cost and an optimum `(z, y)` of the program, the residuals
after `K + 1` iterations are at most constants times the inverse root of `K`. The constants depend
on the settings, on the columns of the constraint matrix, and on the energy of the first iterate to
the optimum. -/
theorem solve_residuals_le [Precision] {n m : ℕ} {p : Problem n m} {t : Settings ℝ}
    {s : Solver Extended n m} (hs : p.setup t = .ok s) (hP : p.P.PosSemidef) {z : Fin n → ℝ}
    {y : Fin m → ℝ} (hKKT : p.IsKKT z y) (z₀ : Fin n → ℝ) (y₀ : Fin m → ℝ) :
    ∃ (x₁ : Fin n → ℝ) (w₁ y₁ : Fin m → ℝ),
      s.run p.data 1 (s.start p.data (Vec.ofReal z₀) (Vec.ofReal y₀)) =
        { x := Vec.ofReal x₁, w := Vec.ofReal w₁, y := Vec.ofReal y₁ } ∧
      let V₁ := t.rho * ∑ i, (w₁ i + y₁ i / t.rho - (p.A *ᵥ z) i - y i / t.rho) ^ 2 +
        t.alpha * t.sigma * ∑ j, (x₁ j - z j) ^ 2
      let c := min ((2 - t.alpha) / t.alpha) 1
      ∀ K : ℕ, 1 ≤ K → ∃ sol, s.solveProblem p z₀ y₀ (K + 1) = .ok sol ∧
        sol.residuals.primal ≤
          finite ((1 + t.alpha) / t.alpha * Real.sqrt (V₁ / (c * t.rho * K))) ∧
        sol.residuals.dual ≤
          finite (t.rho * p.columnNorm * Real.sqrt (V₁ / (c * t.rho * K))) := by
  have hSymm : p.P.IsSymm := by simpa using hP.isHermitian
  have hFactored := Problem.isFactored_of_setup hs hSymm
  have hValid := hFactored.valid
  let u : ℕ → Point n m := fun k => p.run t (k + 1) (p.start z₀ y₀)
  have hTail : p.IsTail t u := Problem.run_isTail hValid hFactored.isUnit_det _
  refine ⟨(u 0).x, (u 0).w, (u 0).y, ?_, ?_⟩
  · rw [hFactored.start_ofReal, hFactored.run_ofReal]
    rfl
  · intro V₁ c K hK
    obtain ⟨j, rfl⟩ := Nat.exists_eq_add_of_le' hK
    have hPos : 0 < c :=
      lt_min (div_pos (sub_pos.mpr hValid.alpha_lt_two) hValid.alpha_pos) one_pos
    have hRelaxed : c * t.alpha ≤ 2 - t.alpha :=
      (le_div_iff₀ hValid.alpha_pos).mp (min_le_left _ _)
    have hV₁ : V₁ = energy t (u 0) (p.rest z y) := (Problem.energy_rest_eq _ z y).symm
    have hStep := hTail.isStep hValid hFactored.isUnit_det j
    have hMove : Problem.shiftMove t (u j) (u (j + 1)) ⬝ᵥ Problem.shiftMove t (u j) (u (j + 1)) ≤
        V₁ / (c * t.rho * ((j + 1 : ℕ) : ℝ)) := by
      have hEnergy := hTail.energy_succ_le hValid hFactored.isUnit_det hP hKKT hPos hRelaxed
        (min_le_right _ _) j
      refine (Problem.dot_shiftMove_le hValid hEnergy).trans_eq ?_
      rw [div_div, ← hV₁, mul_right_comm, Nat.cast_succ]
    have hRoot := Real.sqrt_le_sqrt hMove
    have hPrimal : 0 ≤ (1 + t.alpha) / t.alpha :=
      (div_pos (by linarith [hValid.alpha_pos]) hValid.alpha_pos).le
    have hDual : 0 ≤ t.rho * p.columnNorm := mul_nonneg hValid.rho_pos.le p.columnNorm_nonneg
    refine ⟨_, hFactored.solveProblem_eq_ok z₀ y₀ (j + 1), ?_, ?_⟩
    · exact finite_le.mpr ((hStep.primal_residual_le hValid (hTail.normal j)).trans
        (mul_le_mul_of_nonneg_left hRoot hPrimal))
    · exact finite_le.mpr ((hStep.dual_residual_le hValid (hTail.normal j)).trans
        (mul_le_mul_of_nonneg_left hRoot hDual))

theorem clippedParabola_residuals_le :
    letI := Precision.double
    ∃ (s : Solver Extended 1 1) (x₁ w₁ y₁ : Fin 1 → ℝ) (sol : Solution Extended 1 1),
      Problem.clippedParabola.setup .standard = .ok s ∧
      s.run Problem.clippedParabola.data 1
          (s.start Problem.clippedParabola.data (Vec.ofReal ![1]) (Vec.ofReal ![0])) =
        { x := Vec.ofReal x₁, w := Vec.ofReal w₁, y := Vec.ofReal y₁ } ∧
      s.solveProblem Problem.clippedParabola ![1] ![0] (4 + 1) = .ok sol ∧
      sol.residuals.primal ≤ finite ((1 + 1.6) / 1.6 * Real.sqrt
        ((0.1 * ∑ i, (w₁ i + y₁ i / 0.1 - (Problem.clippedParabola.A *ᵥ ![0]) i - ![1] i / 0.1) ^ 2 +
          1.6 * 1e-4 * ∑ j, (x₁ j - ![0] j) ^ 2) / (min ((2 - 1.6) / 1.6) 1 * 0.1 * (4 : ℕ)))) := by
  let _ := Precision.double
  obtain ⟨s, hs⟩ := Problem.exists_setup_clippedParabola
  obtain ⟨x₁, w₁, y₁, hFirst, hBudget⟩ := solve_residuals_le hs Problem.clippedParabola_posSemidef
    Problem.clippedParabola_isKKT ![1] ![0]
  obtain ⟨sol, hSolve, hPrimal, -⟩ := hBudget 4 (by norm_num)
  exact ⟨s, x₁, w₁, y₁, sol, hs, hFirst, hSolve, hPrimal⟩

end Qp

end RecedingHorizon
