import RecedingHorizon.Proofs.Splitting

/-!
# The energy between two runs

The energy of two iterates weighs the squared distance of their shifted slacks `w + y / ρ`
with `ρ` and that of their points with `α σ`. One step of both runs changes it by an
explicit amount (`IsStep.energy_eq`). With a convex cost, and with multipliers that are
normals of the box, every term of that amount takes energy away (`IsStep.energy_le`).

Multipliers are normals of the box from the first step on. So two solves of one convex
problem never move apart after their first iteration (`energy_between_runs`).

The relaxation acts on the slack alone. So the weight of the points has a factor `α`, and
the defect `A x⁺ - w` pairs the new point with the old slack.
-/

namespace RecedingHorizon

namespace Qp

open Matrix

variable {n m : ℕ} {p : Problem n m} {t : Settings ℝ}

/-- The energy between two iterates. -/
noncomputable def energy (t : Settings ℝ) (u u' : Point n m) : ℝ :=
  t.rho * ((u.w - u'.w + t.rho⁻¹ • (u.y - u'.y)) ⬝ᵥ (u.w - u'.w + t.rho⁻¹ • (u.y - u'.y))) +
    t.alpha * t.sigma * ((u.x - u'.x) ⬝ᵥ (u.x - u'.x))

theorem energy_nonneg (ht : t.IsValid) (u u' : Point n m) : 0 ≤ energy t u u' :=
  add_nonneg (mul_nonneg ht.rho_pos.le (dot_self_nonneg _))
    (mul_nonneg (mul_nonneg ht.alpha_pos.le ht.sigma_nonneg) (dot_self_nonneg _))

namespace Problem.IsStep

variable {u u' v v' : Point n m}

theorem sub_stationary (h : p.IsStep t u v) (h' : p.IsStep t u' v') :
    p.P *ᵥ (v.x - v'.x) + p.Aᵀ *ᵥ (u.y - u'.y + t.rho • (p.A *ᵥ (v.x - v'.x) - (u.w - u'.w))) =
      t.sigma • (u.x - u'.x - (v.x - v'.x)) := by
  have hRight : t.sigma • (u.x - u'.x - (v.x - v'.x)) =
      t.sigma • (u.x - v.x) - t.sigma • (u'.x - v'.x) := by
    rw [← smul_sub]
    congr 1
    abel
  rw [hRight, ← h.stationary, ← h'.stationary]
  simp only [mulVec_sub, mulVec_add, mulVec_smul, smul_sub]
  abel

theorem sub_shift (h : p.IsStep t u v) (h' : p.IsStep t u' v') (hRho : t.rho ≠ 0) :
    v.w - v'.w + t.rho⁻¹ • (v.y - v'.y) = u.w - u'.w + t.rho⁻¹ • (u.y - u'.y) +
      t.alpha • (p.A *ᵥ (v.x - v'.x) - (u.w - u'.w)) := by
  have hScaled : t.rho • (v.w - v'.w + t.rho⁻¹ • (v.y - v'.y)) =
      t.rho • (u.w - u'.w + t.rho⁻¹ • (u.y - u'.y) +
        t.alpha • (p.A *ᵥ (v.x - v'.x) - (u.w - u'.w))) := by
    have hLeft : t.rho • (v.w - v'.w + t.rho⁻¹ • (v.y - v'.y)) =
        (t.rho • v.w + v.y) - (t.rho • v'.w + v'.y) := by
      rw [smul_add, smul_inv_smul₀ hRho, smul_sub]
      abel
    rw [hLeft, h.shift, h'.shift]
    simp only [smul_add, smul_sub, smul_inv_smul₀ hRho, mul_smul, mulVec_sub]
    abel
  exact smul_right_injective _ hRho hScaled

theorem energy_eq (h : p.IsStep t u v) (h' : p.IsStep t u' v') (hRho : t.rho ≠ 0) :
    let defect := p.A *ᵥ (v.x - v'.x) - (u.w - u'.w)
    let move := v.x - v'.x - (u.x - u'.x)
    energy t v v' = energy t u u' - t.alpha * (2 - t.alpha) * t.rho * (defect ⬝ᵥ defect) -
      2 * t.alpha * ((v.x - v'.x) ⬝ᵥ p.P *ᵥ (v.x - v'.x)) -
      2 * t.alpha * ((u.y - u'.y) ⬝ᵥ (u.w - u'.w)) -
      t.alpha * t.sigma * (move ⬝ᵥ move) := by
  intro defect move
  have hTested : (v.x - v'.x) ⬝ᵥ p.P *ᵥ (v.x - v'.x) +
      (u.y - u'.y + t.rho • defect) ⬝ᵥ (defect + (u.w - u'.w)) =
        t.sigma * ((u.x - u'.x) ⬝ᵥ (v.x - v'.x) - (v.x - v'.x) ⬝ᵥ (v.x - v'.x)) := by
    have hDot := congrArg (fun g => (v.x - v'.x) ⬝ᵥ g) (h.sub_stationary h')
    simp only [dotProduct_add, dotProduct_smul, smul_eq_mul] at hDot
    rw [dotProduct_comm _ (p.Aᵀ *ᵥ _), transpose_mulVec_dot, dotProduct_sub,
      dotProduct_comm _ (u.x - u'.x)] at hDot
    rwa [sub_add_cancel]
  have hCross : t.rho * ((u.w - u'.w + t.rho⁻¹ • (u.y - u'.y)) ⬝ᵥ defect) =
      t.rho * (defect ⬝ᵥ (u.w - u'.w)) + (u.y - u'.y) ⬝ᵥ defect := by
    rw [add_dotProduct, smul_dotProduct, smul_eq_mul, mul_add, mul_inv_cancel_left₀ hRho,
      dotProduct_comm _ defect]
  rw [add_dotProduct, dotProduct_add, dotProduct_add, smul_dotProduct, smul_dotProduct,
    smul_eq_mul, smul_eq_mul] at hTested
  unfold energy
  rw [h.sub_shift h' hRho, dot_self_add, dot_self_sub (v.x - v'.x),
    dotProduct_comm (v.x - v'.x) (u.x - u'.x), dotProduct_smul, dotProduct_smul, smul_dotProduct,
    smul_eq_mul, smul_eq_mul, smul_eq_mul]
  linear_combination 2 * t.alpha * hCross + 2 * t.alpha * hTested

/-- With a convex cost a step takes energy away, once the multipliers are normals. -/
theorem energy_le (h : p.IsStep t u v) (h' : p.IsStep t u' v') (ht : t.IsValid)
    (hP : p.P.PosSemidef) (hu : p.box.IsNormal u.w u.y) (hu' : p.box.IsNormal u'.w u'.y) :
    let defect := p.A *ᵥ (v.x - v'.x) - (u.w - u'.w)
    let move := v.x - v'.x - (u.x - u'.x)
    energy t v v' + t.alpha * (2 - t.alpha) * t.rho * (defect ⬝ᵥ defect) +
      t.alpha * t.sigma * (move ⬝ᵥ move) ≤ energy t u u' := by
  intro defect move
  have hForm : 0 ≤ (v.x - v'.x) ⬝ᵥ p.P *ᵥ (v.x - v'.x) := by
    simpa using hP.dotProduct_mulVec_nonneg (v.x - v'.x)
  have hCurvature : 0 ≤ 2 * t.alpha * ((v.x - v'.x) ⬝ᵥ p.P *ᵥ (v.x - v'.x)) :=
    mul_nonneg (mul_nonneg zero_le_two ht.alpha_pos.le) hForm
  have hNormal : 0 ≤ 2 * t.alpha * ((u.y - u'.y) ⬝ᵥ (u.w - u'.w)) :=
    mul_nonneg (mul_nonneg zero_le_two ht.alpha_pos.le) (hu.sub_dot_sub_nonneg hu')
  have hEnergy := h.energy_eq h' ht.rho_pos.ne'
  simp only at hEnergy
  linarith

theorem energy_le_energy (h : p.IsStep t u v) (h' : p.IsStep t u' v') (ht : t.IsValid)
    (hP : p.P.PosSemidef) (hu : p.box.IsNormal u.w u.y) (hu' : p.box.IsNormal u'.w u'.y) :
    energy t v v' ≤ energy t u u' := by
  refine le_trans (le_trans (le_add_of_nonneg_right ?_) (le_add_of_nonneg_right ?_))
    (h.energy_le h' ht hP hu hu')
  · exact mul_nonneg ht.relaxation_pos.le (dot_self_nonneg _)
  · exact mul_nonneg (mul_nonneg ht.alpha_pos.le ht.sigma_nonneg) (dot_self_nonneg _)

end Problem.IsStep

/-! ## Two solves of one problem -/

/-- **Nonexpansive solves.** Two solves with one solver and one problem, from any two starts, change
the energy between their iterates by an explicit amount in every iteration. The multipliers of
the starts are arbitrary, so the term that pairs them with the slacks can have either sign in
the first iteration. Afterwards it is not negative, and with a convex cost the energy does not
grow. -/
theorem energy_between_runs [Precision] {s : Solver Extended n m} (hs : p.setup t = .ok s)
    (hP : p.P.IsSymm) (z z' : Fin n → ℝ) (y y' : Fin m → ℝ) :
    ∃ u u' : ℕ → Point n m,
      (∀ k, s.iterate p z y k = .ofReal (u k) ∧ s.iterate p z' y' k = .ofReal (u' k)) ∧
      (∀ k,
        let gap := (u (k + 1)).x - (u' (k + 1)).x
        let defect := p.A *ᵥ gap - ((u k).w - (u' k).w)
        let move := gap - ((u k).x - (u' k).x)
        energy t (u (k + 1)) (u' (k + 1)) = energy t (u k) (u' k) -
          t.alpha * (2 - t.alpha) * t.rho * (defect ⬝ᵥ defect) -
          2 * t.alpha * (gap ⬝ᵥ p.P *ᵥ gap) -
          2 * t.alpha * (((u k).y - (u' k).y) ⬝ᵥ ((u k).w - (u' k).w)) -
          t.alpha * t.sigma * (move ⬝ᵥ move)) ∧
      (∀ k, 1 ≤ k → 0 ≤ ((u k).y - (u' k).y) ⬝ᵥ ((u k).w - (u' k).w)) ∧
      (p.P.PosSemidef → ∀ k, 1 ≤ k →
        energy t (u (k + 1)) (u' (k + 1)) ≤ energy t (u k) (u' k)) := by
  have hFactored := Problem.isFactored_of_setup hs hP
  have hValid := hFactored.valid
  have hStep := fun k => hFactored.run_isStep k (p.start z y)
  have hStep' := fun k => hFactored.run_isStep k (p.start z' y')
  refine ⟨fun k => p.run t k (p.start z y), fun k => p.run t k (p.start z' y'), fun k =>
    ⟨hFactored.iterate_ofReal z y k, hFactored.iterate_ofReal z' y' k⟩, fun k => ?_, ?_, ?_⟩
  · exact (hStep k).energy_eq (hStep' k) hValid.rho_pos.ne'
  · intro k hk
    obtain ⟨j, rfl⟩ := Nat.exists_eq_add_of_le' hk
    exact (hStep j).normal.sub_dot_sub_nonneg (hStep' j).normal
  · intro hConvex k hk
    obtain ⟨j, rfl⟩ := Nat.exists_eq_add_of_le' hk
    exact (hStep (j + 1)).energy_le_energy (hStep' (j + 1)) hValid hConvex (hStep j).normal
      (hStep' j).normal

theorem clippedParabola_energy_le :
    letI := Precision.double
    ∃ (s : Solver Extended 1 1) (u u' : ℕ → Point 1 1),
      Problem.clippedParabola.setup .standard = .ok s ∧
      (∀ k, s.iterate Problem.clippedParabola ![1] ![5] k = .ofReal (u k) ∧
        s.iterate Problem.clippedParabola ![-2] ![-3] k = .ofReal (u' k)) ∧
      0 ≤ ((u 1).y - (u' 1).y) ⬝ᵥ ((u 1).w - (u' 1).w) ∧
      energy .standard (u 2) (u' 2) ≤ energy .standard (u 1) (u' 1) := by
  let _ := Precision.double
  obtain ⟨s, hs⟩ := Problem.exists_setup_clippedParabola
  obtain ⟨u, u', hIterates, -, hPairing, hEnergy⟩ :=
    energy_between_runs hs isSymm_one ![1] ![-2] ![5] ![-3]
  exact ⟨s, u, u', hs, hIterates, hPairing 1 le_rfl,
    hEnergy Problem.clippedParabola_posSemidef 1 le_rfl⟩

end Qp

end RecedingHorizon
