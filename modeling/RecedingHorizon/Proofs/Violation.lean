import RecedingHorizon.Proofs.Action

/-!
# The primal residual bounds every violation

The slack of an iterate lies in the box, so a row of `A z` exceeds its bounds by no more than its
distance from the slack, which the primal residual bounds (`IsStep.within`). For a controller
the rows are the inputs and their changes, and the applied control, the projection of the first
block, is at least as near to that block as the slack of its rows is
(`abs_project_block_sub_le`).

When no point meets the rows to within the tolerance, no solve reports converged.
-/

namespace RecedingHorizon

open Extended Matrix

namespace Qp

variable {n m : ℕ} {p : Problem n m} {t : Settings ℝ} {u v : Point n m} [Precision]

theorem Residuals.primal_le_of_status {r : Residuals ℝ}
    (h : (Residuals.ofReal r).status t.ofReal = .converged) : r.primal ≤ t.primalTolerance :=
  finite_le.mp (Residuals.status_eq_converged_iff.mp h).1

namespace Problem.IsStep

theorem within (h : p.IsStep t u v) :
    p.box.Within (finite (p.residuals t u v).primal) (Vec.ofReal (p.A *ᵥ v.x)) :=
  Box.within_of_mem h.normal.mem

theorem status_eq (h : p.IsStep t u v)
    (hOutside : ∀ z, ¬ p.box.Within (finite t.primalTolerance) (Vec.ofReal (p.A *ᵥ z))) :
    (Residuals.ofReal (p.residuals t u v)).status t.ofReal = .maxIterReached := by
  cases hStatus : (Residuals.ofReal (p.residuals t u v)).status t.ofReal with
  | converged =>
    exact absurd (h.within.mono (Residuals.primal_le_of_status hStatus)) (hOutside v.x)
  | maxIterReached => rfl

end Problem.IsStep

end Qp

namespace Plant

variable {nx nu N : ℕ} {a : Plant nx nu} {t : Settings ℝ} {x : Fin nx → ℝ} {g : Task nx nu N}
  {u v : Qp.Point (N * nu) (N * nu + (N - 1) * nu)}

/-- Projecting a block of the inputs moves no entry by more than the primal residual. -/
theorem abs_project_block_sub_le (h : (a.problem x g).IsStep t u v) (k : Fin N) (j : Fin nu) :
    |(g.limits.inputs.block k).project (Stage.block v.x k) j - Stage.block v.x k j| ≤
      ((a.problem x g).residuals t u v).primal := by
  let slack : Fin (N * nu) → ℝ := fun i => v.w (Fin.castAdd _ i)
  have hSlack : slack ∈ g.limits.inputs := by
    have hMem : v.w ∈ g.limits.inputs.append g.limits.rates := h.normal.mem
    rw [← Fin.append_castAdd_natAdd (f := v.w), Box.mem_append_iff] at hMem
    exact hMem.1
  have hRow : (constraints nu N *ᵥ v.x - v.w) (Fin.castAdd _ (Stage.index k j)) =
      Stage.block v.x k j - Stage.block slack k j := by
    rw [Pi.sub_apply, constraints, Mat.stack_mulVec, Fin.append_left, one_mulVec]
    rfl
  rw [abs_sub_comm]
  calc
    |Stage.block v.x k j - (g.limits.inputs.block k).project (Stage.block v.x k) j|
        ≤ |Stage.block v.x k j - Stage.block slack k j| :=
      Box.abs_sub_project_le (Box.mem_iff_block.mp hSlack k) j
    _ ≤ ‖constraints nu N *ᵥ v.x - v.w‖ := by
      rw [← hRow]
      exact norm_le_pi_norm (constraints nu N *ᵥ v.x - v.w) _

end Plant

/-- **Violations.** The primal residual that a solve reports bounds how far each constraint row is
outside its bounds. For an action it bounds how far each input and each change of the input
are outside theirs, and how far the applied control is from the first block of the answer. When
no point meets the rows to within the tolerance, no solve and no action reports converged. -/
theorem primal_residual_bounds_violation [Precision] :
    (∀ {n m : ℕ} {p : Qp.Problem n m} {t : Settings ℝ} {s : Qp.Solver Extended n m},
      p.setup t = .ok s → ∀ z y k, ∃ sol, s.solveProblem p z y (k + 1) = .ok sol ∧
        p.box.Within sol.residuals.primal (s.constraints.mulVec sol.z) ∧
        ((∀ z', ¬ p.box.Within s.settings.primalTolerance (s.constraints.mulVec (Vec.ofReal z'))) →
          sol.status = .maxIterReached)) ∧
    ∀ {nx nu N : ℕ} {a : Plant nx nu} {settings : Settings Extended} {period : Extended}
      {c : Controller Extended nx nu N}, a.build N settings period = .ok c →
      ∀ (x : Fin nx → ℝ) (g : Task nx nu N) (z : Fin (N * nu) → ℝ)
        (y : Fin (N * nu + (N - 1) * nu) → ℝ), ∃ act : Action Extended nu N,
        let first := act.solution.z.block ⟨0, c.stages_pos⟩
        c.action (Vec.ofReal x).toArray g.reference g.limits.bounds (.ofReal z y) = .ok act ∧
        g.limits.Within act.solution.residuals.primal act.solution.z ∧
        (∀ j, Scalar.abs (act.control.get j - first.get j) ≤ act.solution.residuals.primal) ∧
        (act.solution.status = .converged →
          ∀ j, Scalar.abs (act.control.get j - first.get j) ≤ settings.primalTolerance) ∧
        ((∀ u, ¬ g.limits.Within settings.primalTolerance (Vec.ofReal u)) →
          act.solution.status = .maxIterReached) := by
  constructor
  · intro n m p t s hs z y k
    obtain ⟨u, v, hStep, hSolve⟩ := Qp.Problem.exists_step_of_setup hs z y k
    have hFactored := Qp.Problem.isFactored_mirrored_of_setup hs
    have hConstraints : s.constraints = Mat.ofReal p.A := hFactored.constraints
    have hSettings : s.settings = t.ofReal := hFactored.settings
    refine ⟨_, hSolve, ?_, fun hOutside => ?_⟩
    · rw [hConstraints, Mat.mulVec_ofReal]
      exact hStep.within
    · simp only [hConstraints, hSettings, Mat.mulVec_ofReal] at hOutside
      exact hStep.status_eq hOutside
  · intro nx nu N a settings period c hc x g z y
    obtain ⟨t, rfl, hBuilt⟩ := Plant.exists_isBuilt_of_build hc
    obtain ⟨u, v, hStep, hAction⟩ := hBuilt.exists_action x g z y
    have hControl : ∀ j, |(g.limits.inputs.block ⟨0, c.stages_pos⟩).project
        (Stage.block v.x ⟨0, c.stages_pos⟩) j - Stage.block v.x ⟨0, c.stages_pos⟩ j| ≤
          ((a.problem x g).residuals t u v).primal :=
      Plant.abs_project_block_sub_le hStep _
    refine ⟨_, hAction, g.limits.within_iff.mp hStep.within, ?_, ?_, fun hOutside => ?_⟩
    · intro j
      rw [Vec.block_ofReal, Vec.get_ofReal, Vec.get_ofReal, finite_sub, abs_finite]
      exact finite_le.mpr (hControl j)
    · intro hStatus j
      rw [Vec.block_ofReal, Vec.get_ofReal, Vec.get_ofReal, finite_sub, abs_finite]
      exact finite_le.mpr ((hControl j).trans (Qp.Residuals.primal_le_of_status hStatus))
    · exact hStep.status_eq fun u hWithin => hOutside u (g.limits.within_iff.mp hWithin)

/-! ## Conflicting limits -/

/-- Two stages whose inputs are held at zero although they have to rise by one. -/
def Task.conflict : Task 1 1 2 where
  states := 0
  inputs := 0
  limits := {
    inputs := .between 0 0 fun _ => le_rfl
    rates := .between 1 1 fun _ => le_rfl }

theorem Task.conflict_not_within [Precision] (u : Fin (2 * 1) → ℝ) :
    ¬ conflict.limits.Within (Settings.ofReal .standard).primalTolerance (Vec.ofReal u) := by
  intro h
  have hBefore := (h.inputs 0 0).1
  have hAfter := (h.inputs 1 0).2
  have hRise := (h.rates 0 0).1
  simp only [conflict, Box.between, Box.block, Settings.ofReal, Settings.standard, Vec.get_block,
    Vec.get_ofReal, Vec.get_sub, finite_sub, finite_add, finite_le] at hBefore hAfter hRise
  change (0 : ℝ) - 1e-3 ≤ u (Stage.index 0 0) at hBefore
  change u (Stage.index 1 0) ≤ (0 : ℝ) + 1e-3 at hAfter
  change (1 : ℝ) - 1e-3 ≤ u (Stage.index 1 0) - u (Stage.index 0 0) at hRise
  norm_num at hBefore hAfter hRise
  linarith

theorem conflict_violation :
    letI := Precision.double
    (∃ s sol, Qp.Problem.clippedParabola.setup .standard = .ok s ∧
      s.solveProblem Qp.Problem.clippedParabola ![1] ![0] 3 = .ok sol ∧
      Qp.Problem.clippedParabola.box.Within sol.residuals.primal (s.constraints.mulVec sol.z)) ∧
    ∃ (c : Controller Extended 1 1 2) (act : Action Extended 1 2),
      Plant.integrator.build 2 (Settings.ofReal .standard) (finite 0.02) = .ok c ∧
      c.action (Vec.ofReal ![1]).toArray Task.conflict.reference Task.conflict.limits.bounds
        (.ofReal (0 : Fin (2 * 1) → ℝ) (0 : Fin (2 * 1 + (2 - 1) * 1) → ℝ)) = .ok act ∧
      Task.conflict.limits.Within act.solution.residuals.primal act.solution.z ∧
      act.solution.status = .maxIterReached := by
  let _ := Precision.double
  obtain ⟨hSolves, hActions⟩ := primal_residual_bounds_violation
  obtain ⟨s, hs⟩ := Qp.Problem.exists_setup_clippedParabola
  obtain ⟨sol, hSolve, hRows, -⟩ := hSolves hs ![1] ![0] 2
  obtain ⟨c, hc⟩ := Plant.exists_build_integrator two_pos
  obtain ⟨act, hAction, hWithin, -, -, hStatus⟩ := hActions hc ![1] Task.conflict 0 0
  exact ⟨⟨s, sol, hs, hSolve, hRows⟩, c, act, hc, hAction, hWithin,
    hStatus Task.conflict_not_within⟩

end RecedingHorizon
