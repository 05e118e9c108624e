import RecedingHorizon.Proofs.Limits
import RecedingHorizon.Proofs.Splitting

/-!
# Actions over the reals

A `Task` is what a controller is asked for in one action: a reference and limits. Together with
the measured state it makes a quadratic program in the stacked inputs (`Plant.problem`). An
action of a built controller solves that program with the number of iterations of the settings
and projects the first block of the answer onto the box of the first stage
(`IsBuilt.action_eq_ok`, `IsBuilt.exists_action`). No action on real data is refused.
-/

namespace RecedingHorizon

open Extended Matrix

/-- A reference to follow and limits to keep. -/
structure Task (nx nu N : ℕ) where
  states : Fin (N * nx) → ℝ
  inputs : Fin (N * nu) → ℝ
  limits : Limits nu N

def Task.reference {nx nu N : ℕ} (g : Task nx nu N) : Reference Extended where
  states := (Vec.ofReal g.states).toArray
  inputs := (Vec.ofReal g.inputs).toArray

def WarmStart.ofReal {n m : ℕ} (z : Fin n → ℝ) (y : Fin m → ℝ) : WarmStart Extended where
  z := (Vec.ofReal z).toArray
  y := (Vec.ofReal y).toArray

namespace Plant

variable {nx nu N : ℕ} {a : Plant nx nu}

/-- The program of one action. -/
noncomputable def problem (a : Plant nx nu) (x : Fin nx → ℝ) (g : Task nx nu N) :
    Qp.Problem (N * nu) (N * nu + (N - 1) * nu) where
  P := a.curvature N
  A := constraints nu N
  q := a.linear x g.states g.inputs
  box := g.limits.box

namespace IsBuilt

variable {c : Controller Extended nx nu N} {t : Settings ℝ}

theorem isFactored (h : a.IsBuilt c t) (x : Fin nx → ℝ) (g : Task nx nu N) :
    c.qp.IsFactored (a.problem x g) t :=
  h.factored _ _

variable [Precision]

/-- An action returns the answer of its program, with the first block clamped. -/
theorem action_eq_ok (h : a.IsBuilt c t) {x : Fin nx → ℝ} {g : Task nx nu N}
    {z : Fin (N * nu) → ℝ} {y : Fin (N * nu + (N - 1) * nu) → ℝ}
    {sol : Qp.Solution Extended (N * nu) (N * nu + (N - 1) * nu)}
    (hSol : c.qp.solveProblem (a.problem x g) z y t.maxIter = .ok sol) :
    c.action (Vec.ofReal x).toArray g.reference g.limits.bounds (.ofReal z y) = .ok {
      solution := sol
      control := Vec.clamp (g.limits.inputs.lower.block ⟨0, c.stages_pos⟩)
        (g.limits.inputs.upper.block ⟨0, c.stages_pos⟩) (sol.z.block ⟨0, c.stages_pos⟩) } := by
  have hIter : c.qp.settings.maxIter = t.maxIter := by
    rw [h.settings]
    rfl
  have hSolve : c.qp.solve (Vec.ofReal (a.linear x g.states g.inputs)).toArray
      (g.limits.inputs.lower ++ g.limits.rates.lower).toArray
      (g.limits.inputs.upper ++ g.limits.rates.upper).toArray (.ofReal z y) = .ok sol := by
    rw [Qp.Solver.solve, hIter]
    exact hSol
  rw [Task.reference, Limits.bounds, Controller.action_toArray,
    linear_ofReal h.prediction h.gradient h.inputWeight, hSolve]
  rfl

/-- An action ends with a step of the iteration on its program. -/
theorem exists_action (h : a.IsBuilt c t) (x : Fin nx → ℝ) (g : Task nx nu N)
    (z : Fin (N * nu) → ℝ) (y : Fin (N * nu + (N - 1) * nu) → ℝ) :
    ∃ u v, (a.problem x g).IsStep t u v ∧
      c.action (Vec.ofReal x).toArray g.reference g.limits.bounds (.ofReal z y) = .ok {
        solution := {
          z := Vec.ofReal v.x
          y := Vec.ofReal v.y
          w := Vec.ofReal v.w
          iterations := t.maxIter
          residuals := .ofReal ((a.problem x g).residuals t u v)
          status := (Qp.Residuals.ofReal ((a.problem x g).residuals t u v)).status t.ofReal }
        control := Vec.ofReal ((g.limits.inputs.block ⟨0, c.stages_pos⟩).project
          (Stage.block v.x ⟨0, c.stages_pos⟩)) } := by
  have hFactored := h.isFactored x g
  obtain ⟨k, hk⟩ := Nat.exists_eq_add_of_le' hFactored.valid.maxIter_pos
  have hSolve := hFactored.solveProblem_eq_ok z y k
  have hStep := hFactored.run_isStep k ((a.problem x g).start z y)
  rw [← hk] at hSolve hStep
  refine ⟨_, _, hStep, ?_⟩
  rw [h.action_eq_ok hSolve, Vec.block_ofReal, ← Box.clamp_ofReal]
  rfl

end IsBuilt

end Plant

end RecedingHorizon
