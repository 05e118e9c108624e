import RecedingHorizon.Proofs.Condensation

/-!
# The condensed cost is the tracking cost

The cost that a controller tracks is a sum over stages: the deviation of each simulated
state and of each input from the reference, weighted with `Q` and `R`
(`StageCost.tracking`). Eliminating the states by the prediction `F u + E x` makes it one
quadratic form in the stacked inputs. Up to its value at zero inputs this is the objective of
the program that a controller was built with (`objective_eq_tracking`).
-/

namespace RecedingHorizon

open Extended Matrix

/-! ## The cost along a simulation -/

section Tracking

variable {S : Type} [Scalar S] {nx nu N : ℕ}

def Mat.form {n : ℕ} (M : Mat S n n) (v : Vec S n) : S := v.dot (M.mulVec v)

/-- Half the weighted squares of the deviations along the simulation from `x`: of the state
after each stage, which `LinearModel.step` reaches (`step_rollout`), and of the input at its
start. -/
def StageCost.tracking (cost : StageCost S nx nu) (model : LinearModel S nx nu) (x : Vec S nx)
    (states : Vec S (N * nx)) (inputs u : Vec S (N * nu)) : S :=
  Scalar.half * Scalar.sum fun k : Fin N =>
    cost.Q.form ((model.rollout x u (k + 1) k.isLt).sub (states.block k)) +
      cost.R.form ((u.block k).sub (inputs.block k))

end Tracking

namespace Plant

variable {nx nu N : ℕ} (a : Plant nx nu) (x : Fin nx → ℝ) (states : Fin (N * nx) → ℝ)
  (inputs u : Fin (N * nu) → ℝ)

/-- The tracking cost over the reals, with the states eliminated. -/
noncomputable def tracking : ℝ :=
  0.5 * ((a.F N *ᵥ u + (a.E N *ᵥ x - states)) ⬝ᵥ
      Stage.diagonal N a.Q *ᵥ (a.F N *ᵥ u + (a.E N *ᵥ x - states)) +
    (u - inputs) ⬝ᵥ Stage.diagonal N a.R *ᵥ (u - inputs))

/-- The tracking cost above that of zero inputs. -/
theorem tracking_sub_zero (hQ : a.Q.IsSymm) (hR : a.R.IsSymm) :
    a.tracking x states inputs u - a.tracking x states inputs 0 =
      0.5 * (u ⬝ᵥ a.hessian N *ᵥ u) + a.linear x states inputs ⬝ᵥ u := by
  have hStates := dot_mulVec_add (Stage.diagonal_isSymm (N := N) hQ) (a.F N *ᵥ u)
    (a.E N *ᵥ x - states)
  have hInputs := dot_mulVec_sub (Stage.diagonal_isSymm (N := N) hR) u inputs
  have hForm : u ⬝ᵥ a.hessian N *ᵥ u = (a.F N *ᵥ u) ⬝ᵥ Stage.diagonal N a.Q *ᵥ (a.F N *ᵥ u) +
      u ⬝ᵥ Stage.diagonal N a.R *ᵥ u := by
    rw [hessian, gradient, add_mulVec, dotProduct_add, ← mulVec_mulVec, ← mulVec_mulVec,
      dotProduct_comm u, transpose_mulVec_dot, dotProduct_comm (Stage.diagonal N a.Q *ᵥ _)]
  have hLinear : a.linear x states inputs ⬝ᵥ u =
      (a.F N *ᵥ u) ⬝ᵥ Stage.diagonal N a.Q *ᵥ (a.E N *ᵥ x - states) -
        u ⬝ᵥ Stage.diagonal N a.R *ᵥ inputs := by
    rw [linear, gradient, sub_dotProduct, ← mulVec_mulVec, transpose_mulVec_dot,
      dotProduct_comm (Stage.diagonal N a.Q *ᵥ _), dotProduct_comm (Stage.diagonal N a.R *ᵥ _)]
  have hZero : (0 - inputs) ⬝ᵥ Stage.diagonal N a.R *ᵥ (0 - inputs) =
      inputs ⬝ᵥ Stage.diagonal N a.R *ᵥ inputs := by
    rw [zero_sub, mulVec_neg, dotProduct_neg, neg_dotProduct, neg_neg]
  unfold tracking
  rw [hStates, hInputs, mulVec_zero, zero_add, hZero, hForm, hLinear]
  ring

variable {a} [Precision]

theorem form_ofReal {n : ℕ} (M : Matrix (Fin n) (Fin n) ℝ) (v : Fin n → ℝ) :
    (Mat.ofReal M).form (Vec.ofReal v) = finite (v ⬝ᵥ M *ᵥ v) := by
  rw [Mat.form, Mat.mulVec_ofReal, Vec.dot_ofReal]

theorem tracking_ofReal :
    a.cost.tracking a.model (Vec.ofReal x) (Vec.ofReal states) (Vec.ofReal inputs)
      (Vec.ofReal u) = finite (a.tracking x states inputs u) := by
  have hState : ∀ k : Fin N, Stage.block (a.F N *ᵥ u + (a.E N *ᵥ x - states)) k =
      LinearModel.response a.A a.B x u (k + 1) - Stage.block states k := by
    intro k
    rw [← add_sub_assoc, Stage.block_sub]
    exact congrArg (· - _) (Prediction.block_real_eq_response a.A a.B x u k)
  simp only [StageCost.tracking, cost, model, LinearModel.rollout_ofReal, Vec.block_ofReal,
    Vec.sub_ofReal, form_ofReal, finite_add, sum_finite, half_eq, finite_mul]
  rw [tracking, Stage.dot_diagonal_mulVec, Stage.dot_diagonal_mulVec, ← Finset.sum_add_distrib]
  simp only [hState, Stage.block_sub]

end Plant

/-- **Condensed cost.** The objective of the program that a controller was built with, at the
linear cost of a state and a reference, is the tracking cost along the simulation from
that state, less the tracking cost of zero inputs. So it orders stacked inputs as the tracking
cost does. -/
theorem Controller.objective_eq_tracking [Precision] {nx nu N : ℕ} {a : Plant nx nu}
    {settings : Settings Extended} {period : Extended} {c : Controller Extended nx nu N}
    (hc : a.build N settings period = .ok c) (hQ : a.Q.IsSymm) (hR : a.R.IsSymm)
    (x : Fin nx → ℝ) (states : Fin (N * nx) → ℝ) (inputs : Fin (N * nu) → ℝ) :
    let J := fun u : Fin (N * nu) → ℝ => a.cost.tracking a.model (Vec.ofReal x)
      (Vec.ofReal states) (Vec.ofReal inputs) (Vec.ofReal u)
    ∃ q, c.linearCost (Vec.ofReal x).toArray
        { states := (Vec.ofReal states).toArray, inputs := (Vec.ofReal inputs).toArray } = .ok q ∧
      (∀ u, ∃ j j₀ : ℝ, J u = finite j ∧ J 0 = finite j₀ ∧
        c.qp.objective (Vec.ofReal u) q = finite (j - j₀)) ∧
      ∀ u u', c.qp.objective (Vec.ofReal u) q ≤ c.qp.objective (Vec.ofReal u') q ↔ J u ≤ J u' := by
  intro J
  have hCondensed := Plant.isCondensed_of_build hc hQ hR
  have hJ : ∀ u, J u = finite (a.tracking x states inputs u) :=
    fun u => Plant.tracking_ofReal x states inputs u
  have hObjective : ∀ u, c.qp.objective (Vec.ofReal u) (Vec.ofReal (a.linear x states inputs)) =
      finite (a.tracking x states inputs u - a.tracking x states inputs 0) := by
    intro u
    rw [Qp.Solver.objective_ofReal hCondensed.cost, a.tracking_sub_zero x states inputs u hQ hR]
  refine ⟨_, hCondensed.linearCost_eq_ok x states inputs, ?_, ?_⟩
  · intro u
    exact ⟨_, _, hJ u, hJ 0, hObjective u⟩
  · intro u u'
    rw [hObjective, hObjective, hJ, hJ, finite_le, finite_le, sub_le_sub_iff_right]

/-- Two unit inputs from the state one, against no inputs at all. -/
theorem Controller.integrator_objective_eq_tracking :
    letI := Precision.double
    let J := fun u : Fin (2 * 1) → ℝ => Plant.integrator.cost.tracking Plant.integrator.model
      (Vec.ofReal ![1]) (Vec.ofReal 0) (Vec.ofReal 0) (Vec.ofReal u)
    ∃ (c : Controller Extended 1 1 2) (q : Vec Extended (2 * 1)) (j j₀ : ℝ),
      Plant.integrator.build 2 (Settings.standard : Settings ℝ).ofReal (finite 0.02) = .ok c ∧
      c.linearCost (Vec.ofReal ![1]).toArray
        { states := (Vec.ofReal (0 : Fin (2 * 1) → ℝ)).toArray
          inputs := (Vec.ofReal (0 : Fin (2 * 1) → ℝ)).toArray } = .ok q ∧
      J 1 = finite j ∧ J 0 = finite j₀ ∧
      c.qp.objective (Vec.ofReal (1 : Fin (2 * 1) → ℝ)) q = finite (j - j₀) := by
  let _ := Precision.double
  intro J
  obtain ⟨c, hc⟩ := Plant.exists_build_integrator two_pos
  obtain ⟨q, hq, hCost, -⟩ := objective_eq_tracking hc isSymm_one isSymm_one ![1] 0 0
  obtain ⟨j, j₀, hj, hj₀, hObjective⟩ := hCost 1
  exact ⟨c, q, j, j₀, hc, hq, hj, hj₀, hObjective⟩

end RecedingHorizon
