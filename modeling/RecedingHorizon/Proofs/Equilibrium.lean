import RecedingHorizon.Proofs.FixedPoint
import RecedingHorizon.Proofs.Loop

/-!
# Consistent references and equilibria

A reference is consistent when its states are the prediction of its inputs. Then the linear cost
is `-(Fᵀ Q̂ F + R̂) û`, so the gradient of the program vanishes at the inputs `û` of the
reference, and with zero multipliers they satisfy the first-order conditions as soon as the
limits admit them (`problem_isKKT`). An action started there returns them.

A set point `(x, u)` with `A x + B u = x` has a consistent reference, the constant one. So a loop
that starts in the set point stays there.
-/

namespace RecedingHorizon

open Extended Matrix

/-- The state of a loop at rest in a set point: the input repeated, and no multipliers. -/
def ClosedLoop.State.atRest {nx nu : ℕ} (N : ℕ) (x : Fin nx → ℝ) (v : Fin nu → ℝ) :
    State Extended :=
  .ofReal x (Stage.tile N v) (0 : Fin (N * nu + (N - 1) * nu) → ℝ)

namespace Plant

variable {nx nu N : ℕ} (a : Plant nx nu)

/-- The stacked states from `x` under the stacked inputs `u`. -/
def predicted (x : Fin nx → ℝ) (u : Fin (N * nu) → ℝ) : Fin (N * nx) → ℝ :=
  a.F N *ᵥ u + a.E N *ᵥ x

/-- The task of following the prediction of given inputs. -/
def following (x : Fin nx → ℝ) (u : Fin (N * nu) → ℝ) (l : Limits nu N) : Task nx nu N where
  states := a.predicted x u
  inputs := u
  limits := l

variable {a} {x : Fin nx → ℝ} {u : Fin (N * nu) → ℝ} {v : Fin nu → ℝ} {l : Limits nu N}

theorem linear_predicted (x : Fin nx → ℝ) (u : Fin (N * nu) → ℝ) :
    a.linear x (a.predicted x u) u = -(a.hessian N *ᵥ u) := by
  have hDeviation : a.E N *ᵥ x - a.predicted x u = -(a.F N *ᵥ u) := by
    rw [predicted]
    abel
  rw [linear, hDeviation, mulVec_neg, mulVec_mulVec, hessian, add_mulVec, neg_add, sub_eq_add_neg]

theorem problem_isKKT (hQ : a.Q.IsSymm) (hR : a.R.IsSymm) (hu : constraints nu N *ᵥ u ∈ l.box) :
    (a.problem x (a.following x u l)).IsKKT u 0 where
  stationary := by
    change a.curvature N *ᵥ u + a.linear x (a.predicted x u) u + (constraints nu N)ᵀ *ᵥ 0 = 0
    rw [curvature_eq_hessian hQ hR, linear_predicted, add_neg_cancel, mulVec_zero, add_zero]
  normal := Box.isNormal_zero hu

theorem predicted_tile (h : a.A *ᵥ x + a.B *ᵥ v = x) :
    a.predicted x (Stage.tile N v) = Stage.tile N x := by
  apply Stage.ext_block
  intro k
  calc
    Stage.block (a.predicted x (Stage.tile N v)) k =
        LinearModel.response a.A a.B x (Stage.tile N v) (k + 1) :=
      Prediction.block_real_eq_response ..
    _ = x := LinearModel.response_tile a.A a.B x h k.isLt
    _ = Stage.block (Stage.tile N x) k := (Stage.block_tile x k).symm

namespace IsBuilt

variable [Precision] {c : Controller Extended nx nu N} {t : Settings ℝ}

theorem predict_eq_ok (h : a.IsBuilt c t) (x : Fin nx → ℝ) (u : Fin (N * nu) → ℝ) :
    c.prediction.predict (Vec.ofReal x).toArray (Vec.ofReal u).toArray =
      .ok (Vec.ofReal (a.predicted x u)) := by
  rw [Prediction.predict_toArray, Prediction.states, h.prediction, Mat.mulVec_ofReal,
    Mat.mulVec_ofReal, Vec.add_ofReal]
  rfl

/-- The action on a consistent reference, started in its inputs, returns them. -/
theorem action_following (h : a.IsBuilt c t) (hQ : a.Q.IsSymm) (hR : a.R.IsSymm)
    (hInputs : u ∈ l.inputs) (hRates : Plant.differences nu N *ᵥ u ∈ l.rates) :
    c.action (Vec.ofReal x).toArray (a.following x u l).reference l.bounds
        (.ofReal u (0 : Fin (N * nu + (N - 1) * nu) → ℝ)) = .ok {
      solution := {
        z := Vec.ofReal u
        y := Vec.ofReal 0
        w := Vec.ofReal (constraints nu N *ᵥ u)
        iterations := t.maxIter
        residuals := { primal := 0, dual := 0 }
        status := .converged }
      control := Vec.ofReal (Stage.block u ⟨0, c.stages_pos⟩) } := by
  have hFactored := h.isFactored x (a.following x u l)
  have hKKT := problem_isKKT (x := x) hQ hR (Limits.constraints_mulVec_mem_iff.mpr ⟨hInputs, hRates⟩)
  have hFirst := Box.mem_iff_block.mp hInputs ⟨0, c.stages_pos⟩
  have hClamp := (l.inputs.block ⟨0, c.stages_pos⟩).clamp_ofReal
    (Stage.block u ⟨0, c.stages_pos⟩)
  rw [Box.project_eq_self hFirst] at hClamp
  have hAction := h.action_eq_ok (hKKT.solveProblem_eq_ok hFactored hFactored.valid.maxIter_pos)
  rw [Vec.block_ofReal] at hAction
  rw [← hClamp]
  exact hAction

/-- A round of a constant reference, started in its set point, stays there. -/
theorem round_following_tile (h : a.IsBuilt c t) (hQ : a.Q.IsSymm) (hR : a.R.IsSymm)
    (hFixed : a.A *ᵥ x + a.B *ᵥ v = x) (hInputs : ∀ k, v ∈ l.inputs.block k)
    (hRates : 0 ∈ l.rates) :
    ∃ r, ClosedLoop.round c (a.following x (Stage.tile N v) l).demand (.atRest N x v) = .ok r ∧
      r.action.control = Vec.ofReal v ∧ r.after = .atRest N x v := by
  have hTile : Stage.tile N v ∈ l.inputs := by
    rw [Box.mem_iff_block]
    intro k
    rw [Stage.block_tile]
    exact hInputs k
  rw [← differences_mulVec_tile v] at hRates
  have hAction := h.action_following (x := x) hQ hR hTile hRates
  rw [Stage.block_tile] at hAction
  have hRound := h.round_eq_ok hAction rfl rfl
  rw [hFixed] at hRound
  exact ⟨_, hRound, rfl, rfl⟩

end IsBuilt

end Plant

/-- **Consistent references.** When the states of a reference are the prediction of its inputs and
the limits admit these, an action started in the inputs with zero multipliers returns them, with
both residuals zero. So a loop that starts in an admitted set point `A x + B u = x`, with the
constant reference to it, keeps the state `x` and the control `u` in every round. -/
theorem consistent_reference_kept [Precision] {nx nu N : ℕ} {a : Plant nx nu}
    {settings : Settings Extended} {period : Extended} {c : Controller Extended nx nu N}
    (hc : a.build N settings period = .ok c) (hQ : a.Q.IsSymm) (hR : a.R.IsSymm) :
    (∀ (x : Fin nx → ℝ) (u : Fin (N * nu) → ℝ) (l : Limits nu N),
      l.inputs.Within 0 (Vec.ofReal u) →
      l.rates.Within 0 (c.differences.mulVec (Vec.ofReal u)) →
      ∃ states,
        c.prediction.predict (Vec.ofReal x).toArray (Vec.ofReal u).toArray = .ok states ∧
        c.action (Vec.ofReal x).toArray
            { states := states.toArray, inputs := (Vec.ofReal u).toArray } l.bounds
            (.ofReal u (0 : Fin (N * nu + (N - 1) * nu) → ℝ)) = .ok {
          solution := {
            z := Vec.ofReal u
            y := Vec.ofReal 0
            w := c.qp.constraints.mulVec (Vec.ofReal u)
            iterations := settings.maxIter
            residuals := { primal := 0, dual := 0 }
            status := .converged }
          control := (Vec.ofReal u).block ⟨0, c.stages_pos⟩ }) ∧
    ∀ (x : Fin nx → ℝ) (u : Fin nu → ℝ), a.A *ᵥ x + a.B *ᵥ u = x →
      ∀ limits : List (Limits nu N),
        (∀ l ∈ limits, (∀ k, (l.inputs.block k).Within 0 (Vec.ofReal u)) ∧
          l.rates.Within 0 (Vec.ofReal 0)) →
        let hold : ClosedLoop.State Extended := {
          plant := (Vec.ofReal x).toArray
          warm := {
            z := tile (Vec.ofReal u).toArray N
            y := (Vec.ofReal (0 : Fin (N * nu + (N - 1) * nu) → ℝ)).toArray } }
        let run := ClosedLoop.run c (limits.map fun l => {
          reference := .constant (Vec.ofReal x).toArray (Vec.ofReal u).toArray N
          bounds := l.bounds }) hold
        run.fault = none ∧ List.Forall₂ (fun _ r =>
          r.action.control = Vec.ofReal u ∧ r.after = hold) limits run.rounds := by
  obtain ⟨t, rfl, hBuilt⟩ := Plant.exists_isBuilt_of_build hc
  constructor
  · intro x u l hInputs hRates
    have hConstraints : c.qp.constraints = Mat.ofReal (Plant.constraints nu N) :=
      (hBuilt.factored 0 (.univ _)).constraints
    rw [hBuilt.differences, Mat.mulVec_ofReal] at hRates
    refine ⟨_, hBuilt.predict_eq_ok x u, ?_⟩
    rw [hConstraints, Mat.mulVec_ofReal, Vec.block_ofReal]
    exact hBuilt.action_following hQ hR (Box.within_zero_iff.mp hInputs)
      (Box.within_zero_iff.mp hRates)
  · intro x u hFixed limits hLimits hold
    have hHold : hold = .atRest N x u := by
      simp only [hold, tile_ofReal]
      rfl
    apply ClosedLoop.run_of_round (· = hold)
    · rintro l hl s rfl
      obtain ⟨hInputs, hRates⟩ := hLimits l hl
      obtain ⟨r, hRound, hControl, hAfter⟩ := hBuilt.round_following_tile hQ hR hFixed
        (fun k => Box.within_zero_iff.mp (hInputs k)) (Box.within_zero_iff.mp hRates)
      rw [hHold]
      refine ⟨r, ?_, ⟨hControl, hAfter⟩, hAfter⟩
      rw [← hRound, Task.demand, Task.reference, Plant.following, Plant.predicted_tile hFixed,
        Reference.constant, tile_ofReal, tile_ofReal]
    · rfl

theorem integrator_reference_kept :
    letI := Precision.double
    ∃ (c : Controller Extended 1 1 2) (states : Vec Extended (2 * 1)) (act : Action Extended 1 2)
      (r r' : ClosedLoop.Round Extended 1 2),
      Plant.integrator.build 2 (Settings.ofReal .standard) (finite 0.02) = .ok c ∧
      (c.prediction.predict (Vec.ofReal ![3]).toArray (Vec.ofReal (Stage.tile 2 ![1])).toArray =
          .ok states ∧
        c.action (Vec.ofReal ![3]).toArray
          { states := states.toArray, inputs := (Vec.ofReal (Stage.tile 2 ![1])).toArray }
          (Limits.unit 1 2).bounds
          (.ofReal (Stage.tile 2 ![1]) (0 : Fin (2 * 1 + (2 - 1) * 1) → ℝ)) = .ok act ∧
        act.solution.z = Vec.ofReal (Stage.tile 2 ![1]) ∧ act.solution.status = .converged) ∧
      ClosedLoop.run c ([.unit 1 2, .unit 1 2].map fun l : Limits 1 2 => {
          reference := .constant (Vec.ofReal ![3]).toArray (Vec.ofReal (0 : Fin 1 → ℝ)).toArray 2
          bounds := l.bounds }) {
        plant := (Vec.ofReal ![3]).toArray
        warm := {
          z := tile (Vec.ofReal (0 : Fin 1 → ℝ)).toArray 2
          y := (Vec.ofReal (0 : Fin (2 * 1 + (2 - 1) * 1) → ℝ)).toArray } } =
          { rounds := [r, r'], fault := none } ∧
      r'.action.control = Vec.ofReal 0 ∧ r'.after.plant = (Vec.ofReal ![3]).toArray := by
  let _ := Precision.double
  obtain ⟨c, hc⟩ := Plant.exists_build_integrator two_pos
  obtain ⟨_, -, hBuilt⟩ := Plant.exists_isBuilt_of_build hc
  obtain ⟨hActions, hRuns⟩ := consistent_reference_kept hc isSymm_one isSymm_one
  have hRates : (0 : Fin ((2 - 1) * 1) → ℝ) ∈ (Limits.unit 1 2).rates := Limits.zero_mem_rates_unit
  have hOne : Stage.tile 2 ![1] ∈ (Limits.unit 1 2).inputs :=
    Limits.mem_inputs_unit fun _ => by norm_num [Stage.tile]
  have hZero : (0 : Fin (2 * 1) → ℝ) ∈ (Limits.unit 1 2).inputs :=
    Limits.mem_inputs_unit fun _ => by norm_num
  obtain ⟨states, hStates, hAction⟩ := hActions ![3] (Stage.tile 2 ![1]) (.unit 1 2)
    (Box.within_zero_iff.mpr hOne) (by
      rw [hBuilt.differences, Mat.mulVec_ofReal, Plant.differences_mulVec_tile]
      exact Box.within_zero_iff.mpr hRates)
  have hFixed : Plant.integrator.A *ᵥ ![3] + Plant.integrator.B *ᵥ 0 = ![3] := by
    rw [mulVec_zero, add_zero]
    exact one_mulVec _
  obtain ⟨hFault, hRounds⟩ := hRuns ![3] 0 hFixed [.unit 1 2, .unit 1 2] fun l hl => by
    obtain rfl : l = .unit 1 2 := by simpa using hl
    exact ⟨fun k => Box.within_zero_iff.mpr (Box.mem_iff_block.mp hZero k),
      Box.within_zero_iff.mpr hRates⟩
  obtain ⟨r, r', hRun, -, hControl, hAfter⟩ := ClosedLoop.exists_rounds_of_two hFault hRounds
  exact ⟨c, states, _, r, r', hc, ⟨hStates, hAction, rfl, rfl⟩, hRun, hControl,
    congrArg ClosedLoop.State.plant hAfter⟩

end RecedingHorizon
