import RecedingHorizon.Proofs.Comparison
import RecedingHorizon.Proofs.Equilibrium
import RecedingHorizon.Proofs.Translation

/-!
# Moving the set point

An action follows the plant along its own dynamics. With the state moved by `x`, all stacked
inputs by `u` and the reference by what is predicted from them, the linear cost moves by
`-(Fᵀ Q̂ F + R̂) u`, and with the bounds moved as well the program is the same one in moved variables.
So the answer moves by `u` (`IsBuilt.action_translate`).

A set point `A x + B u = x` is predicted from itself, and its repeated input has no changes. So a
loop that tracks a set point is the loop that tracks the origin, with the origin moved
(`set_point_shift`).
-/

namespace RecedingHorizon

open Extended Matrix

/-! ## Bounds and rounds -/

namespace Sides

variable {nu N : ℕ}

/-- One round of tracking the set point of `x` and `u` between the sides, from the last answer. -/
def demand {nx : ℕ} (b : Sides nu N) (x : Vec Extended nx) (u : Vec Extended nu) :
    ClosedLoop.Demand Extended where
  reference := .constant x.toArray u.toArray N
  bounds := b.bounds

/-- The sides as seen from an input `u` that is held over the horizon. -/
noncomputable def centred [Precision] (b : Sides nu N) (u : Fin nu → ℝ) : Sides nu N :=
  { b with
    inputMin := b.inputMin.sub (Vec.tile N (Vec.ofReal u))
    inputMax := b.inputMax.sub (Vec.tile N (Vec.ofReal u)) }

/-- The sides for inputs that are moved by `u`. -/
noncomputable def translate [Precision] (b : Sides nu N) (u : Fin (N * nu) → ℝ) : Sides nu N where
  inputMin := b.inputMin.translate u
  inputMax := b.inputMax.translate u
  rateMin := b.rateMin.translate (Plant.differences nu N *ᵥ u)
  rateMax := b.rateMax.translate (Plant.differences nu N *ᵥ u)

/-- An input that is held has no changes, so only the boxes move. -/
theorem centred_translate [Precision] (b : Sides nu N) (u : Fin nu → ℝ) :
    (b.centred u).translate (Stage.tile N u) = b := by
  rw [translate, centred, Plant.differences_mulVec_tile]
  simp only [Vec.tile_ofReal, Vec.sub_translate_self, Vec.translate_zero]

end Sides

namespace Limits

variable {nx nu N : ℕ} (l : Limits nu N) (x : Fin nx → ℝ) (u : Fin nu → ℝ)

/-- The task of tracking the set point of `x` and `u`. -/
def tracking : Task nx nu N where
  states := Stage.tile N x
  inputs := Stage.tile N u
  limits := l

theorem demand_tracking :
    (l.tracking x u).demand = l.sides.demand (Vec.ofReal x) (Vec.ofReal u) := by
  rw [Task.demand, Task.reference, tracking, Sides.demand, Reference.constant, tile_ofReal,
    tile_ofReal]
  rfl

end Limits

/-- The answer moved by `u`. -/
noncomputable def Action.translate [Precision] {nu N : ℕ} (act : Action Extended nu N)
    (first : Fin N) (u : Fin (N * nu) → ℝ) : Action Extended nu N where
  solution := act.solution.translate (Plant.constraints nu N) u
  control := act.control.translate (Stage.block u first)

theorem Vec.block_translate [Precision] {N b : ℕ} (v : Vec Extended (N * b)) (c : Fin (N * b) → ℝ)
    (k : Fin N) : (v.translate c).block k = (v.block k).translate (Stage.block c k) :=
  Vec.ext fun j => by
    rw [get_block, get_translate, get_translate, get_block]
    rfl

namespace ClosedLoop

variable [Precision] {nx nu N : ℕ}

/-- The same state in coordinates with the origin moved by `x` and the inputs by `u`. -/
def State.IsShifted {n : ℕ} (x : Fin nx → ℝ) (u : Fin n → ℝ) (s s' : State Extended) : Prop :=
  ∃ (v : Vec Extended nx) (z : Vec Extended n) (y : Array Extended),
    s = { plant := (v.translate x).toArray, warm := { z := (z.translate u).toArray, y } } ∧
      s' = { plant := v.toArray, warm := { z := z.toArray, y } }

/-- How the rounds of a loop at a set point relate to those of the loop at the origin. -/
structure Round.IsShifted (x : Fin nx → ℝ) (u : Fin nu → ℝ) (r r' : Round Extended nu N) :
    Prop where
  plant : ∃ v : Vec Extended nx,
    r'.after.plant = v.toArray ∧ r.after.plant = (v.add (Vec.ofReal x)).toArray
  control : r.action.control = r'.action.control.add (Vec.ofReal u)
  inputs : r.action.solution.z = r'.action.solution.z.add (Vec.tile N (Vec.ofReal u))
  multipliers : r.action.solution.y = r'.action.solution.y
  residuals : r.action.solution.residuals = r'.action.solution.residuals
  status : r.action.solution.status = r'.action.solution.status

end ClosedLoop

namespace Plant.IsBuilt

variable [Precision] {nx nu N : ℕ} {a : Plant nx nu} {c : Controller Extended nx nu N}
  {t : Settings ℝ}

theorem tracking_translate (h : a.IsBuilt c t) (x : Vec Extended nx) (states : Vec Extended (N * nx))
    (inputs : Vec Extended (N * nu)) (dx : Fin nx → ℝ) (ds : Fin (N * nx) → ℝ)
    (du : Fin (N * nu) → ℝ) :
    c.tracking (x.translate dx) (states.translate ds) (inputs.translate du) =
      (c.tracking x states inputs).translate (a.linear dx ds du) := by
  rw [Controller.tracking, Controller.tracking, h.prediction, h.gradient, h.inputWeight]
  simp only [Mat.mulVec_translate, Vec.translate_sub]
  rfl

theorem next_translate (h : a.IsBuilt c t) (x : Vec Extended nx) (u : Vec Extended nu)
    (dx : Fin nx → ℝ) (du : Fin nu → ℝ) :
    c.model.next (x.translate dx) (u.translate du) =
      (c.model.next x u).translate (a.A *ᵥ dx + a.B *ᵥ du) := by
  simp only [LinearModel.next, h.model, Plant.model, LinearModel.ofReal, Mat.mulVec_translate,
    Vec.translate_add]

/-- An action moves with the plant: by `du` when the state moves by `dx`, the bounds by `du`, and
the reference by the prediction from the two. -/
theorem action_translate (h : a.IsBuilt c t) (hQ : a.Q.IsSymm) (hR : a.R.IsSymm)
    (x : Vec Extended nx) (states : Vec Extended (N * nx)) (inputs z : Vec Extended (N * nu))
    (y : Array Extended) (b : Sides nu N) (dx : Fin nx → ℝ) (du : Fin (N * nu) → ℝ) :
    c.action (x.translate dx).toArray
        { states := (states.translate (a.predicted dx du)).toArray
          inputs := (inputs.translate du).toArray }
        (b.translate du).bounds { z := (z.translate du).toArray, y } =
      (·.translate ⟨0, c.stages_pos⟩ du) <$>
        c.action x.toArray { states := states.toArray, inputs := inputs.toArray } b.bounds
          { z := z.toArray, y } := by
  have hCost : c.tracking (x.translate dx) (states.translate (a.predicted dx du))
      (inputs.translate du) =
        (c.tracking x states inputs).translate (-(a.curvature N *ᵥ du)) := by
    rw [h.tracking_translate, linear_predicted, curvature_eq_hessian hQ hR]
  have hSolve := (h.factored 0 (.univ _)).solveWith_translate {
    q := c.tracking x states inputs
    lower := b.inputMin ++ b.rateMin
    upper := b.inputMax ++ b.rateMax } z y c.qp.settings.maxIter du
  simp only [Qp.Data.translate, constraints_mulVec, ← Vec.translate_append] at hSolve
  rw [Sides.bounds, Controller.action_toArray, Sides.bounds, Controller.action_toArray, hCost,
    Qp.Solver.solve, Qp.Solver.solve]
  simp only [Sides.translate]
  rw [hSolve, map_bind, bind_map_left]
  simp only [Qp.Solution.translate, Vec.block_translate, Vec.clamp_translate, map_pure]
  rfl

/-- The action of tracking a set point is that of tracking the origin, moved by the set point. -/
theorem action_setPoint (h : a.IsBuilt c t) (hQ : a.Q.IsSymm) (hR : a.R.IsSymm)
    {xs : Fin nx → ℝ} {us : Fin nu → ℝ} (hFixed : a.A *ᵥ xs + a.B *ᵥ us = xs)
    (x : Vec Extended nx) (z : Vec Extended (N * nu)) (y : Array Extended) (b : Sides nu N) :
    c.action (x.translate xs).toArray
        (.constant (Vec.ofReal xs).toArray (Vec.ofReal us).toArray N) b.bounds
        { z := (z.translate (Stage.tile N us)).toArray, y } =
      (·.translate ⟨0, c.stages_pos⟩ (Stage.tile N us)) <$>
        c.action x.toArray (.constant (Vec.zeros nx).toArray (Vec.zeros nu).toArray N)
          (b.centred us).bounds { z := z.toArray, y } := by
  have hAction := h.action_translate hQ hR x (Vec.ofReal (Stage.tile N 0))
    (Vec.ofReal (Stage.tile N 0)) z y (b.centred us) xs (Stage.tile N us)
  have hZero : ∀ n, Stage.tile N (0 : Fin n → ℝ) = 0 := fun _ => rfl
  rw [b.centred_translate, predicted_tile hFixed, hZero, hZero, Vec.translate_ofReal,
    Vec.translate_ofReal, zero_add, zero_add] at hAction
  simp only [Reference.constant, tile_ofReal, Vec.zeros_eq, hZero]
  exact hAction

theorem round_setPoint (h : a.IsBuilt c t) (hQ : a.Q.IsSymm) (hR : a.R.IsSymm)
    {xs : Fin nx → ℝ} {us : Fin nu → ℝ} (hFixed : a.A *ᵥ xs + a.B *ᵥ us = xs) (b : Sides nu N)
    {s s' : ClosedLoop.State Extended} (hs : s.IsShifted xs (Stage.tile N us) s') :
    Agree (fun r r' => r.IsShifted xs us r' ∧ r.after.IsShifted xs (Stage.tile N us) r'.after)
      (ClosedLoop.round c (b.demand (Vec.ofReal xs) (Vec.ofReal us)) s)
      (ClosedLoop.round c ((b.centred us).demand (Vec.zeros nx) (Vec.zeros nu)) s') := by
  obtain ⟨x, z, y, rfl, rfl⟩ := hs
  simp only [ClosedLoop.round, Sides.demand, Option.getD_none]
  rw [h.action_setPoint hQ hR hFixed]
  refine .bind (.map _ _) ?_
  rintro _ act rfl
  have hControl : (act.translate ⟨0, c.stages_pos⟩ (Stage.tile N us)).control =
      act.control.translate us := by
    rw [Action.translate, Stage.block_tile]
  rw [hControl, LinearModel.step_toArray, LinearModel.step_toArray, h.next_translate, hFixed]
  refine .ok ⟨⟨⟨_, rfl, rfl⟩, hControl, ?_, rfl, rfl, rfl⟩, _, _, _, rfl, rfl⟩
  rw [Vec.tile_ofReal]
  rfl

end Plant.IsBuilt

/-- **Set points.** A loop that tracks a set point `A x + B u = x` goes through the rounds of the
loop that tracks the origin, with states moved by `x`, controls and stacked inputs moved by `u`,
and equal multipliers, residuals and status, when the second loop starts from the moved state and
inputs and sees its boxes from `u`. Both end with the same fault, if any; between bounds that leave
room there is none. -/
theorem set_point_shift [Precision] {nx nu N : ℕ} {a : Plant nx nu} {settings : Settings Extended}
    {period : Extended} {c : Controller Extended nx nu N} (hc : a.build N settings period = .ok c)
    (hQ : a.Q.IsSymm) (hR : a.R.IsSymm) {xs : Fin nx → ℝ} {us : Fin nu → ℝ}
    (hFixed : a.A *ᵥ xs + a.B *ᵥ us = xs) :
    (∀ (bounds : List (Sides nu N)) (x : Vec Extended nx) (z : Vec Extended (N * nu))
        (y : Array Extended),
      let run := ClosedLoop.run c (bounds.map (·.demand (Vec.ofReal xs) (Vec.ofReal us))) {
        plant := x.toArray
        warm := { z := z.toArray, y } }
      let run' := ClosedLoop.run c
        (bounds.map fun b => (b.centred us).demand (Vec.zeros nx) (Vec.zeros nu)) {
        plant := (x.sub (Vec.ofReal xs)).toArray
        warm := { z := (z.sub (Vec.tile N (Vec.ofReal us))).toArray, y } }
      run.fault = run'.fault ∧ List.Forall₂ (·.IsShifted xs us ·) run.rounds run'.rounds) ∧
    ∀ (limits : List (Limits nu N)) (x : Fin nx → ℝ) (z : Fin (N * nu) → ℝ)
        (y : Fin (N * nu + (N - 1) * nu) → ℝ),
      let run := ClosedLoop.run c
        ((limits.map Limits.sides).map (·.demand (Vec.ofReal xs) (Vec.ofReal us))) (.ofReal x z y)
      run.fault = none ∧ run.rounds.length = limits.length := by
  obtain ⟨t, rfl, hBuilt⟩ := Plant.exists_isBuilt_of_build hc
  constructor
  · intro bounds x z y
    apply ClosedLoop.run_agree
      (fun d d' => ∃ b : Sides nu N, d = b.demand (Vec.ofReal xs) (Vec.ofReal us) ∧
        d' = (b.centred us).demand (Vec.zeros nx) (Vec.zeros nu))
      (·.IsShifted xs (Stage.tile N us) ·)
    · rintro _ _ s s' ⟨b, rfl, rfl⟩ hs
      exact hBuilt.round_setPoint hQ hR hFixed b hs
    · rw [List.forall₂_map_left_iff, List.forall₂_map_right_iff, List.forall₂_same]
      exact fun b _ => ⟨b, rfl, rfl⟩
    · refine ⟨x.sub (Vec.ofReal xs), z.sub (Vec.ofReal (Stage.tile N us)), y, ?_, ?_⟩
      · rw [Vec.sub_translate_self, Vec.sub_translate_self]
      · rw [Vec.tile_ofReal]
  · intro limits x z y
    have hDemands : (limits.map Limits.sides).map (·.demand (Vec.ofReal xs) (Vec.ofReal us)) =
        (limits.map fun l => l.tracking xs us).map Task.demand := by
      simp only [List.map_map, Function.comp_def, Limits.demand_tracking]
    obtain ⟨hFault, hRounds⟩ :=
      hBuilt.run_isReal (limits.map fun l => l.tracking xs us) ⟨x, z, y, rfl⟩
    rw [hDemands]
    exact ⟨hFault, by rw [← hRounds.length_eq, List.length_map]⟩

/-- The scalar plant `x⁺ = x / 2 + u` with unit weights. -/
noncomputable def Plant.leaky : Plant 1 1 := { integrator with A := Matrix.of ![![0.5]] }

theorem leaky_set_point_shift :
    letI := Precision.double
    let sides : Sides 1 2 := (Limits.unit 1 2).sides
    ∃ (c : Controller Extended 1 1 2) (r s r' s' : ClosedLoop.Round Extended 1 2),
      Plant.leaky.build 2 (Settings.ofReal .standard) (finite 0.02) = .ok c ∧
      Plant.leaky.A *ᵥ ![2] + Plant.leaky.B *ᵥ ![1] = ![2] ∧
      ClosedLoop.run c ([sides, sides].map (·.demand (Vec.ofReal ![2]) (Vec.ofReal ![1])))
        (.ofReal ![5] (0 : Fin (2 * 1) → ℝ) (0 : Fin (2 * 1 + (2 - 1) * 1) → ℝ)) =
          { rounds := [r, s], fault := none } ∧
      ClosedLoop.run c
        ([sides, sides].map fun b => (b.centred ![1]).demand (Vec.zeros 1) (Vec.zeros 1))
        (.ofReal ![3] (-1 : Fin (2 * 1) → ℝ) (0 : Fin (2 * 1 + (2 - 1) * 1) → ℝ)) =
          { rounds := [r', s'], fault := none } ∧
      r.IsShifted ![2] ![1] r' ∧ s.IsShifted ![2] ![1] s' := by
  let _ := Precision.double
  intro sides
  obtain ⟨c, hc⟩ := Plant.exists_build (a := .leaky) two_pos PosSemidef.one PosSemidef.one
    Settings.standard_isValid (show (0 : ℝ) < 0.02 by norm_num)
  have hFixed : Plant.leaky.A *ᵥ ![2] + Plant.leaky.B *ᵥ ![1] = ![2] := by
    ext i
    rw [Fin.fin_one_eq_zero i]
    norm_num [Plant.leaky, Plant.integrator]
  have hPlant : (Vec.ofReal ![5]).sub (Vec.ofReal ![2]) = Vec.ofReal (![3] : Fin 1 → ℝ) := by
    rw [Vec.sub_ofReal, Vec.ofReal_inj]
    ext i
    rw [Fin.fin_one_eq_zero i]
    norm_num
  have hInputs : (Vec.ofReal 0).sub (Vec.tile 2 (Vec.ofReal ![1])) =
      Vec.ofReal (-1 : Fin (2 * 1) → ℝ) := by
    rw [Vec.tile_ofReal, Vec.sub_ofReal, Vec.ofReal_inj]
    ext i
    norm_num [Stage.tile]
  obtain ⟨hShift, hEnds⟩ := set_point_shift hc isSymm_one isSymm_one hFixed
  obtain ⟨hFault, hLength⟩ := hEnds [.unit 1 2, .unit 1 2] ![5] 0 0
  obtain ⟨r, s, hRun⟩ := ClosedLoop.exists_rounds_of_length hFault hLength
  obtain ⟨hFault', hRounds⟩ := hShift [sides, sides] (Vec.ofReal ![5]) (Vec.ofReal 0)
    (Vec.ofReal (0 : Fin (2 * 1 + (2 - 1) * 1) → ℝ)).toArray
  rw [hPlant, hInputs] at hFault' hRounds
  obtain ⟨r', s', hRun', hr, hs⟩ := ClosedLoop.exists_rounds_of_pair hRun hFault' hRounds
  exact ⟨c, r, s, r', s', hc, hFixed, hRun, hRun', hr, hs⟩

end RecedingHorizon
