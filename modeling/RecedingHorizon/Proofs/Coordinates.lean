import RecedingHorizon.Proofs.Comparison
import RecedingHorizon.Proofs.Equilibrium
import RecedingHorizon.Proofs.Finiteness

/-!
# Coordinates of the state

A plant can be written in the states `T x` for an invertible `T`: the dynamics become `T A T⁻¹` and
`T B`, and the state weight `T⁻ᵀ Q T⁻¹`. Predictions from the same inputs are then `T` times the
old ones, stage by stage (`predicted_inCoordinates`), and the weights take the factor away again.
So the two condensed programs are the same matrix for matrix, and so are their linear costs.

A controller therefore does not know its coordinates: the build, every action and every loop
are those of the other plant (`coordinates_irrelevant`).
-/

namespace RecedingHorizon

open Extended Matrix

/-! ## The condensed program -/

namespace Plant

variable {nx nu N : ℕ} (a : Plant nx nu) (T : Matrix (Fin nx) (Fin nx) ℝ)

/-- The plant in the states `T x`. -/
noncomputable def inCoordinates : Plant nx nu where
  A := T * a.A * T⁻¹
  B := T * a.B
  Q := (T⁻¹)ᵀ * a.Q * T⁻¹
  R := a.R

variable {a T}

theorem next_inCoordinates (hT : IsUnit T.det) (x : Fin nx → ℝ) (u : Fin nu → ℝ) :
    (a.inCoordinates T).A *ᵥ (T *ᵥ x) + (a.inCoordinates T).B *ᵥ u =
      T *ᵥ (a.A *ᵥ x + a.B *ᵥ u) := by
  rw [inCoordinates, mulVec_add, mulVec_mulVec, mulVec_mulVec, mulVec_mulVec,
    Matrix.mul_assoc (T * a.A), nonsing_inv_mul T hT, Matrix.mul_one]

theorem response_inCoordinates (hT : IsUnit T.det) (x : Fin nx → ℝ) (u : Fin (N * nu) → ℝ) {k : ℕ}
    (hk : k ≤ N) :
    LinearModel.response (a.inCoordinates T).A (a.inCoordinates T).B (T *ᵥ x) u k =
      T *ᵥ LinearModel.response a.A a.B x u k := by
  induction k with
  | zero => rw [LinearModel.response_zero, LinearModel.response_zero]
  | succ k ih =>
    rw [LinearModel.response_succ _ _ _ u ⟨k, hk⟩, LinearModel.response_succ _ _ _ u ⟨k, hk⟩,
      ih (Nat.le_of_succ_le hk), next_inCoordinates hT]

/-- Each predicted state is the image of the old one. -/
theorem predicted_inCoordinates (hT : IsUnit T.det) (x : Fin nx → ℝ) (u : Fin (N * nu) → ℝ) :
    (a.inCoordinates T).predicted (T *ᵥ x) u = Stage.diagonal N T *ᵥ a.predicted x u := by
  apply Stage.ext_block
  intro k
  rw [Stage.block_diagonal_mulVec]
  calc
    Stage.block ((a.inCoordinates T).predicted (T *ᵥ x) u) k =
        LinearModel.response (a.inCoordinates T).A (a.inCoordinates T).B (T *ᵥ x) u (k + 1) :=
      Prediction.block_real_eq_response ..
    _ = T *ᵥ LinearModel.response a.A a.B x u (k + 1) := response_inCoordinates hT x u k.isLt
    _ = T *ᵥ Stage.block (a.predicted x u) k :=
      congrArg (T *ᵥ ·) (Prediction.block_real_eq_response ..).symm

theorem E_inCoordinates_mulVec (hT : IsUnit T.det) (x : Fin nx → ℝ) :
    (a.inCoordinates T).E N *ᵥ (T *ᵥ x) = Stage.diagonal N T *ᵥ (a.E N *ᵥ x) := by
  have h := predicted_inCoordinates (a := a) (N := N) hT x 0
  simpa only [predicted, mulVec_zero, zero_add] using h

theorem F_inCoordinates (hT : IsUnit T.det) :
    (a.inCoordinates T).F N = Stage.diagonal N T * a.F N := by
  rw [ext_iff_mulVec]
  intro u
  have h := predicted_inCoordinates (a := a) hT 0 u
  simpa only [predicted, mulVec_zero, add_zero, mulVec_mulVec] using h

/-- The weights take the factor of the predictions away. -/
theorem gradient_inCoordinates_mul (hT : IsUnit T.det) :
    (a.inCoordinates T).gradient N * Stage.diagonal N T = a.gradient N := by
  have hWeight : Tᵀ * (a.inCoordinates T).Q * T = a.Q := by
    rw [inCoordinates, Matrix.mul_assoc Tᵀ, Matrix.mul_assoc _ T⁻¹ T, nonsing_inv_mul T hT,
      Matrix.mul_one, ← Matrix.mul_assoc, ← transpose_mul, nonsing_inv_mul T hT, transpose_one,
      Matrix.one_mul]
  rw [gradient, gradient, F_inCoordinates hT, transpose_mul, Stage.diagonal_transpose, ← hWeight,
    Stage.diagonal_mul, Stage.diagonal_mul]
  simp only [Matrix.mul_assoc]

theorem curvature_inCoordinates (hT : IsUnit T.det) :
    (a.inCoordinates T).curvature N = a.curvature N := by
  have hHessian : (a.inCoordinates T).hessian N = a.hessian N := by
    rw [hessian, hessian, F_inCoordinates hT, ← Matrix.mul_assoc, gradient_inCoordinates_mul hT]
    rfl
  rw [curvature, curvature, hHessian]

theorem gradient_inCoordinates_mulVec (hT : IsUnit T.det) (x : Fin nx → ℝ)
    (states : Fin (N * nx) → ℝ) :
    (a.inCoordinates T).gradient N *ᵥ
        ((a.inCoordinates T).E N *ᵥ (T *ᵥ x) - Stage.diagonal N T *ᵥ states) =
      a.gradient N *ᵥ (a.E N *ᵥ x - states) := by
  rw [E_inCoordinates_mulVec hT, ← mulVec_sub, mulVec_mulVec, gradient_inCoordinates_mul hT]

variable [Precision]

/-- The build in other coordinates ends with the same fault, or with the same program. -/
theorem build_inCoordinates (hT : IsUnit T.det) (settings : Settings Extended)
    (period : Extended) :
    Agree (fun c c' => c'.qp = c.qp) (a.build N settings period)
      ((a.inCoordinates T).build N settings period) := by
  by_cases hN : 0 < N
  · simp only [build, Controller.build, dif_pos hN, dif_pos, Controller.assemble, Mat.cast_self,
      setup_ofReal, curvature_inCoordinates hT]
    exact .bind (.refl _) fun _ _ _ => .bind (.refl _) fun _ _ h => .ok h.symm
  · simp only [build, Controller.build, dif_neg hN]
    exact .error _

end Plant

/-! ## Actions and rounds -/

/-- Whether `v'` is `T v` as far as `v` is real: both vectors are, and then so related, or
neither is. -/
structure Vec.IsImage [Precision] {n : ℕ} (T : Matrix (Fin n) (Fin n) ℝ) (v v' : Vec Extended n) :
    Prop where
  isFinite : v'.isFinite = v.isFinite
  eq : ∀ x, v = Vec.ofReal x → v' = Vec.ofReal (T *ᵥ x)

theorem Vec.isImage_ofReal [Precision] {n : ℕ} (T : Matrix (Fin n) (Fin n) ℝ) (x : Fin n → ℝ) :
    IsImage T (ofReal x) (ofReal (T *ᵥ x)) where
  isFinite := by rw [isFinite_ofReal, isFinite_ofReal]
  eq _ h := by rw [ofReal_injective h]

namespace Plant.IsBuilt

variable [Precision] {nx nu N : ℕ} {a : Plant nx nu} {T : Matrix (Fin nx) (Fin nx) ℝ}
  {c c' : Controller Extended nx nu N} {t t' : Settings ℝ}

theorem tracking_inCoordinates (h : a.IsBuilt c t) (h' : (a.inCoordinates T).IsBuilt c' t')
    (hT : IsUnit T.det) (x : Fin nx → ℝ) (states : Fin (N * nx) → ℝ)
    (inputs : Vec Extended (N * nu)) :
    c'.tracking (Vec.ofReal (T *ᵥ x)) (Vec.ofReal (Stage.diagonal N T *ᵥ states)) inputs =
      c.tracking (Vec.ofReal x) (Vec.ofReal states) inputs := by
  rw [Controller.tracking, Controller.tracking, h.prediction, h.gradient, h.inputWeight,
    h'.prediction, h'.gradient, h'.inputWeight]
  simp only [Mat.mulVec_ofReal, Vec.sub_ofReal, gradient_inCoordinates_mulVec hT]
  rfl

theorem linearCost_inCoordinates (h : a.IsBuilt c t) (h' : (a.inCoordinates T).IsBuilt c' t')
    (hT : IsUnit T.det) (x : Fin nx → ℝ) (states : Fin (N * nx) → ℝ) (inputs : Array Extended) :
    c'.linearCost (Vec.ofReal (T *ᵥ x)).toArray
        { states := (Vec.ofReal (Stage.diagonal N T *ᵥ states)).toArray, inputs } =
      c.linearCost (Vec.ofReal x).toArray { states := (Vec.ofReal states).toArray, inputs } := by
  rw [Controller.linearCost, Controller.linearCost]
  simp only [Check.length_toArray, ok_bind, h.tracking_inCoordinates h' hT]

/-- A solve does not depend on the coordinates of the state that it is for. -/
theorem solve_inCoordinates (h : a.IsBuilt c t) (h' : (a.inCoordinates T).IsBuilt c' t')
    (hT : IsUnit T.det) (hqp : c'.qp = c.qp) {v v' : Vec Extended nx} (hv : v.IsImage T v')
    (states : Fin (N * nx) → ℝ) (inputs : Vec Extended (N * nu)) (lower upper : Array Extended)
    (warm : WarmStart Extended) :
    c'.qp.solve (c'.tracking v' (Vec.ofReal (Stage.diagonal N T *ᵥ states)) inputs).toArray
        lower upper warm =
      c.qp.solve (c.tracking v (Vec.ofReal states) inputs).toArray lower upper warm := by
  rw [hqp]
  cases hFinite : v.isFinite with
  | true =>
    obtain ⟨x, rfl⟩ := Vec.exists_ofReal hFinite
    rw [hv.eq x rfl, h.tracking_inCoordinates h' hT]
  | false =>
    -- both linear costs are refused, unless there are no inputs at all
    rcases Nat.eq_zero_or_pos (N * nu) with hInputs | hInputs
    · have hEmpty : ∀ u v : Vec Extended (N * nu), u = v :=
        fun u v => Vec.ext fun i => absurd i.isLt (by omega)
      rw [hEmpty (c'.tracking _ _ _) (c.tracking v (Vec.ofReal states) inputs)]
    · exact c.qp.solve_eq_of_not_finite
        (h'.tracking_not_finite hInputs (hv.isFinite.trans hFinite) _ inputs)
        (h.tracking_not_finite hInputs hFinite _ inputs) lower upper warm

theorem action_inCoordinates (h : a.IsBuilt c t) (h' : (a.inCoordinates T).IsBuilt c' t')
    (hT : IsUnit T.det) (hqp : c'.qp = c.qp) {v v' : Vec Extended nx} (hv : v.IsImage T v')
    (states : Fin (N * nx) → ℝ) (inputs : Array Extended) (bounds : InputBounds Extended)
    (warm : WarmStart Extended) :
    c'.action v'.toArray
        { states := (Vec.ofReal (Stage.diagonal N T *ᵥ states)).toArray, inputs } bounds warm =
      c.action v.toArray { states := (Vec.ofReal states).toArray, inputs } bounds warm := by
  rw [Controller.action, Controller.action]
  simp only [Controller.linearCost, Check.length_toArray, ok_bind, bind_assoc, pure_bind,
    h.solve_inCoordinates h' hT hqp hv]

theorem next_isImage (h : a.IsBuilt c t) (h' : (a.inCoordinates T).IsBuilt c' t')
    (hT : IsUnit T.det) {v v' : Vec Extended nx} (hv : v.IsImage T v') (w : Vec Extended nu) :
    (c.model.next v w).IsImage T (c'.model.next v' w) where
  isFinite := by
    rw [Bool.eq_iff_iff, Vec.isFinite_iff, Vec.isFinite_iff]
    simp only [h.isFinite_get_next, h'.isFinite_get_next, hv.isFinite]
  eq y hy := by
    rcases Nat.eq_zero_or_pos nx with rfl | hnx
    · exact Vec.ext fun i => i.elim0
    · have hEntry := h.isFinite_get_next v w ⟨0, hnx⟩
      rw [hy, Vec.get_ofReal, isFinite_finite, eq_comm, Bool.and_eq_true] at hEntry
      obtain ⟨x, rfl⟩ := Vec.exists_ofReal hEntry.1
      obtain ⟨u, rfl⟩ := Vec.exists_ofReal hEntry.2
      rw [h.model, Plant.model, LinearModel.next_ofReal, Vec.ofReal_inj] at hy
      rw [hv.eq x rfl, h'.model, Plant.model, LinearModel.next_ofReal, next_inCoordinates hT, hy]

end Plant.IsBuilt

/-! ## Loops -/

namespace ClosedLoop

variable [Precision] {nx nu N : ℕ}

/-- The same demand to a controller in the states `T x`. -/
structure Demand.IsImage (N : ℕ) (T : Matrix (Fin nx) (Fin nx) ℝ) (d d' : Demand Extended) :
    Prop where
  states : ∃ r : Fin (N * nx) → ℝ, d.reference.states = (Vec.ofReal r).toArray ∧
    d'.reference.states = (Vec.ofReal (Stage.diagonal N T *ᵥ r)).toArray
  inputs : d'.reference.inputs = d.reference.inputs
  bounds : d'.bounds = d.bounds
  start : d'.start = d.start

structure State.IsImage (T : Matrix (Fin nx) (Fin nx) ℝ) (s s' : State Extended) : Prop where
  plant : ∃ v v' : Vec Extended nx, v.IsImage T v' ∧ s.plant = v.toArray ∧ s'.plant = v'.toArray
  warm : s'.warm = s.warm

theorem State.IsImage.plant_eq {T : Matrix (Fin nx) (Fin nx) ℝ} {s s' : State Extended}
    (h : s.IsImage T s') {x : Fin nx → ℝ} (hs : s.plant = (Vec.ofReal x).toArray) :
    s'.plant = (Vec.ofReal (T *ᵥ x)).toArray := by
  obtain ⟨v, v', hv, hPlant, hPlant'⟩ := h.plant
  rw [hPlant', hv.eq x (Vector.toArray_inj.mp (hPlant.symm.trans hs))]

end ClosedLoop

/-- The same task for the states `T x`. -/
def Task.inCoordinates {nx nu N : ℕ} (g : Task nx nu N) (T : Matrix (Fin nx) (Fin nx) ℝ) :
    Task nx nu N :=
  { g with states := Stage.diagonal N T *ᵥ g.states }

theorem Task.demand_isImage {nx nu N : ℕ} (g : Task nx nu N) (T : Matrix (Fin nx) (Fin nx) ℝ) :
    g.demand.IsImage N T (g.inCoordinates T).demand :=
  ⟨⟨g.states, rfl, rfl⟩, rfl, rfl, rfl⟩

namespace Plant.IsBuilt

variable [Precision] {nx nu N : ℕ} {a : Plant nx nu} {T : Matrix (Fin nx) (Fin nx) ℝ}
  {c c' : Controller Extended nx nu N} {t t' : Settings ℝ}

theorem round_inCoordinates (h : a.IsBuilt c t) (h' : (a.inCoordinates T).IsBuilt c' t')
    (hT : IsUnit T.det) (hqp : c'.qp = c.qp) {d d' : ClosedLoop.Demand Extended}
    (hd : d.IsImage N T d') {s s' : ClosedLoop.State Extended} (hs : s.IsImage T s') :
    Agree (fun r r' => r'.action = r.action ∧ r.after.IsImage T r'.after)
      (ClosedLoop.round c d s) (ClosedLoop.round c' d' s') := by
  obtain ⟨v, v', hv, hPlant, hPlant'⟩ := hs.plant
  obtain ⟨r, hr, hr'⟩ := hd.states
  have hReference : d.reference =
      { states := (Vec.ofReal r).toArray, inputs := d.reference.inputs } := by
    rw [← hr]
  have hReference' : d'.reference =
      { states := (Vec.ofReal (Stage.diagonal N T *ᵥ r)).toArray, inputs := d.reference.inputs } := by
    rw [← hr', ← hd.inputs]
  have hAction := h.action_inCoordinates h' hT hqp hv r d.reference.inputs d.bounds
    (d.start.getD s.warm)
  rw [← hReference, ← hReference'] at hAction
  rw [ClosedLoop.round, ClosedLoop.round, hd.bounds, hd.start, hs.warm, hPlant, hPlant', hAction]
  refine .bind (.refl _) ?_
  rintro act _ rfl
  rw [LinearModel.step_toArray, LinearModel.step_toArray]
  exact .ok ⟨rfl, ⟨_, _, h.next_isImage h' hT hv act.control, rfl, rfl⟩, rfl⟩

/-- Runs of tasks between bounds that leave room have real states throughout. -/
theorem run_inCoordinates (h : a.IsBuilt c t) (h' : (a.inCoordinates T).IsBuilt c' t')
    (hT : IsUnit T.det) (hqp : c'.qp = c.qp) (x : Fin nx → ℝ) (z : Fin (N * nu) → ℝ)
    (y : Fin (N * nu + (N - 1) * nu) → ℝ) (tasks : List (Task nx nu N)) :
    let run := ClosedLoop.run c (tasks.map Task.demand) (.ofReal x z y)
    let run' := ClosedLoop.run c' (tasks.map fun g => (g.inCoordinates T).demand)
      (.ofReal (T *ᵥ x) z y)
    (run.fault = none ∧ run.rounds.length = tasks.length) ∧ run.fault = run'.fault ∧
      List.Forall₂ (fun r r' => r'.action = r.action ∧ ∃ v,
        r.after.plant = (Vec.ofReal v).toArray ∧
          r'.after.plant = (Vec.ofReal (T *ᵥ v)).toArray) run.rounds run'.rounds := by
  constructor
  · obtain ⟨hFault, hRounds⟩ := h.run_isReal tasks ⟨x, z, y, rfl⟩
    exact ⟨hFault, hRounds.length_eq.symm⟩
  · apply ClosedLoop.run_agree
      (fun d d' => ∃ g : Task nx nu N, d = g.demand ∧ d' = (g.inCoordinates T).demand)
      fun s s' => s.IsReal nx nu N ∧ s.IsImage T s'
    · rintro _ _ s s' ⟨g, rfl, rfl⟩ ⟨hReal, hs⟩
      obtain ⟨r, hr, -, hAfter⟩ := h.exists_round g hReal
      refine (h.round_inCoordinates h' hT hqp (g.demand_isImage T) hs).imp ?_
      intro q q' hq _ hImage
      obtain rfl : r = q := Except.ok.inj (hr.symm.trans hq)
      obtain ⟨v, z, y, hv⟩ := id hAfter
      have hPlant : r.after.plant = (Vec.ofReal v).toArray := by
        rw [hv]
        rfl
      exact ⟨⟨hImage.1, v, hPlant, hImage.2.plant_eq hPlant⟩, hAfter, hImage.2⟩
    · rw [List.forall₂_map_left_iff, List.forall₂_map_right_iff, List.forall₂_same]
      exact fun g _ => ⟨g, rfl, rfl⟩
    · exact ⟨⟨x, z, y, rfl⟩, ⟨_, _, Vec.isImage_ofReal T x, rfl, rfl⟩, rfl⟩

end Plant.IsBuilt

/-- **Coordinates of the state.** Of a plant and of the same plant in the states `T x` either both
controllers are built, or neither is, for the same reason. The two then hold the same program with
the same factor. For corresponding states and references they have the same linear cost, and every
action gives the same answer or is refused for the same reason. So loops from corresponding states
go through the same actions, and their states keep corresponding; between bounds that leave room
all of these are real. -/
theorem coordinates_irrelevant [Precision] {nx nu r : ℕ} (N : ℕ) (A : Matrix (Fin nx) (Fin nx) ℝ)
    (B : Matrix (Fin nx) (Fin nu) ℝ) (Q : Matrix (Fin nx) (Fin nx) ℝ)
    (R : Matrix (Fin r) (Fin r) ℝ) (settings : Settings Extended) (period : Extended)
    {T : Matrix (Fin nx) (Fin nx) ℝ} (hT : IsUnit T.det) :
    Agree (fun c c' : Controller Extended nx nu N =>
        c'.qp = c.qp ∧
        (∀ (x : Fin nx → ℝ) (states : Fin (N * nx) → ℝ) (inputs : Array Extended),
          let ref : Reference Extended := { states := (Vec.ofReal states).toArray, inputs }
          let ref' : Reference Extended := {
            states := (Vec.ofReal (Stage.diagonal N T *ᵥ states)).toArray, inputs }
          c'.linearCost (Vec.ofReal (T *ᵥ x)).toArray ref' =
              c.linearCost (Vec.ofReal x).toArray ref ∧
            ∀ bounds warm, c'.action (Vec.ofReal (T *ᵥ x)).toArray ref' bounds warm =
              c.action (Vec.ofReal x).toArray ref bounds warm) ∧
        (∀ (x : Fin nx → ℝ) (warm : WarmStart Extended) (ds ds' : List (ClosedLoop.Demand Extended)),
          List.Forall₂ (ClosedLoop.Demand.IsImage N T) ds ds' →
          let run := ClosedLoop.run c ds { plant := (Vec.ofReal x).toArray, warm }
          let run' := ClosedLoop.run c' ds' { plant := (Vec.ofReal (T *ᵥ x)).toArray, warm }
          run.fault = run'.fault ∧ List.Forall₂ (fun r r' =>
            r'.action = r.action ∧ r.after.IsImage T r'.after) run.rounds run'.rounds) ∧
        ∀ (x : Fin nx → ℝ) (z : Fin (N * nu) → ℝ) (y : Fin (N * nu + (N - 1) * nu) → ℝ)
            (tasks : List (Task nx nu N)),
          let run := ClosedLoop.run c (tasks.map Task.demand) (.ofReal x z y)
          let run' := ClosedLoop.run c' (tasks.map fun g => (g.inCoordinates T).demand)
            (.ofReal (T *ᵥ x) z y)
          (run.fault = none ∧ run.rounds.length = tasks.length) ∧ run.fault = run'.fault ∧
            List.Forall₂ (fun r r' => r'.action = r.action ∧ ∃ v,
              r.after.plant = (Vec.ofReal v).toArray ∧
                r'.after.plant = (Vec.ofReal (T *ᵥ v)).toArray) run.rounds run'.rounds)
      (Controller.build N (.ofReal A B) { Q := Mat.ofReal Q, R := Mat.ofReal R } settings period)
      (Controller.build N (.ofReal (T * A * T⁻¹) (T * B))
        { Q := Mat.ofReal ((T⁻¹)ᵀ * Q * T⁻¹), R := Mat.ofReal R } settings period) := by
  by_cases hr : r = nu
  · subst hr
    let a : Plant nx r := { A, B, Q, R }
    refine (Plant.build_inCoordinates (a := a) (N := N) hT settings period).imp ?_
    intro c c' hc hc' hqp
    obtain ⟨t, -, h⟩ := Plant.exists_isBuilt_of_build hc
    obtain ⟨t', -, h'⟩ := Plant.exists_isBuilt_of_build hc'
    refine ⟨hqp, ?_, ?_, ?_⟩
    · intro x states inputs
      exact ⟨h.linearCost_inCoordinates h' hT x states inputs, fun bounds warm =>
        h.action_inCoordinates h' hT hqp (Vec.isImage_ofReal T x) states inputs bounds warm⟩
    · intro x warm ds ds' hDemands
      exact ClosedLoop.run_agree _ (·.IsImage T ·)
        (fun _ _ _ _ hd hs => (h.round_inCoordinates h' hT hqp hd hs).imp
          fun _ _ _ _ hPair => ⟨hPair, hPair.2⟩) hDemands
        ⟨⟨_, _, Vec.isImage_ofReal T x, rfl, rfl⟩, rfl⟩
    · exact h.run_inCoordinates h' hT hqp
  · by_cases hN : 0 < N
    · simp only [Controller.build, dif_pos hN, dif_pos, dif_neg hr]
      exact .bind (.refl _) fun _ _ _ => .error _
    · simp only [Controller.build, dif_neg hN]
      exact .error _

/-- The integrator with its state counted in halves. -/
theorem integrator_in_halves :
    letI := Precision.double
    let T : Matrix (Fin 1) (Fin 1) ℝ := Matrix.of ![![2]]
    IsUnit T.det ∧ ∃ (c c' : Controller Extended 1 1 2) (r s r' s' : ClosedLoop.Round Extended 1 2)
      (x : Fin 1 → ℝ),
      Plant.integrator.build 2 (Settings.ofReal .standard) (finite 0.02) = .ok c ∧
      (Plant.integrator.inCoordinates T).build 2 (Settings.ofReal .standard) (finite 0.02) =
        .ok c' ∧
      c'.qp = c.qp ∧
      ClosedLoop.run c ([.hold 1 1 2 7, .hold 1 1 2 0].map Task.demand)
        (.ofReal ![5] (0 : Fin (2 * 1) → ℝ) (0 : Fin (2 * 1 + (2 - 1) * 1) → ℝ)) =
          { rounds := [r, s], fault := none } ∧
      ClosedLoop.run c'
        ([.hold 1 1 2 7, .hold 1 1 2 0].map fun g => (Task.inCoordinates g T).demand)
        (.ofReal (T *ᵥ ![5]) (0 : Fin (2 * 1) → ℝ) (0 : Fin (2 * 1 + (2 - 1) * 1) → ℝ)) =
          { rounds := [r', s'], fault := none } ∧
      r'.action = r.action ∧ s'.action = s.action ∧
      s.after.plant = (Vec.ofReal x).toArray ∧ s'.after.plant = (Vec.ofReal (T *ᵥ x)).toArray := by
  let _ := Precision.double
  intro T
  have hT : IsUnit T.det := by
    rw [det_unique]
    norm_num [T]
  obtain ⟨c, hc⟩ := Plant.exists_build_integrator two_pos
  obtain ⟨c', hc', hqp, -, -, hLoops⟩ :=
    (coordinates_irrelevant 2 Plant.integrator.A Plant.integrator.B Plant.integrator.Q
      Plant.integrator.R (Settings.ofReal .standard) (finite 0.02) hT).exists_of_ok hc
  obtain ⟨⟨hFault, hLength⟩, hFault', hPairs⟩ :=
    hLoops ![5] 0 0 [.hold 1 1 2 7, .hold 1 1 2 0]
  obtain ⟨r, s, hRun⟩ := ClosedLoop.exists_rounds_of_length hFault hLength
  obtain ⟨r', s', hRun', ⟨hr, -⟩, hs, x, hPlant, hPlant'⟩ :=
    ClosedLoop.exists_rounds_of_pair hRun hFault' hPairs
  exact ⟨hT, c, c', r, s, r', s', x, hc, hc', hqp, hRun, hRun', hr, hs, hPlant, hPlant'⟩

end RecedingHorizon
