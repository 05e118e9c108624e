import RecedingHorizon.Proofs.Comparison
import RecedingHorizon.Proofs.Scaling

/-!
# The unit of cost

A cost may be counted in another unit. Weights, penalty, regularization and dual tolerance are
costs for a unit of length, so they carry the unit, and so do multipliers and the dual residual.
Points, slacks, iterations, the primal residual and the status do not.

The system matrix carries the unit once and its factor carries the root of it. A right side that
carries the unit therefore has the same solution (`Solver.step_inCostUnit`). So every computation
of a controller is the same computation in another unit, whatever it is given: it is refused in both
units for the same fault, or the answers are the same up to the unit (`cost_unit_irrelevant`).
-/

namespace RecedingHorizon

open Extended Matrix

/-! ## Quantities in another unit -/

section Units

def Settings.inCostUnit {S : Type} [Mul S] (t : Settings S) (e : S) : Settings S :=
  { t with
    rho := e * t.rho
    sigma := e * t.sigma
    dualTolerance := e * t.dualTolerance }

variable [Precision] {n m nx nu N : ℕ}

noncomputable def WarmStart.inCostUnit (warm : WarmStart Extended) (e : ℝ) : WarmStart Extended :=
  { warm with y := warm.y.map (finite e * ·) }

namespace Qp

noncomputable def Data.inCostUnit (d : Data Extended n m) (e : ℝ) : Data Extended n m :=
  { d with q := d.q.scale e }

noncomputable def Iterate.inCostUnit (it : Iterate Extended n m) (e : ℝ) : Iterate Extended n m :=
  { it with y := it.y.scale e }

noncomputable def Residuals.inCostUnit (r : Residuals Extended) (e : ℝ) : Residuals Extended :=
  { r with dual := finite e * r.dual }

noncomputable def Solution.inCostUnit (sol : Solution Extended n m) (e : ℝ) :
    Solution Extended n m :=
  { sol with
    y := sol.y.scale e
    residuals := sol.residuals.inCostUnit e }

noncomputable def Solver.inCostUnit (s : Solver Extended n m) (e : ℝ) : Solver Extended n m :=
  { s with
    cost := s.cost.scale (finite e)
    settings := s.settings.inCostUnit (finite e)
    factor := s.factor.scale (finite (Real.sqrt e)) }

end Qp

noncomputable def Controller.inCostUnit (c : Controller Extended nx nu N) (e : ℝ) :
    Controller Extended nx nu N :=
  { c with
    stateWeight := c.stateWeight.scale (finite e)
    inputWeight := c.inputWeight.scale (finite e)
    gradient := c.gradient.scale (finite e)
    qp := c.qp.inCostUnit e }

/-- The same control, with the multipliers and the dual residual in another unit. -/
noncomputable def Action.inCostUnit (act : Action Extended nu N) (e : ℝ) : Action Extended nu N :=
  { act with solution := act.solution.inCostUnit e }

namespace ClosedLoop

noncomputable def Demand.inCostUnit (d : Demand Extended) (e : ℝ) : Demand Extended :=
  { d with start := d.start.map (·.inCostUnit e) }

noncomputable def State.inCostUnit (s : State Extended) (e : ℝ) : State Extended :=
  { s with warm := s.warm.inCostUnit e }

noncomputable def Round.inCostUnit (r : Round Extended nu N) (e : ℝ) : Round Extended nu N where
  action := r.action.inCostUnit e
  after := r.after.inCostUnit e

noncomputable def Run.inCostUnit (run : Run Extended nu N) (e : ℝ) : Run Extended nu N :=
  { run with rounds := run.rounds.map (·.inCostUnit e) }

end ClosedLoop

end Units

/-! ## Solves -/

theorem Check.length_scale [Precision] (what : String) (v : Array Extended) (n : ℕ) (e : ℝ) :
    length what (v.map (Extended.finite e * ·)) n = (fun u => Vec.scale u e) <$> length what v n := by
  unfold length
  by_cases h : v.size = n
  · rw [dif_pos h, dif_pos (Array.size_map.trans h)]
    rfl
  · rw [dif_neg h, dif_neg (fun h' => h (Array.size_map.symm.trans h')), Array.size_map]
    rfl

theorem Check.finite_scale [Precision] (what : String) {n : ℕ} (v : Vec Extended n) (e : ℝ) :
    finite what (v.scale e) = finite what v := by
  rw [finite, finite, Vec.isFinite_scale]

namespace Qp

variable [Precision] {n m : ℕ} {e : ℝ}

theorem Residuals.status_inCostUnit (he : 0 < e) (r : Residuals Extended) (t : Settings Extended) :
    (r.inCostUnit e).status (t.inCostUnit (finite e)) = r.status t := by
  simp only [status, inCostUnit, Settings.inCostUnit, finite_mul_le_iff he]

namespace Solver

variable (s : Solver Extended n m)

theorem rightSide_inCostUnit (e : ℝ) (d : Data Extended n m) (it : Iterate Extended n m) :
    (s.inCostUnit e).rightSide (d.inCostUnit e) (it.inCostUnit e) = (s.rightSide d it).scale e := by
  have hPull : (Vec.ofFn fun i => (s.inCostUnit e).settings.rho * it.w.get i -
      (it.inCostUnit e).y.get i) =
        Vec.scale (Vec.ofFn fun i => s.settings.rho * it.w.get i - it.y.get i) e := by
    apply Vec.ext
    intro i
    simp only [inCostUnit, Settings.inCostUnit, Iterate.inCostUnit, Vec.get_ofFn, Vec.get_scale,
      Extended.mul_assoc, finite_mul_sub]
  have hImage := Mat.transposeMulVec_scale s.constraints
    (Vec.ofFn fun i => s.settings.rho * it.w.get i - it.y.get i) e
  rw [← hPull] at hImage
  apply Vec.ext
  intro j
  rw [rightSide, Vec.get_ofFn, Vec.get_scale, rightSide, Vec.get_ofFn, finite_mul_add,
    finite_mul_sub, ← Extended.mul_assoc, ← Vec.get_scale, ← Vec.get_scale, ← hImage]
  rfl

theorem step_inCostUnit (he : 0 < e) (d : Data Extended n m) (it : Iterate Extended n m) :
    (s.inCostUnit e).step (d.inCostUnit e) (it.inCostUnit e) = (s.step d it).inCostUnit e := by
  have hRoot : Real.sqrt e * (Real.sqrt e * 1) = e := by
    rw [mul_one, Real.mul_self_sqrt he.le]
  have hx : (s.inCostUnit e).factor.choleskySolve
      ((s.inCostUnit e).rightSide (d.inCostUnit e) (it.inCostUnit e)) =
        s.factor.choleskySolve (s.rightSide d it) := by
    have hSolve := Mat.choleskySolve_scale (Real.sqrt_pos.mpr he) 1 s.factor (s.rightSide d it)
    rw [hRoot, Vec.scale_one] at hSolve
    rw [s.rightSide_inCostUnit]
    exact hSolve
  have hShifted : ∀ r : Vec Extended m,
      (Vec.ofFn fun i => r.get i + (it.inCostUnit e).y.get i / (s.inCostUnit e).settings.rho) =
        Vec.ofFn fun i => r.get i + it.y.get i / s.settings.rho := by
    intro r
    apply Vec.ext
    intro i
    simp only [inCostUnit, Settings.inCostUnit, Iterate.inCostUnit, Vec.get_ofFn, Vec.get_scale,
      finite_mul_div_finite_mul he]
  have hMove : ∀ r w : Vec Extended m,
      (Vec.ofFn fun i => (it.inCostUnit e).y.get i +
        (s.inCostUnit e).settings.rho * (r.get i - w.get i)) =
      Vec.scale (Vec.ofFn fun i => it.y.get i + s.settings.rho * (r.get i - w.get i)) e := by
    intro r w
    apply Vec.ext
    intro i
    simp only [inCostUnit, Settings.inCostUnit, Iterate.inCostUnit, Vec.get_ofFn, Vec.get_scale,
      Extended.mul_assoc, finite_mul_add]
  rw [step, hx]
  simp only [hShifted, hMove]
  rfl

theorem run_inCostUnit (he : 0 < e) (d : Data Extended n m) (k : ℕ) (it : Iterate Extended n m) :
    (s.inCostUnit e).run (d.inCostUnit e) k (it.inCostUnit e) = (s.run d k it).inCostUnit e := by
  induction k with
  | zero => rfl
  | succ k ih =>
    change (s.inCostUnit e).step _ ((s.inCostUnit e).run (d.inCostUnit e) k _) = _
    rw [ih, s.step_inCostUnit he]
    rfl

theorem residuals_inCostUnit (e : ℝ) (before after : Iterate Extended n m) :
    (s.inCostUnit e).residuals (before.inCostUnit e) (after.inCostUnit e) =
      (s.residuals before after).inCostUnit e := by
  simp only [residuals, inCostUnit, Settings.inCostUnit, Iterate.inCostUnit, Residuals.inCostUnit,
    Extended.mul_assoc]

theorem answer_inCostUnit (he : 0 < e) (d : Data Extended n m) (z : Vec Extended n)
    (y : Vec Extended m) (k : ℕ) :
    (s.inCostUnit e).answer (d.inCostUnit e) z (y.scale e) k = (s.answer d z y k).inCostUnit e := by
  have hStart : (s.inCostUnit e).start (d.inCostUnit e) z (y.scale e) =
      (s.start d z y).inCostUnit e := rfl
  have hSettings : (s.inCostUnit e).settings = s.settings.inCostUnit (finite e) := rfl
  rw [answer, hStart, s.run_inCostUnit he, s.step_inCostUnit he, s.residuals_inCostUnit,
    hSettings, Residuals.status_inCostUnit he]
  rfl

/-- A solve in another unit is refused for the same fault or has the same answer. -/
theorem solveWith_inCostUnit (he : 0 < e) (q lower upper : Array Extended)
    (warm : WarmStart Extended) (k : ℕ) :
    (s.inCostUnit e).solveWith (q.map (finite e * ·)) lower upper (warm.inCostUnit e) k =
      (·.inCostUnit e) <$> s.solveWith q lower upper warm k := by
  cases k with
  | zero => rfl
  | succ k =>
    simp only [solveWith, WarmStart.inCostUnit, Check.length_scale, bind_map_left, map_bind]
    refine bind_congr fun q => bind_congr fun lower => bind_congr fun upper => bind_congr fun z =>
      bind_congr fun y => ?_
    simp only [Check.finite_scale, map_pure]
    refine bind_congr fun _ => bind_congr fun _ => bind_congr fun _ => bind_congr fun _ => ?_
    exact congrArg pure (s.answer_inCostUnit he { q, lower, upper } z y k)

end Solver

end Qp

/-! ## Actions and loops -/

namespace Controller

variable [Precision] {nx nu N : ℕ} {e : ℝ} (c : Controller Extended nx nu N)

theorem tracking_inCostUnit (e : ℝ) (x : Vec Extended nx) (states : Vec Extended (N * nx))
    (inputs : Vec Extended (N * nu)) :
    (c.inCostUnit e).tracking x states inputs = (c.tracking x states inputs).scale e := by
  simp only [tracking, inCostUnit, Mat.scale_mulVec, Vec.scale_sub]

theorem linearCost_inCostUnit (e : ℝ) (x : Array Extended) (ref : Reference Extended) :
    (c.inCostUnit e).linearCost x ref = (fun q => Vec.scale q e) <$> c.linearCost x ref := by
  simp only [linearCost, map_bind, map_pure, tracking_inCostUnit]

theorem action_inCostUnit (he : 0 < e) (x : Array Extended) (ref : Reference Extended)
    (bounds : InputBounds Extended) (warm : WarmStart Extended) :
    (c.inCostUnit e).action x ref bounds (warm.inCostUnit e) =
      (·.inCostUnit e) <$> c.action x ref bounds warm := by
  simp only [action, linearCost_inCostUnit, map_bind, bind_map_left]
  refine bind_congr fun inputMin => bind_congr fun inputMax => bind_congr fun _ =>
    bind_congr fun _ => bind_congr fun q => ?_
  have hSolve : (c.inCostUnit e).qp.solve (q.scale e).toArray bounds.lower bounds.upper
      (warm.inCostUnit e) =
        (·.inCostUnit e) <$> c.qp.solve q.toArray bounds.lower bounds.upper warm :=
    c.qp.solveWith_inCostUnit he q.toArray bounds.lower bounds.upper warm c.qp.settings.maxIter
  rw [hSolve, bind_map_left]
  rfl

end Controller

namespace ClosedLoop

variable [Precision] {nx nu N : ℕ} {e : ℝ} (c : Controller Extended nx nu N)

/-- The control carries no unit, so the plant goes to the same state. -/
theorem round_inCostUnit (he : 0 < e) (d : Demand Extended) (s : State Extended) :
    round (c.inCostUnit e) (d.inCostUnit e) (s.inCostUnit e) =
      (·.inCostUnit e) <$> round c d s := by
  have hStart : (d.inCostUnit e).start.getD (s.inCostUnit e).warm =
      (d.start.getD s.warm).inCostUnit e := Option.getD_map _ _ _
  have hAction := c.action_inCostUnit he s.plant d.reference d.bounds (d.start.getD s.warm)
  rw [← hStart] at hAction
  simp only [round, map_bind, map_pure]
  refine (congrArg (· >>= _) hAction).trans ?_
  rw [bind_map_left]
  rfl

theorem run_inCostUnit (he : 0 < e) (ds : List (Demand Extended)) (s : State Extended) :
    run (c.inCostUnit e) (ds.map (·.inCostUnit e)) (s.inCostUnit e) =
      (run c ds s).inCostUnit e := by
  induction ds generalizing s with
  | nil => rfl
  | cons d ds ih =>
    rw [List.map_cons, run, round_inCostUnit c he, run]
    cases round c d s with
    | error fault => rfl
    | ok r =>
      exact congrArg (fun rest : Run Extended nu N =>
        { rest with rounds := r.inCostUnit e :: rest.rounds }) (ih r.after)

end ClosedLoop

/-! ## Setups -/

theorem Settings.IsValid.inCostUnit {t : Settings ℝ} (h : t.IsValid) {e : ℝ} (he : 0 < e) :
    (t.inCostUnit e).IsValid where
  rho_pos := mul_pos he h.rho_pos
  sigma_nonneg := mul_nonneg he.le h.sigma_nonneg
  alpha_pos := h.alpha_pos
  alpha_lt_two := h.alpha_lt_two
  maxIter_pos := h.maxIter_pos
  primalTolerance_nonneg := h.primalTolerance_nonneg
  dualTolerance_nonneg := mul_nonneg he.le h.dualTolerance_nonneg

namespace Qp

variable [Precision] {n m : ℕ} {e : ℝ}

omit [Precision] in
theorem Problem.system_inCostUnit (p : Problem n m) (t : Settings ℝ) (e : ℝ) :
    ({ p with P := e • p.P } : Problem n m).system (t.inCostUnit e) = e • p.system t := by
  simp only [Problem.system, Settings.inCostUnit, smul_add, mul_smul]

theorem factorize_inCostUnit (he : 0 < e) (P : Matrix (Fin n) (Fin n) ℝ)
    (A : Matrix (Fin m) (Fin n) ℝ) (t : Settings ℝ) :
    factorize (Mat.ofReal (e • P)) (Mat.ofReal A) (finite (e * t.rho)) (finite (e * t.sigma)) =
      (·.scale (finite (Real.sqrt e))) <$>
        factorize (Mat.ofReal P) (Mat.ofReal A) (finite t.rho) (finite t.sigma) := by
  let p : Problem n m := { P, A, q := 0, box := .univ m }
  have hSystem : systemMatrix (Mat.ofReal P) (Mat.ofReal A) (finite t.rho) (finite t.sigma) =
      Mat.ofReal (p.system t) := systemMatrix_ofReal p t
  have hSystem' : systemMatrix (Mat.ofReal (e • P)) (Mat.ofReal A) (finite (e * t.rho))
      (finite (e * t.sigma)) = Mat.ofReal (e • p.system t) := by
    rw [← p.system_inCostUnit]
    exact systemMatrix_ofReal { p with P := e • P } (t.inCostUnit e)
  rw [factorize, factorize, hSystem, hSystem', Mat.cholesky_smul he]
  cases (Mat.ofReal (p.system t)).cholesky with
  | none => rfl
  | some L =>
    simp only [Option.map_some, Mat.hasSoundDiagonal_scale (Real.sqrt_pos.mpr he)]
    split <;> rfl

theorem Solver.setup_inCostUnit (he : 0 < e) {P : Matrix (Fin n) (Fin n) ℝ} (hP : P.IsSymm)
    (A : Matrix (Fin m) (Fin n) ℝ) {t : Settings ℝ} (hValid : t.IsValid) :
    setup (Mat.ofReal (e • P)) (Mat.ofReal A) (t.inCostUnit e).ofReal =
      (·.inCostUnit e) <$> setup (Mat.ofReal P) (Mat.ofReal A) t.ofReal := by
  have hSettings : t.ofReal.validate = .ok () := Settings.validate_ofReal_eq_ok_iff.mpr hValid
  have hSettings' : (t.inCostUnit e).ofReal.validate = .ok () :=
    Settings.validate_ofReal_eq_ok_iff.mpr (hValid.inCostUnit he)
  have hP' : (e • P).IsSymm := by rw [Matrix.IsSymm, transpose_smul, hP.eq]
  have hFinite : ∀ {k : ℕ} (what : String) (M : Matrix (Fin k) (Fin n) ℝ),
      Check.finiteEntries what (Mat.ofReal M) = .ok () :=
    fun what M => Check.finiteEntries_eq_ok_iff.mpr (Mat.isFinite_ofReal M)
  have hSymmetric : ∀ {M : Matrix (Fin n) (Fin n) ℝ}, M.IsSymm →
      Check.symmetric "P" (Mat.ofReal M) = .ok () :=
    fun hM => Check.symmetric_eq_ok_iff.mpr (Mat.isNearlySymmetric_ofReal hM)
  have hFactor := factorize_inCostUnit he P A t
  simp only [setup, prepare, hSettings, hSettings', hFinite, hSymmetric hP, hSymmetric hP',
    ok_bind, map_bind, map_pure]
  refine (congrArg (· >>= _) hFactor).trans ?_
  rw [bind_map_left, ← Mat.scale_ofReal]
  rfl

end Qp

/-! ## Controllers -/

namespace Plant

variable {nx nu N : ℕ} {e : ℝ} (a : Plant nx nu)

/-- The plant with its weights in another unit. -/
def inCostUnit (e : ℝ) : Plant nx nu :=
  { a with
    Q := e • a.Q
    R := e • a.R }

theorem gradient_inCostUnit (N : ℕ) (e : ℝ) : (a.inCostUnit e).gradient N = e • a.gradient N := by
  rw [gradient, gradient, inCostUnit, Stage.diagonal_smul, Matrix.mul_smul]
  rfl

theorem curvature_inCostUnit (N : ℕ) (e : ℝ) :
    (a.inCostUnit e).curvature N = e • a.curvature N := by
  have hHessian : (a.inCostUnit e).hessian N = e • a.hessian N := by
    rw [hessian, gradient_inCostUnit, hessian, smul_add, smul_mul, ← Stage.diagonal_smul]
    rfl
  rw [curvature, curvature, hHessian, transpose_smul, ← smul_add, smul_comm]

theorem build_inCostUnit [Precision] (he : 0 < e) (N : ℕ) {t : Settings ℝ} (hValid : t.IsValid)
    (period : Extended) :
    (a.inCostUnit e).build N (t.inCostUnit e).ofReal period =
      (·.inCostUnit e) <$> a.build N t.ofReal period := by
  have hWeight : ∀ {k : ℕ} (M : Matrix (Fin k) (Fin k) ℝ),
      (Mat.ofReal (e • M)).blockDiagonal N = ((Mat.ofReal M).blockDiagonal N).scale (finite e) := by
    intro k M
    rw [Mat.blockDiagonal_ofReal, Mat.blockDiagonal_ofReal, Stage.diagonal_smul, Mat.scale_ofReal]
  have hState : (a.inCostUnit e).cost.Q.blockDiagonal N =
      (a.cost.Q.blockDiagonal N).scale (finite e) := hWeight a.Q
  have hInput : (a.inCostUnit e).cost.R.blockDiagonal N =
      (a.cost.R.blockDiagonal N).scale (finite e) := hWeight a.R
  have hGradient : (Prediction.unroll (a.inCostUnit e).model N).F.transposeMul
      ((a.inCostUnit e).cost.Q.blockDiagonal N) =
        ((Prediction.unroll a.model N).F.transposeMul (a.cost.Q.blockDiagonal N)).scale
          (finite e) := by
    rw [unroll_ofReal, gradient_ofReal, gradient_inCostUnit, unroll_ofReal, gradient_ofReal,
      Mat.scale_ofReal]
  by_cases hN : 0 < N
  · simp only [build, Controller.build, dif_pos hN, dif_pos, Controller.assemble, Mat.cast_self,
      setup_ofReal, map_bind, map_pure]
    refine bind_congr fun _ => ?_
    rw [curvature_inCostUnit, Qp.Solver.setup_inCostUnit he curvature_isSymm _ hValid,
      bind_map_left]
    refine bind_congr fun qp => ?_
    rw [hGradient, hState, hInput]
    rfl
  · simp only [build, Controller.build, dif_neg hN]
    rfl

end Plant

/-- Building in another unit fails alike or makes the controller in that unit, with weights of any
sizes. -/
theorem Controller.build_inCostUnit [Precision] {nx nu p r : ℕ} {e : ℝ} (he : 0 < e) (N : ℕ)
    (A : Matrix (Fin nx) (Fin nx) ℝ) (B : Matrix (Fin nx) (Fin nu) ℝ)
    (Q : Matrix (Fin p) (Fin p) ℝ) (R : Matrix (Fin r) (Fin r) ℝ) {t : Settings ℝ}
    (hValid : t.IsValid) (period : Extended) :
    build N (.ofReal A B) { Q := Mat.ofReal (e • Q), R := Mat.ofReal (e • R) }
        (t.inCostUnit e).ofReal period =
      (·.inCostUnit e) <$> build N (.ofReal A B) { Q := Mat.ofReal Q, R := Mat.ofReal R }
        t.ofReal period := by
  by_cases hN : 0 < N
  · by_cases hp : p = nx
    · by_cases hr : r = nu
      · subst hp hr
        let a : Plant p r := { A, B, Q, R }
        exact a.build_inCostUnit he N hValid period
      · simp only [build, dif_pos hN, dif_pos hp, dif_neg hr, map_bind]
        rfl
    · simp only [build, dif_pos hN, dif_neg hp, map_bind]
      rfl
  · simp only [build, dif_neg hN]
    rfl

/-- **Cost units.** Weights, penalty, regularization and dual tolerance in another unit of cost make
a controller exactly when they make one in the old unit. The two controllers answer every call
alike: they refuse it for the same fault, or give the same control, inputs, iterations, primal
residual and status, with the multipliers and the dual residual in the new unit. So from the same
state two loops apply the same controls and pass through the same states, however long they run. -/
theorem cost_unit_irrelevant [Precision] {nx nu p r : ℕ} (N : ℕ) (A : Matrix (Fin nx) (Fin nx) ℝ)
    (B : Matrix (Fin nx) (Fin nu) ℝ) (Q : Matrix (Fin p) (Fin p) ℝ) (R : Matrix (Fin r) (Fin r) ℝ)
    {settings : Settings Extended} (hSettings : settings.validate = .ok ()) (period : Extended)
    {e : ℝ} (he : 0 < e) :
    Agree (fun c c' : Controller Extended nx nu N =>
        (∀ (x : Array Extended) (ref : Reference Extended) (bounds : InputBounds Extended)
          (warm : WarmStart Extended),
          c'.action x ref bounds (warm.inCostUnit e) =
            (·.inCostUnit e) <$> c.action x ref bounds warm) ∧
        ∀ (ds : List (ClosedLoop.Demand Extended)) (s : ClosedLoop.State Extended),
          ClosedLoop.run c' (ds.map (·.inCostUnit e)) (s.inCostUnit e) =
            (ClosedLoop.run c ds s).inCostUnit e)
      (Controller.build N (.ofReal A B) { Q := Mat.ofReal Q, R := Mat.ofReal R } settings period)
      (Controller.build N (.ofReal A B) { Q := Mat.ofReal (e • Q), R := Mat.ofReal (e • R) }
        (settings.inCostUnit (finite e)) period) := by
  obtain ⟨t, rfl⟩ := Settings.exists_ofReal hSettings
  have hValid := Settings.validate_ofReal_eq_ok_iff.mp hSettings
  have hBuild := Controller.build_inCostUnit he N A B Q R hValid period
  change Agree _ _ (Controller.build N (.ofReal A B) _ (t.inCostUnit e).ofReal period)
  rw [hBuild]
  cases Controller.build N (.ofReal A B) { Q := Mat.ofReal Q, R := Mat.ofReal R } t.ofReal period with
  | error fault => exact .error fault
  | ok c =>
    refine .ok ⟨fun x ref bounds warm => ?_, fun ds s => ?_⟩
    · exact c.action_inCostUnit he x ref bounds warm
    · exact ClosedLoop.run_inCostUnit c he ds s

/-- Two rounds of the integrator with all costs doubled. -/
theorem integrator_costs_doubled :
    letI := Precision.double
    let demands := [(Task.hold 1 1 2 7).demand, (Task.hold 1 1 2 0).demand]
    let start : ClosedLoop.State Extended := .ofReal ![5] (0 : Fin 2 → ℝ) (0 : Fin 3 → ℝ)
    ∃ (c c' : Controller Extended 1 1 2) (r s : ClosedLoop.Round Extended 1 2),
      Plant.integrator.build 2 (Settings.ofReal .standard) (finite 0.02) = .ok c ∧
      (Plant.integrator.inCostUnit 2).build 2 ((Settings.ofReal .standard).inCostUnit (finite 2))
        (finite 0.02) = .ok c' ∧
      ClosedLoop.run c demands start = { rounds := [r, s], fault := none } ∧
      ClosedLoop.run c' (demands.map (·.inCostUnit 2)) (start.inCostUnit 2) =
        { rounds := [r.inCostUnit 2, s.inCostUnit 2], fault := none } := by
  let _ := Precision.double
  intro demands start
  obtain ⟨c, hc⟩ := Plant.exists_build_integrator two_pos
  have hSettings : (Settings.ofReal .standard).validate = .ok () :=
    Settings.validate_ofReal_eq_ok_iff.mpr Settings.standard_isValid
  obtain ⟨c', hc', -, hLoops⟩ :=
    (cost_unit_irrelevant 2 Plant.integrator.A Plant.integrator.B Plant.integrator.Q
      Plant.integrator.R hSettings (finite 0.02) two_pos).exists_of_ok hc
  obtain ⟨t, -, hBuilt⟩ := Plant.exists_isBuilt_of_build hc
  obtain ⟨hFault, hRounds⟩ := hBuilt.run_isReal [.hold 1 1 2 7, .hold 1 1 2 0]
    (s := start) ⟨![5], 0, 0, rfl⟩
  obtain ⟨r, s, hRun, -⟩ := ClosedLoop.exists_rounds_of_two hFault hRounds
  have hRun' := hLoops demands start
  refine ⟨c, c', r, s, hc, hc', hRun, ?_⟩
  rw [hRun']
  exact congrArg (·.inCostUnit 2) hRun

end RecedingHorizon
