import RecedingHorizon.Proofs.Action
import RecedingHorizon.Proofs.StageBounds

/-!
# When answers are finite

The order check passes bounds that are infinite inward: both sides `∞`, or both `-∞`. No number
lies between such bounds, and a clamp between them is never finite. So an accepted problem has a
finite answer inside its bounds exactly when no row has bounds of this kind
(`finite_answers_iff_hasRoom`); the iteration itself never leaves the real numbers
(`Problem.exists_step_of_setup`).
-/

namespace RecedingHorizon

open Extended Matrix

namespace Extended

variable {lo hi : Extended}

/-- Bounds in order that no real number satisfies are twice the same infinity. -/
theorem eq_infinite_of_not_room (hOrdered : lo ≤ hi) (h : ¬ (lo < posInf ∧ negInf < hi)) :
    (lo = posInf ∧ hi = posInf) ∨ (lo = negInf ∧ hi = negInf) := by
  cases lo with
  | finite a =>
    cases hi with
    | finite b => exact absurd ⟨trivial, trivial⟩ h
    | posInf => exact absurd ⟨trivial, trivial⟩ h
    | negInf => exact hOrdered.elim
    | nan => exact hOrdered.elim
  | posInf =>
    cases hi with
    | posInf => exact .inl ⟨rfl, rfl⟩
    | _ => exact hOrdered.elim
  | negInf =>
    cases hi with
    | finite b => exact absurd ⟨trivial, trivial⟩ h
    | posInf => exact absurd ⟨trivial, trivial⟩ h
    | negInf => exact .inr ⟨rfl, rfl⟩
    | nan => exact hOrdered.elim
  | nan => cases hi <;> exact hOrdered.elim

variable [Precision]

theorem clamp_not_finite (hOrdered : lo ≤ hi) (h : ¬ (lo < posInf ∧ negInf < hi)) (x : Extended) :
    Scalar.isFinite (Scalar.clamp lo hi x) = false := by
  unfold Scalar.clamp
  obtain ⟨rfl, rfl⟩ | ⟨rfl, rfl⟩ := eq_infinite_of_not_room hOrdered h
  · split_ifs with hLow
    · rfl
    · rfl
    · cases x with
      | finite a => exact absurd trivial hLow
      | _ => rfl
  · split_ifs with hLow hHigh
    · rfl
    · rfl
    · cases x with
      | finite a => exact absurd trivial hHigh
      | _ => rfl

end Extended

namespace Vec

variable {m n N b : ℕ}

/-- Whether no bound is infinite inward. -/
def HasRoom (lo hi : Vec Extended n) : Prop := ∀ i, lo.get i < posInf ∧ negInf < hi.get i

theorem HasRoom.left {lo hi : Vec Extended m} {lo' hi' : Vec Extended n}
    (h : HasRoom (lo ++ lo') (hi ++ hi')) : HasRoom lo hi := by
  intro i
  have hi := h (Fin.castAdd n i)
  rwa [get_append_castAdd, get_append_castAdd] at hi

theorem HasRoom.block {lo hi : Vec Extended (N * b)} (h : HasRoom lo hi) (k : Fin N) :
    HasRoom (lo.block k) (hi.block k) := by
  intro j
  rw [get_block, get_block]
  exact h _

/-- Bounds in order with room make a box. -/
def HasRoom.box {lo hi : Vec Extended n} (hRoom : HasRoom lo hi)
    (hOrdered : ∀ i, lo.get i ≤ hi.get i) : Box n where
  lower := lo
  upper := hi
  isInterval i := ⟨hOrdered i, (hRoom i).1, (hRoom i).2⟩

end Vec

namespace Box

variable {m : ℕ} (b : Box m)

theorem hasRoom : Vec.HasRoom b.lower b.upper :=
  fun i => ⟨(b.isInterval i).lower_lt, (b.isInterval i).lt_upper⟩

theorem between_ofReal [Precision] {v : Fin m → ℝ} (hv : v ∈ b) :
    Vec.Between b.lower b.upper (Vec.ofReal v) := by
  intro i
  rw [Vec.get_ofReal]
  exact hv i

end Box

namespace Vec

variable [Precision] {n N b : ℕ}

theorem isFinite_block {v : Vec Extended (N * b)} (hv : v.isFinite = true) (k : Fin N) :
    (v.block k).isFinite = true := by
  rw [isFinite_iff] at hv ⊢
  intro j
  rw [get_block]
  exact hv _

theorem clamp_between {lo hi v : Vec Extended n} (hRoom : HasRoom lo hi)
    (hOrdered : ∀ i, lo.get i ≤ hi.get i) (hv : v.isFinite = true) :
    (clamp lo hi v).isFinite = true ∧ Between lo hi (clamp lo hi v) := by
  obtain ⟨v, rfl⟩ := exists_ofReal hv
  have hClamp : clamp lo hi (ofReal v) = ofReal ((hRoom.box hOrdered).project v) :=
    (hRoom.box hOrdered).clamp_ofReal v
  rw [hClamp]
  exact ⟨isFinite_ofReal _, (hRoom.box hOrdered).between_ofReal (Box.project_mem v)⟩

end Vec

/-! ## Answers -/

namespace Qp

variable [Precision] {n m : ℕ}

structure Solution.IsFinite (sol : Solution Extended n m) : Prop where
  z : sol.z.isFinite = true
  y : sol.y.isFinite = true
  w : sol.w.isFinite = true
  primal : Scalar.isFinite sol.residuals.primal = true
  dual : Scalar.isFinite sol.residuals.dual = true

/-- A finite cost with bounds in order that leave room is that of a problem, with any matrices. -/
theorem Data.exists_problem (p : Problem n m) {d : Data Extended n m} (hq : d.q.isFinite = true)
    (hOrdered : ∀ i, d.lower.get i ≤ d.upper.get i) (hRoom : Vec.HasRoom d.lower d.upper) :
    ∃ q box, ({ p with q, box } : Problem n m).data = d := by
  obtain ⟨q, lower, upper⟩ := d
  obtain ⟨q, rfl⟩ := Vec.exists_ofReal hq
  exact ⟨q, hRoom.box hOrdered, rfl⟩

namespace Solver

variable {s : Solver Extended n m} {d : Data Extended n m} {z : Vec Extended n} {y : Vec Extended m}

/-- Prepared data are real. -/
theorem exists_problem_of_setup {P : Mat Extended n n} {A : Mat Extended m n}
    {settings : Settings Extended} (hs : setup P A settings = .ok s) :
    ∃ (P' : Matrix (Fin n) (Fin n) ℝ) (A' : Matrix (Fin m) (Fin n) ℝ) (t : Settings ℝ),
      ∀ q box, ({ P := P', A := A', q, box } : Problem n m).setup t = .ok s := by
  obtain ⟨hSettings, hP, hA, -⟩ := setup_eq_ok_iff.mp hs
  obtain ⟨t, rfl⟩ := Settings.exists_ofReal hSettings
  obtain ⟨P, rfl⟩ := Mat.exists_ofReal hP
  obtain ⟨A, rfl⟩ := Mat.exists_ofReal hA
  exact ⟨P, A, t, fun _ _ => hs⟩

/-- Between bounds with room a solve stays real and ends inside them. -/
theorem answer_isFinite {P : Mat Extended n n} {A : Mat Extended m n}
    {settings : Settings Extended} (hs : setup P A settings = .ok s) (hq : d.q.isFinite = true)
    (hz : z.isFinite = true) (hy : y.isFinite = true)
    (hOrdered : ∀ i, d.lower.get i ≤ d.upper.get i) (hRoom : Vec.HasRoom d.lower d.upper) (k : ℕ) :
    (s.answer d z y k).IsFinite ∧ Vec.Between d.lower d.upper (s.answer d z y k).w := by
  obtain ⟨P, A, t, hSetup⟩ := exists_problem_of_setup hs
  obtain ⟨q, box, rfl⟩ := Data.exists_problem { P, A, q := 0, box := .univ m } hq hOrdered hRoom
  obtain ⟨z, rfl⟩ := Vec.exists_ofReal hz
  obtain ⟨y, rfl⟩ := Vec.exists_ofReal hy
  obtain ⟨u, v, hStep, hSolve⟩ := Problem.exists_step_of_setup (hSetup q box) z y k
  rw [solveProblem_eq_ok, Except.ok.injEq] at hSolve
  rw [hSolve]
  exact ⟨⟨Vec.isFinite_ofReal _, Vec.isFinite_ofReal _, Vec.isFinite_ofReal _, rfl, rfl⟩,
    box.between_ofReal hStep.normal.mem⟩

/-- A row without room has an infinite or undefined slack, after any number of iterations. -/
theorem answer_not_finite (hOrdered : ∀ i, d.lower.get i ≤ d.upper.get i) {i : Fin m}
    (hRoom : ¬ (d.lower.get i < posInf ∧ negInf < d.upper.get i)) (k : ℕ) :
    Scalar.isFinite ((s.answer d z y k).w.get i) = false := by
  change Scalar.isFinite ((Vec.clamp d.lower d.upper _).get i) = false
  rw [Vec.get_clamp]
  exact clamp_not_finite (hOrdered i) hRoom _

/-- The answer to an accepted problem is finite and inside the bounds exactly when every row
leaves room. -/
theorem solution_isFinite_iff {P : Mat Extended n n} {A : Mat Extended m n}
    {settings : Settings Extended} (hs : setup P A settings = .ok s) {q : Array Extended}
    {lo hi : Vec Extended m} {warm : WarmStart Extended} {k : ℕ} {sol : Solution Extended n m}
    (h : s.solveWith q lo.toArray hi.toArray warm k = .ok sol) :
    sol.IsFinite ∧ Vec.Between lo hi sol.w ↔ Vec.HasRoom lo hi := by
  obtain ⟨d, z, y, j, -, hLower, hUpper, ⟨hq, hz, hy⟩, hOrdered, rfl⟩ := exists_of_solveWith_eq_ok h
  obtain rfl := Vector.toArray_inj.mp hLower
  obtain rfl := Vector.toArray_inj.mp hUpper
  constructor
  · intro hFinite i
    by_contra hTight
    have hw := (Vec.isFinite_iff _).mp hFinite.1.w i
    rw [answer_not_finite hOrdered hTight] at hw
    cases hw
  · intro hRoom
    exact answer_isFinite hs hq hz hy hOrdered hRoom j

end Solver

end Qp

/-- **Finite answers.** The answer to an accepted problem consists of finite numbers, with a slack
inside the bounds, exactly when no row has bounds that are infinite inward. When none of the
stacked bounds of an action is, its control is finite and lies in the box of the first stage. -/
theorem finite_answers_iff_hasRoom [Precision] :
    (∀ {P A : Grid Extended} {settings : Settings Extended} {s : Qp.Solver Extended P.rows A.rows},
      Qp.Solver.ofGrids P A settings = .ok s →
      ∀ {q lower upper : Array Extended} {warm : WarmStart Extended} {k : ℕ}
        {sol : Qp.Solution Extended P.rows A.rows}, s.solveWith q lower upper warm k = .ok sol →
      ∃ lo hi : Vec Extended A.rows, lower = lo.toArray ∧ upper = hi.toArray ∧
        (sol.IsFinite ∧ Vec.Between lo hi sol.w ↔ Vec.HasRoom lo hi)) ∧
    (∀ {nx nu p r N : ℕ} {model : LinearModel Extended nx nu} {cost : StageCost Extended p r}
      {settings : Settings Extended} {period : Extended} {c : Controller Extended nx nu N},
      Controller.build N model cost settings period = .ok c →
      ∀ {x : Array Extended} {ref : Reference Extended} {bounds : InputBounds Extended}
        {warm : WarmStart Extended} {act : Action Extended nu N},
      c.action x ref bounds warm = .ok act →
      ∃ b : Sides nu N, bounds = b.bounds ∧
        (Vec.HasRoom (b.inputMin ++ b.rateMin) (b.inputMax ++ b.rateMax) →
          act.control.isFinite = true ∧ Vec.Between (b.inputMin.block ⟨0, c.stages_pos⟩)
            (b.inputMax.block ⟨0, c.stages_pos⟩) act.control)) := by
  constructor
  · intro P A settings s hs q lower upper warm k sol h
    obtain ⟨_, _, hSetup⟩ := Qp.Solver.setup_of_ofGrids hs
    obtain ⟨d, -, -, -, -, rfl, rfl, -⟩ := Qp.Solver.exists_of_solveWith_eq_ok h
    exact ⟨d.lower, d.upper, rfl, rfl, Qp.Solver.solution_isFinite_iff hSetup h⟩
  · intro nx nu p r N model cost settings period c hc x ref bounds warm act h
    obtain ⟨_, _, hSetup⟩ := Controller.exists_setup_of_build hc
    obtain ⟨q, lo, hi, rateLo, rateHi, rfl, hSolve, hControl⟩ :=
      Controller.exists_of_action_eq_ok h
    refine ⟨{ inputMin := lo, inputMax := hi, rateMin := rateLo, rateMax := rateHi }, rfl,
      fun hRoom => ?_⟩
    obtain ⟨hFinite, -⟩ := (Qp.Solver.solution_isFinite_iff hSetup hSolve).mpr hRoom
    have hOrdered := Qp.Solver.ordered_of_solveWith_eq_ok hSolve
    rw [hControl]
    refine Vec.clamp_between (hRoom.left.block _) (fun j => ?_) (Vec.isFinite_block hFinite.z _)
    have hStage := hOrdered (Fin.castAdd _ (Stage.index ⟨0, c.stages_pos⟩ j))
    rwa [Vec.get_append_castAdd, Vec.get_append_castAdd, ← Vec.get_block, ← Vec.get_block] at hStage

/-- Real matrices of matching shapes are set up as they are. -/
theorem Qp.Solver.ofGrids_ofReal [Precision] {n m : ℕ} (P : Matrix (Fin n) (Fin n) ℝ)
    (A : Matrix (Fin m) (Fin n) ℝ) (settings : Settings Extended) :
    ofGrids { rows := n, cols := n, entries := Mat.ofReal P }
      { rows := m, cols := n, entries := Mat.ofReal A } settings =
      setup (Mat.ofReal P) (Mat.ofReal A) settings := by
  simp only [ofGrids, setup, Check.square, dif_pos, ok_bind, Mat.castCols]

/-- Bounds on one side leave room. -/
theorem half_line_finite_answer :
    letI := Precision.double
    let rest : Task 1 1 2 := { states := 0, inputs := 0, limits := .unit 1 2 }
    ∃ (s : Qp.Solver Extended 1 1) (sol : Qp.Solution Extended 1 1) (c : Controller Extended 1 1 2)
      (act : Action Extended 1 2),
      Qp.Solver.ofGrids { rows := 1, cols := 1, entries := Mat.ofReal 1 }
        { rows := 1, cols := 1, entries := Mat.ofReal 1 } (Settings.ofReal .standard) = .ok s ∧
      s.solveWith (Vec.ofReal ![1]).toArray (Vec.ofReal ![0]).toArray #[posInf]
        (.ofReal ![0] ![0]) 5 = .ok sol ∧
      sol.IsFinite ∧
      Plant.integrator.build 2 (Settings.ofReal .standard) (finite 0.02) = .ok c ∧
      c.action (Vec.ofReal ![5]).toArray rest.reference rest.limits.bounds
        (.ofReal (n := 2) (m := 3) 0 0) = .ok act ∧
      act.control.isFinite = true := by
  let _ := Precision.double
  intro rest
  obtain ⟨s, hs⟩ := Qp.Problem.exists_setup_clippedParabola
  obtain ⟨c, hc⟩ := Plant.exists_build_integrator two_pos
  obtain ⟨t, -, hBuilt⟩ := Plant.exists_isBuilt_of_build hc
  have hGrids := (Qp.Solver.ofGrids_ofReal 1 1 _).trans hs
  have hOrdered : ∀ i, (Vec.ofReal ![0]).get i ≤ #v[posInf].get i := by
    intro i
    rw [Fin.fin_one_eq_zero i]
    trivial
  have hSolve := s.solveWith_eq_ok
    (d := { q := Vec.ofReal ![1], lower := Vec.ofReal ![0], upper := #v[posInf] })
    (Vec.isFinite_ofReal _) (Vec.isFinite_ofReal ![0]) (Vec.isFinite_ofReal ![0]) hOrdered 4
  obtain ⟨u, v, -, hAction⟩ := hBuilt.exists_action ![5] rest 0 0
  obtain ⟨hAnswers, hControls⟩ := finite_answers_iff_hasRoom
  obtain ⟨lo, hi, hLo, hHi, hIff⟩ := hAnswers hGrids hSolve
  obtain ⟨b, hb, hControl⟩ := hControls hc hAction
  have hRoom : Vec.HasRoom lo hi := by
    rw [← Vector.toArray_inj.mp hLo, ← Vector.toArray_inj.mp hHi]
    intro i
    rw [Fin.fin_one_eq_zero i]
    exact ⟨trivial, trivial⟩
  obtain rfl : rest.limits.sides = b := Sides.bounds_injective hb
  exact ⟨s, _, c, _, hGrids, hSolve, (hIff.mpr hRoom).1, hc, hAction,
    (hControl rest.limits.box.hasRoom).1⟩

/-- Both bounds infinite on the same side pass the check and make the slack infinite. -/
theorem infinite_bounds_not_finite :
    letI := Precision.double
    let settings : Settings ℝ := .withParameters 1 1 1 1
    ∃ (s : Qp.Solver Extended 1 1) (sol : Qp.Solution Extended 1 1),
      Qp.Solver.ofGrids { rows := 1, cols := 1, entries := Mat.ofReal 1 }
        { rows := 1, cols := 1, entries := Mat.ofReal 1 } settings.ofReal = .ok s ∧
      s.solve (Vec.ofReal ![0]).toArray #[posInf] #[posInf] (.ofReal ![0] ![0]) = .ok sol ∧
      Scalar.isFinite (sol.w.get 0) = false := by
  let _ := Precision.double
  intro settings
  have hValid : settings.IsValid := by
    constructor <;> norm_num [settings, Settings.withParameters, Settings.standard]
  obtain ⟨s, hs⟩ := Qp.Problem.exists_setup (p := .clippedParabola) isSymm_one hValid
    (Qp.Problem.system_posDef Qp.Problem.clippedParabola_posSemidef hValid.rho_pos.le one_pos)
  have hOrdered : ∀ i, (#v[posInf] : Vec Extended 1).get i ≤ #v[posInf].get i := by
    intro i
    rw [Fin.fin_one_eq_zero i]
    trivial
  let d : Qp.Data Extended 1 1 := { q := Vec.ofReal ![0], lower := #v[posInf], upper := #v[posInf] }
  have hSolve := s.solveWith_eq_ok (d := d) (Vec.isFinite_ofReal _) (Vec.isFinite_ofReal ![0])
    (Vec.isFinite_ofReal ![0]) hOrdered 0
  have hIter : s.settings.maxIter = 1 := by
    obtain ⟨-, -, -, -, L, -, rfl⟩ := Qp.Solver.setup_eq_ok_iff.mp hs
    rfl
  have hTight : ¬ (d.lower.get 0 < posInf ∧ negInf < d.upper.get 0) := fun h => False.elim h.1
  have hSlack := Qp.Solver.answer_not_finite (s := s) (z := Vec.ofReal ![0]) (y := Vec.ofReal ![0])
    hOrdered hTight 0
  refine ⟨s, _, (Qp.Solver.ofGrids_ofReal 1 1 _).trans hs, ?_, hSlack⟩
  rw [Qp.Solver.solve, hIter]
  exact hSolve

end RecedingHorizon
