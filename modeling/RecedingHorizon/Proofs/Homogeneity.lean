import RecedingHorizon.Proofs.Action
import RecedingHorizon.Proofs.Scaling

/-!
# Multiples of the data

A solve is homogeneous and odd. When the linear cost, the bounds and the start are multiplied by a
number that is not zero, the lower and the upper bounds changing places if it is negative, so are
point, slack and multipliers, and the residuals are multiplied by its absolute value
(`Solver.answer_isMultiple`). Only the clamp looks at the sign, and it treats both bounds alike as
long as they are in order (`Extended.clamp_neg`).

The linear cost of a controller is linear in state and reference, so an action is homogeneous and
odd too (`homogeneous_and_odd`).
-/

namespace RecedingHorizon

open Extended

/-! ## Signs -/

namespace Extended

variable [Precision] {x y lo hi : Extended} {r : ℝ}

protected theorem neg_lt_neg_iff : -x < -y ↔ y < x := by
  cases x with
  | finite a =>
    cases y with
    | finite b => rw [finite_neg, finite_neg, finite_lt, finite_lt, neg_lt_neg_iff]
    | _ => exact Iff.rfl
  | _ => cases y <;> exact Iff.rfl

protected theorem neg_le_neg_iff : -x ≤ -y ↔ y ≤ x := by
  cases x with
  | finite a =>
    cases y with
    | finite b => rw [finite_neg, finite_neg, finite_le, finite_le, neg_le_neg_iff]
    | _ => exact Iff.rfl
  | _ => cases y <;> exact Iff.rfl

theorem finite_mul_eq_neg (r : ℝ) (x : Extended) : finite r * x = -(finite (-r) * x) := by
  rw [neg_eq_finite_mul, finite_mul_finite_mul, neg_one_mul, neg_neg]

omit [Precision] in
/-- Nothing lies below the lower and above the upper of two bounds in order. -/
theorem not_lt_of_lt_lower (hOrdered : lo ≤ hi) (h : x < lo) : ¬ hi < x := by
  intro hHigh
  cases x with
  | finite b =>
    cases lo with
    | finite a =>
      cases hi with
      | finite c =>
        have hBelow : b < c := (finite_lt.mp h).trans_le (finite_le.mp hOrdered)
        exact hBelow.not_gt (finite_lt.mp hHigh)
      | posInf => exact hHigh
      | _ => exact hOrdered
    | posInf =>
      cases hi with
      | posInf => exact hHigh
      | _ => exact hOrdered
    | _ => exact h
  | negInf => cases hi <;> exact hHigh
  | _ => cases lo <;> exact h

theorem clamp_neg (hOrdered : lo ≤ hi) (x : Extended) :
    Scalar.clamp (-hi) (-lo) (-x) = -Scalar.clamp lo hi x := by
  unfold Scalar.clamp
  simp only [Extended.neg_lt_neg_iff]
  split_ifs with hHigh hLow hLow
  · exact absurd hHigh (not_lt_of_lt_lower hOrdered hLow)
  · rfl
  · rfl
  · rfl

theorem clamp_pos (hr : 0 < r) (lo hi x : Extended) :
    Scalar.clamp (finite r * lo) (finite r * hi) (finite r * x) =
      finite r * Scalar.clamp lo hi x := by
  unfold Scalar.clamp
  simp only [finite_mul_lt_iff hr]
  split_ifs <;> rfl

theorem abs_finite_mul (hr : r ≠ 0) (x : Extended) :
    Scalar.abs (finite r * x) = finite |r| * Scalar.abs x := by
  obtain ⟨a, rfl⟩ | ⟨s, rfl⟩ := finite_or_unbounded x
  · rw [finite_mul, abs_finite, abs_finite, finite_mul, abs_mul]
  · have hAbs : ∀ t : SignType, Scalar.abs (unbounded t) = unbounded (t * t) := by
      intro t
      cases t <;> rfl
    have hSign : SignType.sign r * s * (SignType.sign r * s) = s * s := by
      rw [mul_mul_mul_comm, ← sign_mul, sign_pos (mul_self_pos.mpr hr), one_mul]
    rw [finite_mul_unbounded, hAbs, hAbs, pos_mul_unbounded (abs_pos.mpr hr), hSign]

theorem peak_scale (hr : r ≠ 0) (l : List Extended) :
    Scalar.peak (l.map (finite r * ·)) = finite |r| * Scalar.peak l := by
  cases l with
  | nil => exact (congrArg finite (mul_zero |r|)).symm
  | cons x l =>
    induction l using List.reverseRecOn with
    | nil => exact abs_finite_mul hr x
    | append_singleton l y ih =>
      rw [List.map_cons] at ih
      rw [← List.cons_append, List.map_append, List.map_cons, List.map_singleton,
        Scalar.peak_concat, ih, Scalar.peak_concat]
      simp only [abs_finite_mul hr, finite_mul_le_iff (abs_pos.mpr hr)]
      split_ifs <;> rfl

end Extended

/-! ## Vectors between multiplied bounds -/

namespace Vec

variable [Precision] {n m N b : ℕ} {r : ℝ} {lo hi : Vec Extended n}

theorem maxAbs_scale (hr : r ≠ 0) (v : Vec Extended n) :
    (v.scale r).maxAbs = finite |r| * v.maxAbs := by
  rw [maxAbs, maxAbs, scale, Vector.toList_map, peak_scale hr]

theorem scale_append (u : Vec Extended n) (v : Vec Extended m) (r : ℝ) :
    u.scale r ++ v.scale r = scale (u ++ v) r :=
  Vector.map_append.symm

theorem scale_block (v : Vec Extended (N * b)) (r : ℝ) (k : Fin N) :
    (v.scale r).block k = (v.block k).scale r :=
  Vec.ext fun j => by simp only [get_block, get_scale]

/-- The lower bounds of the multiples of vectors between `lo` and `hi`. -/
noncomputable def lowerMultiple (r : ℝ) (lo hi : Vec Extended n) : Vec Extended n :=
  (if 0 < r then lo else hi).scale r

/-- The upper bounds of the multiples of vectors between `lo` and `hi`. -/
noncomputable def upperMultiple (r : ℝ) (lo hi : Vec Extended n) : Vec Extended n :=
  (if 0 < r then hi else lo).scale r

theorem multiples_ordered (hr : r ≠ 0) (hOrdered : ∀ i, lo.get i ≤ hi.get i) (i : Fin n) :
    (lowerMultiple r lo hi).get i ≤ (upperMultiple r lo hi).get i := by
  unfold lowerMultiple upperMultiple
  obtain hNeg | hPos := hr.lt_or_gt
  · rw [if_neg hNeg.not_gt, if_neg hNeg.not_gt, get_scale, get_scale, finite_mul_eq_neg,
      finite_mul_eq_neg r, Extended.neg_le_neg_iff, finite_mul_le_iff (neg_pos.mpr hNeg)]
    exact hOrdered i
  · rw [if_pos hPos, if_pos hPos, get_scale, get_scale, finite_mul_le_iff hPos]
    exact hOrdered i

theorem clamp_multiples (hr : r ≠ 0) (hOrdered : ∀ i, lo.get i ≤ hi.get i) (v : Vec Extended n) :
    clamp (lowerMultiple r lo hi) (upperMultiple r lo hi) (v.scale r) =
      (clamp lo hi v).scale r := by
  unfold lowerMultiple upperMultiple
  apply Vec.ext
  intro i
  obtain hNeg | hPos := hr.lt_or_gt
  · have hOpposite : finite (-r) * lo.get i ≤ finite (-r) * hi.get i :=
      (finite_mul_le_iff (neg_pos.mpr hNeg)).mpr (hOrdered i)
    rw [if_neg hNeg.not_gt, if_neg hNeg.not_gt]
    simp only [get_clamp, get_scale, finite_mul_eq_neg r]
    rw [clamp_neg hOpposite, clamp_pos (neg_pos.mpr hNeg)]
  · rw [if_pos hPos, if_pos hPos]
    simp only [get_clamp, get_scale, clamp_pos hPos]

theorem lowerMultiple_append (r : ℝ) (lo hi : Vec Extended n) (lo' hi' : Vec Extended m) :
    lowerMultiple r lo hi ++ lowerMultiple r lo' hi' = lowerMultiple r (lo ++ lo') (hi ++ hi') := by
  unfold lowerMultiple
  split_ifs <;> exact scale_append _ _ r

theorem upperMultiple_append (r : ℝ) (lo hi : Vec Extended n) (lo' hi' : Vec Extended m) :
    upperMultiple r lo hi ++ upperMultiple r lo' hi' = upperMultiple r (lo ++ lo') (hi ++ hi') := by
  unfold upperMultiple
  split_ifs <;> exact scale_append _ _ r

theorem lowerMultiple_block (r : ℝ) (lo hi : Vec Extended (N * b)) (k : Fin N) :
    (lowerMultiple r lo hi).block k = lowerMultiple r (lo.block k) (hi.block k) := by
  unfold lowerMultiple
  split_ifs <;> exact scale_block _ r k

theorem upperMultiple_block (r : ℝ) (lo hi : Vec Extended (N * b)) (k : Fin N) :
    (upperMultiple r lo hi).block k = upperMultiple r (lo.block k) (hi.block k) := by
  unfold upperMultiple
  split_ifs <;> exact scale_block _ r k

end Vec

/-! ## Solves -/

theorem Mat.choleskySolve_multiple [Precision] {n : ℕ} (L : Mat Extended n n) (v : Vec Extended n)
    (r : ℝ) : L.choleskySolve (v.scale r) = (L.choleskySolve v).scale r := by
  have hOne : L.scale (finite 1) = L := by
    apply Mat.ext
    intro i j
    rw [entry_scale, Extended.mul_comm, one_mul_eq]
  have hSolve := choleskySolve_scale one_pos r L v
  rwa [hOne, one_mul, one_mul] at hSolve

namespace Qp

variable [Precision] {n m : ℕ} {r : ℝ}

noncomputable def Data.multiple (d : Data Extended n m) (r : ℝ) : Data Extended n m where
  q := d.q.scale r
  lower := Vec.lowerMultiple r d.lower d.upper
  upper := Vec.upperMultiple r d.lower d.upper

noncomputable def Iterate.multiple (it : Iterate Extended n m) (r : ℝ) : Iterate Extended n m where
  x := it.x.scale r
  w := it.w.scale r
  y := it.y.scale r

/-- Point, slack and multipliers are `r` times those of another answer, the residuals `|r|` times
its residuals. -/
structure Solution.IsMultiple (r : ℝ) (sol' sol : Solution Extended n m) : Prop where
  z : sol'.z = sol.z.scale r
  y : sol'.y = sol.y.scale r
  w : sol'.w = sol.w.scale r
  primal : sol'.residuals.primal = finite |r| * sol.residuals.primal
  dual : sol'.residuals.dual = finite |r| * sol.residuals.dual

namespace Solver

variable (s : Solver Extended n m) {d : Data Extended n m}

theorem start_multiple (hr : r ≠ 0) (hOrdered : ∀ i, d.lower.get i ≤ d.upper.get i)
    (z : Vec Extended n) (y : Vec Extended m) :
    s.start (d.multiple r) (z.scale r) (y.scale r) = (s.start d z y).multiple r := by
  rw [start, Mat.mulVec_scale]
  simp only [Data.multiple, Vec.clamp_multiples hr hOrdered]
  rfl

theorem rightSide_multiple (r : ℝ) (it : Iterate Extended n m) :
    s.rightSide (d.multiple r) (it.multiple r) = (s.rightSide d it).scale r := by
  have hPull : (Vec.ofFn fun i => s.settings.rho * (it.multiple r).w.get i -
      (it.multiple r).y.get i) =
        Vec.scale (Vec.ofFn fun i => s.settings.rho * it.w.get i - it.y.get i) r := by
    apply Vec.ext
    intro i
    simp only [Iterate.multiple, Vec.get_ofFn, Vec.get_scale, mul_finite_mul, finite_mul_sub]
  apply Vec.ext
  intro j
  simp only [rightSide, hPull, Mat.transposeMulVec_scale]
  simp only [Data.multiple, Iterate.multiple, Vec.get_ofFn, Vec.get_scale, mul_finite_mul,
    finite_mul_sub, finite_mul_add]

theorem relax_multiple (r : ℝ) (x : Vec Extended n) (w : Vec Extended m) :
    s.relax (x.scale r) (w.scale r) = (s.relax x w).scale r := by
  apply Vec.ext
  intro i
  simp only [relax, Mat.mulVec_scale, Vec.get_ofFn, Vec.get_scale, mul_finite_mul, finite_mul_add]

theorem step_multiple (hr : r ≠ 0) (hOrdered : ∀ i, d.lower.get i ≤ d.upper.get i)
    (it : Iterate Extended n m) :
    s.step (d.multiple r) (it.multiple r) = (s.step d it).multiple r := by
  have hx : s.factor.choleskySolve (s.rightSide (d.multiple r) (it.multiple r)) =
      (s.factor.choleskySolve (s.rightSide d it)).scale r := by
    rw [rightSide_multiple, Mat.choleskySolve_multiple]
  have hRelax := s.relax_multiple r (s.factor.choleskySolve (s.rightSide d it)) it.w
  have hShifted : ∀ v : Vec Extended m,
      (Vec.ofFn fun i => (v.scale r).get i + (it.y.scale r).get i / s.settings.rho) =
        Vec.scale (Vec.ofFn fun i => v.get i + it.y.get i / s.settings.rho) r := by
    intro v
    apply Vec.ext
    intro i
    simp only [Vec.get_ofFn, Vec.get_scale, finite_mul_div, finite_mul_add]
  have hMove : ∀ v w : Vec Extended m,
      (Vec.ofFn fun i => (it.y.scale r).get i +
        s.settings.rho * ((v.scale r).get i - (w.scale r).get i)) =
      Vec.scale (Vec.ofFn fun i => it.y.get i + s.settings.rho * (v.get i - w.get i)) r := by
    intro v w
    apply Vec.ext
    intro i
    simp only [Vec.get_ofFn, Vec.get_scale, ← finite_mul_sub, mul_finite_mul, finite_mul_add]
  rw [step, hx]
  simp only [Data.multiple, Iterate.multiple, step, hRelax, hShifted,
    Vec.clamp_multiples hr hOrdered, hMove]

theorem run_multiple (hr : r ≠ 0) (hOrdered : ∀ i, d.lower.get i ≤ d.upper.get i) (k : ℕ)
    (it : Iterate Extended n m) :
    s.run (d.multiple r) k (it.multiple r) = (s.run d k it).multiple r := by
  induction k with
  | zero => rfl
  | succ k ih =>
    change s.step _ (s.run (d.multiple r) k (it.multiple r)) = _
    rw [ih, s.step_multiple hr hOrdered]
    rfl

theorem answer_isMultiple (hr : r ≠ 0) (hOrdered : ∀ i, d.lower.get i ≤ d.upper.get i)
    (z : Vec Extended n) (y : Vec Extended m) (k : ℕ) :
    (s.answer (d.multiple r) (z.scale r) (y.scale r) k).IsMultiple r (s.answer d z y k) := by
  have hBefore : s.run (d.multiple r) k (s.start (d.multiple r) (z.scale r) (y.scale r)) =
      (s.run d k (s.start d z y)).multiple r := by
    rw [s.start_multiple hr hOrdered, s.run_multiple hr hOrdered]
  simp only [answer, hBefore, s.step_multiple hr hOrdered]
  exact {
    z := rfl
    y := rfl
    w := rfl
    primal := by
      simp only [residuals, Iterate.multiple, Mat.mulVec_scale, Vec.scale_sub, Vec.maxAbs_scale hr]
    dual := by
      simp only [residuals, Iterate.multiple, Vec.scale_sub, Mat.transposeMulVec_scale,
        Vec.maxAbs_scale hr, mul_finite_mul] }

end Solver

end Qp

/-! ## Calls -/

section Calls

variable [Precision]

noncomputable def WarmStart.multiple (warm : WarmStart Extended) (r : ℝ) : WarmStart Extended where
  z := warm.z.map (finite r * ·)
  y := warm.y.map (finite r * ·)

noncomputable def Reference.multiple (ref : Reference Extended) (r : ℝ) : Reference Extended where
  states := ref.states.map (finite r * ·)
  inputs := ref.inputs.map (finite r * ·)

/-- A negative number makes lower bounds of the upper ones. -/
noncomputable def InputBounds.multiple (b : InputBounds Extended) (r : ℝ) :
    InputBounds Extended where
  inputMin := (if 0 < r then b.inputMin else b.inputMax).map (finite r * ·)
  inputMax := (if 0 < r then b.inputMax else b.inputMin).map (finite r * ·)
  rateMin := (if 0 < r then b.rateMin else b.rateMax).map (finite r * ·)
  rateMax := (if 0 < r then b.rateMax else b.rateMin).map (finite r * ·)

theorem Vec.lowerMultiple_toArray {n : ℕ} (r : ℝ) (lo hi : Vec Extended n) :
    (lowerMultiple r lo hi).toArray =
      (if 0 < r then lo.toArray else hi.toArray).map (finite r * ·) := by
  unfold lowerMultiple
  split_ifs <;> rfl

theorem Vec.upperMultiple_toArray {n : ℕ} (r : ℝ) (lo hi : Vec Extended n) :
    (upperMultiple r lo hi).toArray =
      (if 0 < r then hi.toArray else lo.toArray).map (finite r * ·) := by
  unfold upperMultiple
  split_ifs <;> rfl

theorem InputBounds.multiple_toArray {n m : ℕ} (r : ℝ) (lo hi : Vec Extended n)
    (rateLo rateHi : Vec Extended m) :
    ({ inputMin := lo.toArray, inputMax := hi.toArray, rateMin := rateLo.toArray,
       rateMax := rateHi.toArray } : InputBounds Extended).multiple r =
      { inputMin := (Vec.lowerMultiple r lo hi).toArray
        inputMax := (Vec.upperMultiple r lo hi).toArray
        rateMin := (Vec.lowerMultiple r rateLo rateHi).toArray
        rateMax := (Vec.upperMultiple r rateLo rateHi).toArray } := by
  simp only [multiple, Vec.lowerMultiple_toArray, Vec.upperMultiple_toArray]

variable {r : ℝ}

theorem Qp.Solver.solveWith_multiple {n m : ℕ} {s : Solver Extended n m} (hr : r ≠ 0)
    {q lower upper : Array Extended} {warm : WarmStart Extended} {k : ℕ}
    {sol : Solution Extended n m} (h : s.solveWith q lower upper warm k = .ok sol) :
    ∃ sol', s.solveWith (q.map (finite r * ·)) ((if 0 < r then lower else upper).map (finite r * ·))
        ((if 0 < r then upper else lower).map (finite r * ·)) (warm.multiple r) k = .ok sol' ∧
      sol'.IsMultiple r sol := by
  obtain ⟨d, z, y, j, ⟨rfl, rfl, rfl, rfl, rfl⟩, ⟨hq, hz, hy⟩, hOrdered, rfl⟩ :=
    exists_data_of_solveWith_eq_ok h
  refine ⟨_, ?_, s.answer_isMultiple hr hOrdered z y j⟩
  rw [← Vec.lowerMultiple_toArray, ← Vec.upperMultiple_toArray]
  exact s.solveWith_eq_ok (d := d.multiple r) ((Vec.isFinite_scale _ r).trans hq)
    ((Vec.isFinite_scale _ r).trans hz) ((Vec.isFinite_scale _ r).trans hy)
    (Vec.multiples_ordered hr hOrdered) j

namespace Controller

variable {nx nu N : ℕ} (c : Controller Extended nx nu N)

theorem tracking_multiple (r : ℝ) (x : Vec Extended nx) (states : Vec Extended (N * nx))
    (inputs : Vec Extended (N * nu)) :
    c.tracking (x.scale r) (states.scale r) (inputs.scale r) =
      (c.tracking x states inputs).scale r := by
  simp only [tracking, Mat.mulVec_scale, Vec.scale_sub]

end Controller

end Calls

/-- **Multiples of the data.** A solve that succeeds also succeeds with linear cost, bounds and
start multiplied by a number that is not zero, the bounds changing places if it is negative. Point,
slack and multipliers are multiplied by the number and the residuals by its absolute value. So are
answer and control of an action whose state, reference, bounds and start are multiplied. -/
theorem homogeneous_and_odd [Precision] {r : ℝ} (hr : r ≠ 0) :
    (∀ {n m : ℕ} {s : Qp.Solver Extended n m} {q lower upper : Array Extended}
      {warm : WarmStart Extended} {k : ℕ} {sol : Qp.Solution Extended n m},
      s.solveWith q lower upper warm k = .ok sol →
      ∃ sol', s.solveWith (q.map (finite r * ·))
          ((if 0 < r then lower else upper).map (finite r * ·))
          ((if 0 < r then upper else lower).map (finite r * ·)) (warm.multiple r) k = .ok sol' ∧
        sol'.IsMultiple r sol) ∧
    (∀ {nx nu N : ℕ} {c : Controller Extended nx nu N} {x : Array Extended}
      {ref : Reference Extended} {bounds : InputBounds Extended} {warm : WarmStart Extended}
      {act : Action Extended nu N}, c.action x ref bounds warm = .ok act →
      ∃ act', c.action (x.map (finite r * ·)) (ref.multiple r) (bounds.multiple r)
          (warm.multiple r) = .ok act' ∧
        act'.solution.IsMultiple r act.solution ∧ act'.control = act.control.scale r) := by
  refine ⟨fun h => Qp.Solver.solveWith_multiple hr h, ?_⟩
  intro nx nu N c x ref bounds warm act h
  obtain ⟨x, states, inputs, lo, hi, rateLo, rateHi, ⟨rfl, rfl, rfl⟩, hSolve, hControl⟩ :=
    Controller.exists_data_of_action_eq_ok h
  obtain ⟨sol, hSol, hMultiple⟩ := Qp.Solver.solveWith_multiple hr hSolve
  have hStage : ∀ j, (lo.block ⟨0, c.stages_pos⟩).get j ≤ (hi.block ⟨0, c.stages_pos⟩).get j := by
    intro j
    have hRow := Qp.Solver.ordered_of_solveWith_eq_ok hSolve
      (Fin.castAdd _ (Stage.index ⟨0, c.stages_pos⟩ j))
    rwa [Vec.get_append_castAdd, Vec.get_append_castAdd, ← Vec.get_block, ← Vec.get_block] at hRow
  have hAction := c.action_toArray (x.scale r) (states.scale r) (inputs.scale r)
    (Vec.lowerMultiple r lo hi) (Vec.upperMultiple r lo hi) (Vec.lowerMultiple r rateLo rateHi)
    (Vec.upperMultiple r rateLo rateHi) (warm.multiple r)
  rw [Controller.tracking_multiple, Vec.lowerMultiple_append, Vec.upperMultiple_append,
    Vec.lowerMultiple_toArray r (lo ++ rateLo),
    Vec.upperMultiple_toArray r (lo ++ rateLo)] at hAction
  rw [InputBounds.multiple_toArray]
  refine ⟨_, hAction.trans (congrArg (· >>= _) hSol), hMultiple, ?_⟩
  rw [hControl, hMultiple.z, Vec.lowerMultiple_block, Vec.upperMultiple_block, Vec.scale_block,
    Vec.clamp_multiples hr hStage]

/-- Twice the problem and the call, the other way round. -/
theorem doubled_and_reversed :
    letI := Precision.double
    let p : Qp.Problem 1 1 := .clippedParabola
    let rest : Task 1 1 2 := { states := 0, inputs := 0, limits := .unit 1 2 }
    ∃ (s : Qp.Solver Extended 1 1) (sol sol' : Qp.Solution Extended 1 1)
      (c : Controller Extended 1 1 2) (act act' : Action Extended 1 2),
      p.setup .standard = .ok s ∧ s.solveProblem p ![0] ![1] 3 = .ok sol ∧
      s.solveWith ((Vec.ofReal p.q).toArray.map (finite (-2) * ·))
        (p.box.upper.toArray.map (finite (-2) * ·)) (p.box.lower.toArray.map (finite (-2) * ·))
        (WarmStart.multiple (.ofReal ![0] ![1]) (-2)) 3 = .ok sol' ∧
      sol'.IsMultiple (-2) sol ∧
      Plant.integrator.build 2 (Settings.ofReal .standard) (finite 0.02) = .ok c ∧
      c.action (Vec.ofReal ![5]).toArray rest.reference rest.limits.bounds
        (.ofReal (n := 2) (m := 3) 0 0) = .ok act ∧
      c.action ((Vec.ofReal ![5]).toArray.map (finite (-2) * ·)) (rest.reference.multiple (-2))
        (rest.limits.bounds.multiple (-2))
        (WarmStart.multiple (.ofReal (n := 2) (m := 3) 0 0) (-2)) = .ok act' ∧
      act'.control = act.control.scale (-2) := by
  let _ := Precision.double
  intro p rest
  have hOpposite : ¬ (0 : ℝ) < -2 := by norm_num
  obtain ⟨hSolves, hActions⟩ := homogeneous_and_odd (r := -2) (by norm_num)
  obtain ⟨s, hs⟩ := Qp.Problem.exists_setup_clippedParabola
  obtain ⟨c, hc⟩ := Plant.exists_build_integrator two_pos
  obtain ⟨t, -, hBuilt⟩ := Plant.exists_isBuilt_of_build hc
  have hSolve := s.solveProblem_eq_ok p ![0] ![1] 2
  obtain ⟨u, v, -, hAction⟩ := hBuilt.exists_action ![5] rest 0 0
  obtain ⟨sol', hSolve', hMultiple⟩ := hSolves hSolve
  obtain ⟨act', hAction', -, hControl⟩ := hActions hAction
  rw [if_neg hOpposite, if_neg hOpposite] at hSolve'
  exact ⟨s, _, sol', c, _, act', hs, hSolve, hSolve', hMultiple, hc, hAction, hAction', hControl⟩

end RecedingHorizon
