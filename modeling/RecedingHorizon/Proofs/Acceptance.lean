import Mathlib.Tactic.NormNum.OfScientific
import RecedingHorizon.Controller
import RecedingHorizon.Proofs.RealMatrix

/-!
# Accepted problems and calls

What the checks in front of a computation let through. A setup succeeds exactly
when every check passes and the factorization succeeds (`setup_eq_ok_iff`); a solve succeeds
exactly on data of the right lengths that pass the checks, and returns its answer
(`solveWith_eq_ok_iff`, `exists_data_of_solveWith_eq_ok`).
-/

namespace RecedingHorizon

@[simp] theorem ok_bind {ε α β : Type} (a : α) (f : α → Except ε β) :
    (Except.ok a >>= f) = f a := rfl

@[simp] theorem error_bind {ε α β : Type} (e : ε) (f : α → Except ε β) :
    (Except.error e >>= f) = .error e := rfl

theorem bind_eq_ok_iff {ε α β : Type} {x : Except ε α} {f : α → Except ε β} {b : β} :
    x >>= f = .ok b ↔ ∃ a, x = .ok a ∧ f a = .ok b := by
  cases x with
  | error e =>
    constructor
    · intro h
      cases h
    · rintro ⟨a, h, -⟩
      cases h
  | ok a =>
    constructor
    · intro h
      exact ⟨a, rfl, h⟩
    · rintro ⟨_, ha, h⟩
      cases ha
      exact h

theorem check_bind_eq_ok_iff {ε β : Type} {x : Except ε Unit} {f : Unit → Except ε β} {b : β} :
    x >>= f = .ok b ↔ x = .ok () ∧ f () = .ok b := by
  rw [bind_eq_ok_iff]
  constructor
  · rintro ⟨_, hx, hf⟩
    exact ⟨hx, hf⟩
  · rintro ⟨hx, hf⟩
    exact ⟨(), hx, hf⟩

theorem ite_ok_eq_ok_iff {ε : Type} {c : Prop} [Decidable c] {e : ε} :
    (if c then .ok () else .error e : Except ε Unit) = .ok () ↔ c := by
  split <;> simp_all

/-! ## Checks -/

namespace Check

variable {S : Type}

@[simp] theorem length_toArray (what : String) {n : ℕ} (v : Vec S n) :
    length what v.toArray n = .ok v := by
  unfold length
  rw [dif_pos v.size_toArray]

theorem square_toGrid (what : String) {n : ℕ} (M : Mat S n n) : square what M.toGrid = .ok M :=
  dif_pos rfl

theorem length_eq_ok_iff {what : String} {n : ℕ} {v : Array S} {u : Vec S n} :
    length what v n = .ok u ↔ v = u.toArray := by
  constructor
  · unfold length
    split
    · intro h
      cases h
      rfl
    · nofun
  · rintro rfl
    exact length_toArray what u

variable [Scalar S]

theorem finite_eq_ok_iff {what : String} {n : ℕ} {v : Vec S n} :
    finite what v = .ok () ↔ v.isFinite = true := by
  rw [finite, ite_ok_eq_ok_iff]

theorem finiteEntries_eq_ok_iff {what : String} {m n : ℕ} {M : Mat S m n} :
    finiteEntries what M = .ok () ↔ M.isFinite = true := by
  rw [finiteEntries, ite_ok_eq_ok_iff]

theorem symmetric_eq_ok_iff {what : String} {n : ℕ} {M : Mat S n n} :
    symmetric what M = .ok () ↔ M.isNearlySymmetric = true := by
  rw [symmetric, ite_ok_eq_ok_iff]

theorem positive_eq_ok_iff {name : String} {value : S} :
    positive name value = .ok () ↔ Scalar.isFinite value = true ∧ 0 < value := by
  rw [positive, ite_ok_eq_ok_iff, Bool.and_eq_true, decide_eq_true_eq]

theorem ordered_eq_ok_iff {what : String} {n : ℕ} {lo hi : Vec S n} :
    ordered what lo hi = .ok () ↔ ∀ i, lo.get i ≤ hi.get i := by
  have hFirst : Vec.firstDisorder lo hi = none ↔ ∀ i, lo.get i ≤ hi.get i := by
    simp [Vec.firstDisorder, List.find?_eq_none]
  unfold ordered
  split <;> simp_all

end Check

/-! ## Settings -/

namespace Settings

def ofReal (t : Settings ℝ) : Settings Extended where
  rho := .finite t.rho
  sigma := .finite t.sigma
  alpha := .finite t.alpha
  maxIter := t.maxIter
  primalTolerance := .finite t.primalTolerance
  dualTolerance := .finite t.dualTolerance

/-- Settings that the iteration is defined for. -/
structure IsValid (t : Settings ℝ) : Prop where
  rho_pos : 0 < t.rho
  sigma_nonneg : 0 ≤ t.sigma
  alpha_pos : 0 < t.alpha
  alpha_lt_two : t.alpha < 2
  maxIter_pos : 1 ≤ t.maxIter
  primalTolerance_nonneg : 0 ≤ t.primalTolerance
  dualTolerance_nonneg : 0 ≤ t.dualTolerance

theorem IsValid.relaxation_pos {t : Settings ℝ} (h : t.IsValid) :
    0 < t.alpha * (2 - t.alpha) * t.rho :=
  mul_pos (mul_pos h.alpha_pos (sub_pos.mpr h.alpha_lt_two)) h.rho_pos

theorem standard_isValid : (standard : Settings ℝ).IsValid := by
  constructor <;> norm_num [standard]

theorem validate_eq_ok_iff {S : Type} [Scalar S] {s : Settings S} :
    s.validate = .ok () ↔
      (Scalar.isFinite s.rho = true ∧ ¬ s.rho ≤ 0) ∧
      (Scalar.isFinite s.sigma = true ∧ ¬ s.sigma < 0) ∧
      (Scalar.isFinite s.alpha = true ∧ ¬ s.alpha ≤ 0 ∧ ¬ Scalar.two ≤ s.alpha) ∧ 1 ≤ s.maxIter ∧
      (Scalar.isFinite s.primalTolerance = true ∧ ¬ s.primalTolerance < 0) ∧
      (Scalar.isFinite s.dualTolerance = true ∧ ¬ s.dualTolerance < 0) := by
  by_cases hIter : s.maxIter < 1
  · simp [validate, check_bind_eq_ok_iff, hIter, Nat.not_le.mpr hIter]
  · simp only [validate, check_bind_eq_ok_iff, ite_ok_eq_ok_iff, hIter, if_false,
      Bool.and_eq_true, Bool.not_eq_true', decide_eq_false_iff_not, Nat.not_lt.mp hIter, true_and]

theorem validate_ofReal_eq_ok_iff [Precision] {t : Settings ℝ} :
    (ofReal t).validate = .ok () ↔ t.IsValid := by
  simp only [validate_eq_ok_iff, ofReal, Extended.zero_eq, Extended.two_eq,
    Extended.isFinite_finite, Extended.finite_le, Extended.finite_lt, not_le, not_lt, true_and]
  constructor
  · rintro ⟨hRho, hSigma, ⟨hAlpha, hAlpha'⟩, hIter, hPrimal, hDual⟩
    exact ⟨hRho, hSigma, hAlpha, hAlpha', hIter, hPrimal, hDual⟩
  · intro h
    exact ⟨h.rho_pos, h.sigma_nonneg, ⟨h.alpha_pos, h.alpha_lt_two⟩, h.maxIter_pos,
      h.primalTolerance_nonneg, h.dualTolerance_nonneg⟩

/-- Settings that pass are real. -/
theorem exists_ofReal [Precision] {s : Settings Extended} (h : s.validate = .ok ()) :
    ∃ t, s = ofReal t := by
  obtain ⟨⟨hRho, -⟩, ⟨hSigma, -⟩, ⟨hAlpha, -⟩, -, ⟨hPrimal, -⟩, hDual, -⟩ :=
    validate_eq_ok_iff.mp h
  obtain ⟨rho, hRho⟩ := Extended.isFinite_iff.mp hRho
  obtain ⟨sigma, hSigma⟩ := Extended.isFinite_iff.mp hSigma
  obtain ⟨alpha, hAlpha⟩ := Extended.isFinite_iff.mp hAlpha
  obtain ⟨primalTolerance, hPrimal⟩ := Extended.isFinite_iff.mp hPrimal
  obtain ⟨dualTolerance, hDual⟩ := Extended.isFinite_iff.mp hDual
  refine ⟨{ rho, sigma, alpha, maxIter := s.maxIter, primalTolerance, dualTolerance }, ?_⟩
  rw [ofReal, ← hRho, ← hSigma, ← hAlpha, ← hPrimal, ← hDual]

end Settings

/-! ## Programs -/

namespace Qp

variable {S : Type} {n m : ℕ} [Scalar S]

theorem factorize_eq_ok_iff {cost : Mat S n n} {constraints : Mat S m n} {rho sigma : S}
    {L : Mat S n n} :
    factorize cost constraints rho sigma = .ok L ↔
      (systemMatrix cost constraints rho sigma).cholesky = some L ∧
        L.hasSoundDiagonal = true := by
  unfold factorize
  cases (systemMatrix cost constraints rho sigma).cholesky with
  | none => simp
  | some K =>
    simp only [Option.some.injEq]
    split
    · rename_i hSound
      simp only [Except.ok.injEq]
      exact ⟨fun h => ⟨h, h ▸ hSound⟩, fun h => h.1⟩
    · rename_i hSound
      simp only [reduceCtorEq, false_iff, not_and]
      rintro rfl
      exact hSound

theorem Residuals.status_eq_converged_iff {r : Residuals S} {settings : Settings S} :
    r.status settings = .converged ↔
      r.primal ≤ settings.primalTolerance ∧ r.dual ≤ settings.dualTolerance := by
  unfold status
  split_ifs with h
  · exact iff_of_true rfl h
  · exact iff_of_false nofun h

namespace Solver

/-- A setup succeeds exactly when all checks pass and the system matrix has a sound
factor, and it keeps what it was given. -/
theorem setup_eq_ok_iff {cost : Mat S n n} {constraints : Mat S m n} {settings : Settings S}
    {s : Solver S n m} :
    setup cost constraints settings = .ok s ↔
      settings.validate = .ok () ∧ cost.isFinite = true ∧ constraints.isFinite = true ∧
        cost.isNearlySymmetric = true ∧
        ∃ L, factorize cost constraints settings.rho settings.sigma = .ok L ∧
          s = { cost, constraints, settings, factor := L } := by
  rw [setup, check_bind_eq_ok_iff, prepare, check_bind_eq_ok_iff, check_bind_eq_ok_iff,
    check_bind_eq_ok_iff, bind_eq_ok_iff, Check.finiteEntries_eq_ok_iff,
    Check.finiteEntries_eq_ok_iff, Check.symmetric_eq_ok_iff]
  simp only [pure, Except.pure, Except.ok.injEq, eq_comm (a := s)]

theorem ofGrids_toGrid (P : Mat S n n) (A : Mat S m n) (settings : Settings S) :
    ofGrids P.toGrid A.toGrid settings = setup P A settings := by
  rw [ofGrids, Check.square_toGrid, ok_bind, dif_pos rfl]
  rfl

/-- Matrices of matching shapes are prepared as they are. -/
theorem setup_of_ofGrids {cost constraints : Grid S} {settings : Settings S}
    {s : Solver S cost.rows constraints.rows} (h : ofGrids cost constraints settings = .ok s) :
    ∃ P A, setup P A settings = .ok s := by
  rw [ofGrids, check_bind_eq_ok_iff, bind_eq_ok_iff] at h
  obtain ⟨hValid, square, -, h⟩ := h
  split at h
  · exact ⟨_, _, check_bind_eq_ok_iff.mpr ⟨hValid, h⟩⟩
  · cases h

/-- A solve of data of the right lengths judges the entries, then the order of the bounds. -/
theorem solveWith_toArray (s : Solver S n m) (d : Data S n m) (z : Vec S n) (y : Vec S m) (k : ℕ) :
    s.solveWith d.q.toArray d.lower.toArray d.upper.toArray
        { z := z.toArray, y := y.toArray } (k + 1) = do
      Check.finite "q" d.q
      Check.finite "warm start z" z
      Check.finite "warm start y" y
      Check.ordered "l, u" d.lower d.upper
      return s.answer d z y k := by
  rw [solveWith]
  simp only [Check.length_toArray, ok_bind]

theorem solveWith_eq_ok_iff (s : Solver S n m) {d : Data S n m} {z : Vec S n} {y : Vec S m}
    {k : ℕ} {sol : Solution S n m} :
    s.solveWith d.q.toArray d.lower.toArray d.upper.toArray
        { z := z.toArray, y := y.toArray } (k + 1) = .ok sol ↔
      d.q.isFinite = true ∧ z.isFinite = true ∧ y.isFinite = true ∧
        (∀ i, d.lower.get i ≤ d.upper.get i) ∧ s.answer d z y k = sol := by
  rw [solveWith_toArray]
  simp only [check_bind_eq_ok_iff, Check.finite_eq_ok_iff, Check.ordered_eq_ok_iff, pure,
    Except.pure, Except.ok.injEq]

/-- Whether a solve succeeds is a matter of its data alone. -/
theorem exists_solveWith_eq_ok_iff (s : Solver S n m) (d : Data S n m) (z : Vec S n) (y : Vec S m)
    (k : ℕ) :
    (∃ sol, s.solveWith d.q.toArray d.lower.toArray d.upper.toArray
        { z := z.toArray, y := y.toArray } k = .ok sol) ↔
      1 ≤ k ∧ d.q.isFinite = true ∧ z.isFinite = true ∧ y.isFinite = true ∧
        ∀ i, d.lower.get i ≤ d.upper.get i := by
  cases k with
  | zero =>
    refine iff_of_false ?_ fun h => absurd h.1 (by omega)
    rintro ⟨_, h⟩
    cases h
  | succ k =>
    simp only [solveWith_eq_ok_iff, exists_and_left, exists_eq', and_true, Nat.le_add_left,
      true_and]

theorem solveWith_eq_ok (s : Solver S n m) {d : Data S n m} {z : Vec S n} {y : Vec S m}
    (hq : d.q.isFinite = true) (hz : z.isFinite = true) (hy : y.isFinite = true)
    (hOrdered : ∀ i, d.lower.get i ≤ d.upper.get i) (k : ℕ) :
    s.solveWith d.q.toArray d.lower.toArray d.upper.toArray
        { z := z.toArray, y := y.toArray } (k + 1) = .ok (s.answer d z y k) :=
  s.solveWith_eq_ok_iff.mpr ⟨hq, hz, hy, hOrdered, rfl⟩

/-- What a solve accepts has the right lengths and passes every check. -/
theorem exists_data_of_solveWith_eq_ok {s : Solver S n m} {q lower upper : Array S}
    {warm : WarmStart S} {k : ℕ} {sol : Solution S n m}
    (h : s.solveWith q lower upper warm k = .ok sol) :
    ∃ (d : Data S n m) (z : Vec S n) (y : Vec S m) (j : ℕ),
      (q = d.q.toArray ∧ lower = d.lower.toArray ∧ upper = d.upper.toArray ∧
        warm = { z := z.toArray, y := y.toArray } ∧ k = j + 1) ∧
        (d.q.isFinite = true ∧ z.isFinite = true ∧ y.isFinite = true) ∧
        (∀ i, d.lower.get i ≤ d.upper.get i) ∧ s.answer d z y j = sol := by
  obtain ⟨warmZ, warmY⟩ := warm
  cases k with
  | zero => cases h
  | succ j =>
    have hLengths := h
    simp only [solveWith, bind_eq_ok_iff, Check.length_eq_ok_iff] at hLengths
    obtain ⟨q, rfl, lower, rfl, upper, rfl, z, rfl, y, rfl, -⟩ := hLengths
    let d : Data S n m := { q, lower, upper }
    obtain ⟨hq, hz, hy, hOrdered, hAnswer⟩ := (s.solveWith_eq_ok_iff (d := d)).mp h
    exact ⟨d, z, y, j, ⟨rfl, rfl, rfl, rfl, rfl⟩, ⟨hq, hz, hy⟩, hOrdered, hAnswer⟩

theorem exists_of_solveWith_eq_ok {s : Solver S n m} {q lower upper : Array S}
    {warm : WarmStart S} {k : ℕ} {sol : Solution S n m}
    (h : s.solveWith q lower upper warm k = .ok sol) :
    ∃ (d : Data S n m) (z : Vec S n) (y : Vec S m) (j : ℕ),
      q = d.q.toArray ∧ lower = d.lower.toArray ∧ upper = d.upper.toArray ∧
        (d.q.isFinite = true ∧ z.isFinite = true ∧ y.isFinite = true) ∧
        (∀ i, d.lower.get i ≤ d.upper.get i) ∧ s.answer d z y j = sol := by
  obtain ⟨d, z, y, j, ⟨hq, hLower, hUpper, -⟩, hAccepted⟩ := exists_data_of_solveWith_eq_ok h
  exact ⟨d, z, y, j, hq, hLower, hUpper, hAccepted⟩

theorem ordered_of_solveWith_eq_ok {s : Solver S n m} {q : Array S} {lo hi : Vec S m}
    {warm : WarmStart S} {k : ℕ} {sol : Solution S n m}
    (h : s.solveWith q lo.toArray hi.toArray warm k = .ok sol) (i : Fin m) :
    lo.get i ≤ hi.get i := by
  obtain ⟨d, -, -, -, -, hLower, hUpper, -, hOrdered, -⟩ := exists_of_solveWith_eq_ok h
  rw [Vector.toArray_inj.mp hLower, Vector.toArray_inj.mp hUpper]
  exact hOrdered i

end Solver

end Qp

/-! ## Models -/

/-- A model is made of finite entries alone. -/
theorem LinearModel.isFinite_of_ofGrids {S : Type} [Scalar S] {A B : Grid S}
    {model : LinearModel S A.rows B.cols} (h : ofGrids A B = .ok model) :
    model.A.isFinite = true ∧ model.B.isFinite = true := by
  obtain ⟨rows, cols, entries⟩ := B
  rw [ofGrids, bind_eq_ok_iff] at h
  obtain ⟨square, -, h⟩ := h
  split at h
  · rename_i hRows
    rw [check_bind_eq_ok_iff, check_bind_eq_ok_iff, Check.finiteEntries_eq_ok_iff,
      Check.finiteEntries_eq_ok_iff] at h
    obtain ⟨hA, hB, hModel⟩ := h
    cases hModel
    dsimp only at hRows
    subst hRows
    exact ⟨hA, hB⟩
  · cases h

/-! ## Controllers -/

namespace Controller

variable {S : Type} {nx nu N : ℕ} [Scalar S]

/-- Building succeeds exactly when the horizon and the period are positive and the
condensed program is set up, and the controller keeps the parts of that program. -/
theorem build_eq_ok_iff {model : LinearModel S nx nu} {cost : StageCost S nx nu}
    {settings : Settings S} {period : S} {c : Controller S nx nu N} :
    build N model cost settings period = .ok c ↔
      (Scalar.isFinite period = true ∧ 0 < period) ∧
        ∃ (stages_pos : 0 < N) (qp : Qp.Solver S (N * nu) (N * nu + (N - 1) * nu)),
          Qp.Solver.setup
            (hessian ((Prediction.unroll model N).F.transposeMul (cost.Q.blockDiagonal N))
              (Prediction.unroll model N).F (cost.R.blockDiagonal N))
            (Mat.differences nu N).boxAbove settings = .ok qp ∧
          c = {
            stages_pos, period, model, qp
            prediction := Prediction.unroll model N
            stateWeight := cost.Q.blockDiagonal N
            inputWeight := cost.R.blockDiagonal N
            differences := Mat.differences nu N
            gradient := (Prediction.unroll model N).F.transposeMul (cost.Q.blockDiagonal N) } := by
  unfold build
  split
  · rename_i stages_pos
    rw [check_bind_eq_ok_iff, Check.positive_eq_ok_iff, dif_pos rfl, dif_pos rfl]
    simp only [assemble, bind_eq_ok_iff, pure, Except.pure, Except.ok.injEq, eq_comm (b := c)]
    refine and_congr_right fun _ => ⟨fun h => ⟨stages_pos, h⟩, ?_⟩
    rintro ⟨_, h⟩
    exact h
  · rename_i h
    simp only [reduceCtorEq, false_iff]
    rintro ⟨-, stages_pos, -⟩
    exact h stages_pos

/-- The weights of a controller have the sizes of its model. -/
theorem sizes_of_build {p r : ℕ} {model : LinearModel S nx nu} {cost : StageCost S p r}
    {settings : Settings S} {period : S} {c : Controller S nx nu N}
    (hc : build N model cost settings period = .ok c) : p = nx ∧ r = nu := by
  unfold build at hc
  split at hc
  · obtain ⟨-, hc⟩ := check_bind_eq_ok_iff.mp hc
    split at hc
    · rename_i hp
      split at hc
      · rename_i hr
        exact ⟨hp, hr⟩
      · cases hc
    · cases hc
  · cases hc

/-- The program of a controller is the result of a setup. -/
theorem exists_setup_of_build {p r : ℕ} {model : LinearModel S nx nu} {cost : StageCost S p r}
    {settings : Settings S} {period : S} {c : Controller S nx nu N}
    (hc : build N model cost settings period = .ok c) :
    ∃ P A, Qp.Solver.setup P A settings = .ok c.qp := by
  obtain ⟨rfl, rfl⟩ := sizes_of_build hc
  obtain ⟨-, _, qp, hqp, rfl⟩ := build_eq_ok_iff.mp hc
  exact ⟨_, _, hqp⟩

theorem linearCost_toArray (c : Controller S nx nu N) (x : Vec S nx) (states : Vec S (N * nx))
    (inputs : Vec S (N * nu)) :
    c.linearCost x.toArray { states := states.toArray, inputs := inputs.toArray } =
      .ok (c.tracking x states inputs) := by
  rw [linearCost]
  simp only [Check.length_toArray, ok_bind]
  rfl

/-- An action on data of the right lengths is a solve of the condensed program, followed by a
clamp of its first block. -/
theorem action_toArray (c : Controller S nx nu N) (x : Vec S nx) (states : Vec S (N * nx))
    (inputs lo hi : Vec S (N * nu)) (rateLo rateHi : Vec S ((N - 1) * nu)) (warm : WarmStart S) :
    c.action x.toArray { states := states.toArray, inputs := inputs.toArray }
        { inputMin := lo.toArray, inputMax := hi.toArray, rateMin := rateLo.toArray,
          rateMax := rateHi.toArray } warm = do
      let solution ← c.qp.solve (c.tracking x states inputs).toArray (lo ++ rateLo).toArray
        (hi ++ rateHi).toArray warm
      return {
        solution
        control := Vec.clamp (lo.block ⟨0, c.stages_pos⟩) (hi.block ⟨0, c.stages_pos⟩)
          (solution.z.block ⟨0, c.stages_pos⟩) } := by
  rw [action]
  simp only [Check.length_toArray, ok_bind, linearCost_toArray, InputBounds.lower,
    InputBounds.upper, Vector.toArray_append]

/-- An action that succeeds is a successful solve for the tracking cost and the stacked bounds,
clamped to the bounds of the first stage. -/
theorem exists_data_of_action_eq_ok {c : Controller S nx nu N} {x : Array S} {ref : Reference S}
    {bounds : InputBounds S} {warm : WarmStart S} {act : Action S nu N}
    (h : c.action x ref bounds warm = .ok act) :
    ∃ (x' : Vec S nx) (states : Vec S (N * nx)) (inputs lo hi : Vec S (N * nu))
        (rateLo rateHi : Vec S ((N - 1) * nu)),
      (x = x'.toArray ∧ ref = { states := states.toArray, inputs := inputs.toArray } ∧
        bounds = { inputMin := lo.toArray, inputMax := hi.toArray, rateMin := rateLo.toArray,
                   rateMax := rateHi.toArray }) ∧
        c.qp.solve (c.tracking x' states inputs).toArray (lo ++ rateLo).toArray
          (hi ++ rateHi).toArray warm = .ok act.solution ∧
        act.control = Vec.clamp (lo.block ⟨0, c.stages_pos⟩) (hi.block ⟨0, c.stages_pos⟩)
          (act.solution.z.block ⟨0, c.stages_pos⟩) := by
  obtain ⟨inputMin, inputMax, rateMin, rateMax⟩ := bounds
  obtain ⟨refStates, refInputs⟩ := ref
  simp only [action, linearCost, bind_eq_ok_iff, Check.length_eq_ok_iff, pure, Except.pure,
    Except.ok.injEq] at h
  obtain ⟨lo, rfl, hi, rfl, rateLo, rfl, rateHi, rfl, _, ⟨x', rfl, states, rfl, inputs, rfl, rfl⟩,
    sol, hSolve, rfl⟩ := h
  exact ⟨x', states, inputs, lo, hi, rateLo, rateHi, ⟨rfl, rfl, rfl⟩, hSolve, rfl⟩

theorem exists_of_action_eq_ok {c : Controller S nx nu N} {x : Array S} {ref : Reference S}
    {bounds : InputBounds S} {warm : WarmStart S} {act : Action S nu N}
    (h : c.action x ref bounds warm = .ok act) :
    ∃ (q : Vec S (N * nu)) (lo hi : Vec S (N * nu)) (rateLo rateHi : Vec S ((N - 1) * nu)),
      bounds = { inputMin := lo.toArray, inputMax := hi.toArray, rateMin := rateLo.toArray,
                 rateMax := rateHi.toArray } ∧
        c.qp.solve q.toArray (lo ++ rateLo).toArray (hi ++ rateHi).toArray warm =
          .ok act.solution ∧
        act.control = Vec.clamp (lo.block ⟨0, c.stages_pos⟩) (hi.block ⟨0, c.stages_pos⟩)
          (act.solution.z.block ⟨0, c.stages_pos⟩) := by
  obtain ⟨x', states, inputs, lo, hi, rateLo, rateHi, ⟨-, -, hBounds⟩, hSolve⟩ :=
    exists_data_of_action_eq_ok h
  exact ⟨_, lo, hi, rateLo, rateHi, hBounds, hSolve⟩

end Controller

end RecedingHorizon
