import RecedingHorizon.Proofs.Condensation

/-!
# What is not finite stays so

A sum is finite only when all its terms are, and a real multiple of a number only when the number
is, the zeroth multiple too. Since a product multiplies every entry, each row of a matrix product
is finite exactly when the whole vector is (`Mat.isFinite_get_mulVec`).

So the linear cost of a controller is finite exactly when state and reference are
(`IsBuilt.isFinite_get_tracking`), and a measurement that is no real vector never reaches the
iteration: the solve stops at the linear cost, whatever its entries are
(`Solver.solve_eq_of_not_finite`).

By the same rule the cost matrix of a controller shows every entry of its weights that is not
finite. A setup refuses such a matrix, so a controller with inputs has real weights, whether these
were judged before or not (`Plant.exists_of_build`).
-/

namespace RecedingHorizon

open Extended Matrix

namespace Extended

variable [Precision] {x y : Extended}

theorem isFinite_add : Scalar.isFinite (x + y) = (Scalar.isFinite x && Scalar.isFinite y) := by
  cases x <;> cases y <;> rfl

theorem isFinite_sub : Scalar.isFinite (x - y) = (Scalar.isFinite x && Scalar.isFinite y) := by
  cases x <;> cases y <;> rfl

theorem isFinite_unbounded (s : SignType) : Scalar.isFinite (unbounded s) = false := by
  cases s <;> rfl

theorem mul_eq_unbounded (h : ¬ (Scalar.isFinite x && Scalar.isFinite y) = true) :
    x * y = unbounded (sign x * sign y) := by
  cases x with
  | finite a =>
    cases y with
    | finite b => exact absurd rfl h
    | _ => rfl
  | _ => cases y <;> rfl

theorem isFinite_mul : Scalar.isFinite (x * y) = (Scalar.isFinite x && Scalar.isFinite y) := by
  by_cases h : (Scalar.isFinite x && Scalar.isFinite y) = true
  · rw [h]
    obtain ⟨hx, hy⟩ := (Bool.and_eq_true _ _).mp h
    obtain ⟨a, rfl⟩ := Extended.isFinite_iff.mp hx
    obtain ⟨b, rfl⟩ := Extended.isFinite_iff.mp hy
    rfl
  · rw [mul_eq_unbounded h, isFinite_unbounded, Bool.eq_false_of_not_eq_true h]

theorem isFinite_finite_mul (r : ℝ) (x : Extended) :
    Scalar.isFinite (finite r * x) = Scalar.isFinite x := by
  rw [isFinite_mul, isFinite_finite, Bool.true_and]

theorem isFinite_sum {n : ℕ} (f : Fin n → Extended) :
    Scalar.isFinite (Scalar.sum f) = true ↔ ∀ i, Scalar.isFinite (f i) = true := by
  unfold Scalar.sum
  induction n with
  | zero => exact ⟨fun _ i => i.elim0, fun _ => rfl⟩
  | succ n ih =>
    rw [Fin.foldl_succ_last, isFinite_add, Bool.and_eq_true, ih, Fin.forall_fin_succ']

end Extended

namespace Vec

variable [Precision] {n : ℕ}

theorem isFinite_sub (u v : Vec Extended n) : (u.sub v).isFinite = (u.isFinite && v.isFinite) := by
  rw [Bool.eq_iff_iff, Bool.and_eq_true]
  simp only [isFinite_iff, get_sub, Extended.isFinite_sub, Bool.and_eq_true, forall_and]

end Vec

namespace Mat

variable [Precision] {m n : ℕ}

/-- One entry that is not finite shows in every row. -/
theorem isFinite_get_mulVec (M : Matrix (Fin m) (Fin n) ℝ) (v : Vec Extended n) (i : Fin m) :
    Scalar.isFinite (((ofReal M).mulVec v).get i) = v.isFinite := by
  rw [Bool.eq_iff_iff, get_mulVec, isFinite_sum, Vec.isFinite_iff]
  simp only [entry_ofReal, isFinite_finite_mul]

theorem isFinite_mulVec (M : Matrix (Fin m) (Fin n) ℝ) (hm : 0 < m) (v : Vec Extended n) :
    ((ofReal M).mulVec v).isFinite = v.isFinite := by
  rw [Bool.eq_iff_iff, Vec.isFinite_iff]
  simp only [isFinite_get_mulVec]
  exact ⟨fun h => h ⟨0, hm⟩, fun h _ => h⟩

/-- An entry of a product is finite exactly when its row and its column are. -/
theorem isFinite_entry_mul {p : ℕ} (M : Mat Extended m n) (K : Mat Extended n p) (i : Fin m)
    (j : Fin p) :
    Scalar.isFinite ((M.mul K).entry i j) = true ↔
      (∀ k, Scalar.isFinite (M.entry i k) = true) ∧ ∀ k, Scalar.isFinite (K.entry k j) = true := by
  rw [entry_mul, isFinite_sum]
  simp only [isFinite_mul, Bool.and_eq_true, forall_and]

/-- Each entry of a matrix stands in its first copy along the diagonal. -/
theorem isFinite_of_blockDiagonal {N : ℕ} (hN : 0 < N) {M : Mat Extended m n}
    (h : (M.blockDiagonal N).isFinite = true) : M.isFinite = true := by
  rw [isFinite_iff] at h ⊢
  intro i j
  have hEntry := h (Stage.index ⟨0, hN⟩ i) (Stage.index ⟨0, hN⟩ j)
  rwa [entry_blockDiagonal, Stage.of_index, Stage.of_index, if_pos rfl, Stage.offset_index,
    Stage.offset_index] at hEntry

end Mat

/-! ## What a controller was built from -/

namespace Controller

variable [Precision] {nx nu N : ℕ}

/-- The cost matrix shows what is not finite in either of its parts. -/
theorem isFinite_of_hessian {gradient : Mat Extended (N * nu) (N * nx)}
    {F : Mat Extended (N * nx) (N * nu)} {inputWeight : Mat Extended (N * nu) (N * nu)}
    (h : (hessian gradient F inputWeight).isFinite = true) :
    gradient.isFinite = true ∧ inputWeight.isFinite = true := by
  have hEntry : ∀ i j, Scalar.isFinite ((gradient.mul F).entry i j) = true ∧
      Scalar.isFinite (inputWeight.entry i j) = true := by
    intro i j
    have hij := (Mat.isFinite_iff _).mp h i j
    rw [hessian, Mat.entry_scale, isFinite_mul, Mat.entry_add, isFinite_add, Mat.entry_add,
      isFinite_add] at hij
    simp only [Bool.and_eq_true] at hij
    exact hij.1.1
  refine ⟨(Mat.isFinite_iff _).mpr fun i k => ?_, (Mat.isFinite_iff _).mpr fun i j => (hEntry i j).2⟩
  exact ((Mat.isFinite_entry_mul gradient F i i).mp (hEntry i i).1).1 k

end Controller

/-- A controller with inputs that is built for a real model has real weights. -/
theorem Plant.exists_of_build [Precision] {nx nu p r N : ℕ} {model : LinearModel Extended nx nu}
    {cost : StageCost Extended p r} {settings : Settings Extended} {period : Extended}
    {c : Controller Extended nx nu N} (hA : model.A.isFinite = true) (hB : model.B.isFinite = true)
    (hInputs : 0 < nu) (hc : Controller.build N model cost settings period = .ok c) :
    ∃ a : Plant nx nu, a.build N settings period = .ok c := by
  obtain ⟨rfl, rfl⟩ := Controller.sizes_of_build hc
  obtain ⟨A, B⟩ := model
  obtain ⟨Q, R⟩ := cost
  obtain ⟨A, rfl⟩ := Mat.exists_ofReal hA
  obtain ⟨B, rfl⟩ := Mat.exists_ofReal hB
  obtain ⟨-, hN, qp, hqp, -⟩ := Controller.build_eq_ok_iff.mp hc
  obtain ⟨hGradient, hR⟩ := Controller.isFinite_of_hessian (Qp.Solver.setup_eq_ok_iff.mp hqp).2.1
  have hQ : (Q.blockDiagonal N).isFinite = true := by
    rw [Mat.isFinite_iff] at hGradient ⊢
    intro k j
    have hEntry := hGradient ⟨0, Nat.mul_pos hN hInputs⟩ j
    exact ((Mat.isFinite_entry_mul _ _ _ _).mp hEntry).2 k
  obtain ⟨Q, rfl⟩ := Mat.exists_ofReal (Mat.isFinite_of_blockDiagonal hN hQ)
  obtain ⟨R, rfl⟩ := Mat.exists_ofReal (Mat.isFinite_of_blockDiagonal hN hR)
  exact ⟨{ A, B, Q, R }, hc⟩

/-! ## Measurements -/

namespace Plant.IsBuilt

variable [Precision] {nx nu N : ℕ} {a : Plant nx nu} {c : Controller Extended nx nu N}
  {t : Settings ℝ}

/-- Each entry of the linear cost is finite exactly when state and reference are. -/
theorem isFinite_get_tracking (h : a.IsBuilt c t) (x : Vec Extended nx)
    (states : Vec Extended (N * nx)) (inputs : Vec Extended (N * nu)) (i : Fin (N * nu)) :
    Scalar.isFinite ((c.tracking x states inputs).get i) =
      ((x.isFinite && states.isFinite) && inputs.isFinite) := by
  have hImage : ((Mat.ofReal (a.E N)).mulVec x).isFinite = x.isFinite := by
    rcases Nat.eq_zero_or_pos nx with rfl | hnx
    · rw [Bool.eq_iff_iff, Vec.isFinite_iff, Vec.isFinite_iff]
      exact ⟨fun _ j => j.elim0, fun _ j => absurd j.isLt (by simp)⟩
    · exact Mat.isFinite_mulVec _ (Nat.mul_pos c.stages_pos hnx) x
  rw [Controller.tracking, h.prediction, h.gradient, h.inputWeight, Vec.get_sub,
    Extended.isFinite_sub, Mat.isFinite_get_mulVec, Mat.isFinite_get_mulVec, Vec.isFinite_sub,
    hImage]

/-- The linear cost of a controller with inputs is finite exactly when state and reference are. -/
theorem isFinite_tracking (h : a.IsBuilt c t) (hInputs : 0 < N * nu) (x : Vec Extended nx)
    (states : Vec Extended (N * nx)) (inputs : Vec Extended (N * nu)) :
    (c.tracking x states inputs).isFinite =
      ((x.isFinite && states.isFinite) && inputs.isFinite) := by
  rw [Bool.eq_iff_iff, Vec.isFinite_iff]
  simp only [h.isFinite_get_tracking]
  exact ⟨fun hAll => hAll ⟨0, hInputs⟩, fun hFinite _ => hFinite⟩

theorem tracking_not_finite (h : a.IsBuilt c t) (hInputs : 0 < N * nu) {x : Vec Extended nx}
    (hx : x.isFinite = false) (states : Vec Extended (N * nx)) (inputs : Vec Extended (N * nu)) :
    (c.tracking x states inputs).isFinite = false := by
  rw [h.isFinite_tracking hInputs, hx]
  rfl

/-- Each entry of the next state is finite exactly when state and input are. -/
theorem isFinite_get_next (h : a.IsBuilt c t) (x : Vec Extended nx) (u : Vec Extended nu)
    (i : Fin nx) :
    Scalar.isFinite ((c.model.next x u).get i) = (x.isFinite && u.isFinite) := by
  rw [LinearModel.next, h.model, Vec.get_add, Extended.isFinite_add]
  exact congrArg₂ (· && ·) (Mat.isFinite_get_mulVec a.A x i) (Mat.isFinite_get_mulVec a.B u i)

end Plant.IsBuilt

namespace Qp.Solver

variable [Precision] {n m : ℕ}

/-- Of a linear cost that is not finite a solve sees no more than that. -/
theorem solve_eq_of_not_finite (s : Solver Extended n m) {q q' : Vec Extended n}
    (hq : q.isFinite = false) (hq' : q'.isFinite = false) (lower upper : Array Extended)
    (warm : WarmStart Extended) :
    s.solve q.toArray lower upper warm = s.solve q'.toArray lower upper warm := by
  rw [solve, solve]
  cases s.settings.maxIter with
  | zero => rfl
  | succ k =>
    simp only [solveWith, Check.length_toArray, ok_bind, Check.finite, hq, hq', Bool.false_eq_true,
      if_false, error_bind]

end Qp.Solver

end RecedingHorizon
