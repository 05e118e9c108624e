import RecedingHorizon.Proofs.Problem

/-!
# The splitting iteration over the reals

On a factored solver the iteration is the recurrence

* `x⁺ = M⁻¹ (σ x - q + Aᵀ (ρ w - y))` with `M = P + ρ AᵀA + σ I`,
* `r = α A x⁺ + (1 - α) w`,
* `w⁺`, the projection of `r + y / ρ` onto the box,
* `y⁺ = y + ρ (r - w⁺)`,

on real vectors (`Solver.IsFactored.step_ofReal`, `iterate_ofReal`, `solveProblem_eq_ok`). What the
theory uses of a step is `IsStep`: an equation for `x⁺`, one for `ρ w⁺ + y⁺`, and that
`y⁺` is a normal of the box at `w⁺`.
-/

namespace RecedingHorizon

namespace Qp

open Extended Matrix

@[ext] structure Point (n m : ℕ) where
  x : Fin n → ℝ
  w : Fin m → ℝ
  y : Fin m → ℝ

def Iterate.ofReal {n m : ℕ} (u : Point n m) : Iterate Extended n m where
  x := Vec.ofReal u.x
  w := Vec.ofReal u.w
  y := Vec.ofReal u.y

def Residuals.ofReal (r : Residuals ℝ) : Residuals Extended where
  primal := finite r.primal
  dual := finite r.dual

namespace Problem

variable {n m : ℕ} (p : Problem n m) (t : Settings ℝ)

noncomputable def start (z : Fin n → ℝ) (y : Fin m → ℝ) : Point n m where
  x := z
  w := p.box.project (p.A *ᵥ z)
  y := y

/-- The iterate with the image of its point for a slack. -/
def rest (z : Fin n → ℝ) (y : Fin m → ℝ) : Point n m where
  x := z
  w := p.A *ᵥ z
  y := y

@[simp] theorem rest_x (z : Fin n → ℝ) (y : Fin m → ℝ) : (p.rest z y).x = z := rfl

@[simp] theorem rest_w (z : Fin n → ℝ) (y : Fin m → ℝ) : (p.rest z y).w = p.A *ᵥ z := rfl

@[simp] theorem rest_y (z : Fin n → ℝ) (y : Fin m → ℝ) : (p.rest z y).y = y := rfl

noncomputable def step (u : Point n m) : Point n m :=
  let x := (p.system t)⁻¹ *ᵥ (t.sigma • u.x - p.q + p.Aᵀ *ᵥ (t.rho • u.w - u.y))
  let r := t.alpha • (p.A *ᵥ x) + (1 - t.alpha) • u.w
  let w := p.box.project (r + t.rho⁻¹ • u.y)
  { x, w, y := u.y + t.rho • (r - w) }

noncomputable def run (k : ℕ) (u : Point n m) : Point n m := Nat.repeat (p.step t) k u

@[simp] theorem run_zero (u : Point n m) : p.run t 0 u = u := rfl

theorem run_succ (k : ℕ) (u : Point n m) : p.run t (k + 1) u = p.step t (p.run t k u) := rfl

/-- The residuals of the step from `u` to `v`. -/
noncomputable def residuals (u v : Point n m) : Residuals ℝ where
  primal := ‖p.A *ᵥ v.x - v.w‖
  dual := t.rho * ‖p.Aᵀ *ᵥ (v.w - u.w)‖

/-- What a step from `u` to `v` does. -/
structure IsStep (u v : Point n m) : Prop where
  stationary : p.P *ᵥ v.x + p.q + p.Aᵀ *ᵥ (u.y + t.rho • (p.A *ᵥ v.x - u.w)) =
    t.sigma • (u.x - v.x)
  shift : t.rho • v.w + v.y = t.rho • u.w + u.y + (t.rho * t.alpha) • (p.A *ᵥ v.x - u.w)
  normal : p.box.IsNormal v.w v.y

variable {p t}

theorem step_x_eq_iff (hUnit : IsUnit (p.system t).det) {u : Point n m} {x : Fin n → ℝ} :
    (p.step t u).x = x ↔
      p.P *ᵥ x + p.q + p.Aᵀ *ᵥ (u.y + t.rho • (p.A *ᵥ x - u.w)) = t.sigma • (u.x - x) := by
  have hSystem : p.system t *ᵥ x =
      p.P *ᵥ x + t.rho • (p.Aᵀ *ᵥ (p.A *ᵥ x)) + t.sigma • x := by
    rw [system, add_mulVec, add_mulVec, smul_mulVec, smul_mulVec, one_mulVec, mulVec_mulVec]
  have hSolve : (p.step t u).x = x ↔
      t.sigma • u.x - p.q + p.Aᵀ *ᵥ (t.rho • u.w - u.y) = p.system t *ᵥ x := by
    constructor
    · rintro rfl
      rw [step, mulVec_mulVec, mul_nonsing_inv _ hUnit, one_mulVec]
    · intro h
      rw [step, h, mulVec_mulVec, nonsing_inv_mul _ hUnit, one_mulVec]
  rw [hSolve, hSystem, ← sub_eq_zero, ← sub_eq_zero (b := t.sigma • (u.x - x))]
  simp only [mulVec_sub, mulVec_add, mulVec_smul, smul_sub]
  constructor
  · intro h
    rw [← neg_eq_zero, ← h]
    abel
  · intro h
    rw [← neg_eq_zero, ← h]
    abel

theorem step_isStep (hUnit : IsUnit (p.system t).det) (hRho : 0 < t.rho) (u : Point n m) :
    p.IsStep t u (p.step t u) := by
  have hProject : p.box.IsNormal (p.step t u).w (t.rho⁻¹ • (p.step t u).y) := by
    have h := Box.project_eq_iff.mp (rfl : _ = (p.step t u).w)
    convert h using 1
    simp only [step, smul_add, smul_smul, inv_mul_cancel₀ hRho.ne', one_smul]
    abel
  refine ⟨(step_x_eq_iff hUnit).mp rfl, ?_, (Box.isNormal_smul_iff (inv_pos.mpr hRho)).mp hProject⟩
  simp only [step, sub_smul, one_smul, smul_sub, smul_add, mul_smul]
  abel

end Problem

/-! ## The solver runs the recurrence -/

/-- The iterate after `k` iterations on a problem, from the point `z` and the multipliers `y`. -/
noncomputable def Solver.iterate [Precision] {n m : ℕ} (s : Solver Extended n m) (p : Problem n m)
    (z : Fin n → ℝ) (y : Fin m → ℝ) (k : ℕ) : Iterate Extended n m :=
  s.run p.data k (s.start p.data (Vec.ofReal z) (Vec.ofReal y))

namespace Solver.IsFactored

variable {n m : ℕ} {p : Problem n m} {t : Settings ℝ} {s : Solver Extended n m}

theorem isUnit_det (h : s.IsFactored p t) : IsUnit (p.system t).det :=
  h.factor.elim fun _ hR => hR.2.isUnit_det

theorem run_isStep (h : s.IsFactored p t) (k : ℕ) (u : Point n m) :
    p.IsStep t (p.run t k u) (p.run t (k + 1) u) :=
  Problem.step_isStep h.isUnit_det h.valid.rho_pos _

variable [Precision]

theorem start_ofReal (h : s.IsFactored p t) (z : Fin n → ℝ) (y : Fin m → ℝ) :
    s.start p.data (Vec.ofReal z) (Vec.ofReal y) = .ofReal (p.start z y) := by
  rw [start, h.constraints, Mat.mulVec_ofReal]
  simp only [Problem.data, Box.clamp_ofReal]
  rfl

theorem rightSide_ofReal (h : s.IsFactored p t) (u : Point n m) :
    s.rightSide p.data (.ofReal u) =
      Vec.ofReal (t.sigma • u.x - p.q + p.Aᵀ *ᵥ (t.rho • u.w - u.y)) := by
  have hPull : (Vec.ofFn fun i => s.settings.rho * (Vec.ofReal u.w).get i - (Vec.ofReal u.y).get i) =
      Vec.ofReal (t.rho • u.w - u.y) := by
    apply Vec.ext
    intro i
    simp [h.settings, Settings.ofReal]
  simp only [rightSide, Iterate.ofReal, hPull, h.constraints, Mat.transposeMulVec_ofReal]
  apply Vec.ext
  intro j
  simp [h.settings, Settings.ofReal, Problem.data]

theorem relax_ofReal (h : s.IsFactored p t) (x : Fin n → ℝ) (w : Fin m → ℝ) :
    s.relax (Vec.ofReal x) (Vec.ofReal w) =
      Vec.ofReal (t.alpha • (p.A *ᵥ x) + (1 - t.alpha) • w) := by
  apply Vec.ext
  intro i
  simp only [relax, h.constraints, h.settings, Mat.mulVec_ofReal]
  simp [Settings.ofReal]

theorem step_ofReal (h : s.IsFactored p t) (u : Point n m) :
    s.step p.data (.ofReal u) = .ofReal (p.step t u) := by
  obtain ⟨R, hFactor, hR⟩ := h.factor
  have hx : s.factor.choleskySolve (s.rightSide p.data (.ofReal u)) = Vec.ofReal (p.step t u).x := by
    rw [h.rightSide_ofReal, hFactor, hR.choleskySolve_ofReal]
    rfl
  have hr := h.relax_ofReal (p.step t u).x u.w
  generalize hBlend : t.alpha • (p.A *ᵥ (p.step t u).x) + (1 - t.alpha) • u.w = r at hr
  have hShifted : (Vec.ofFn fun i => (Vec.ofReal r).get i + (Vec.ofReal u.y).get i / s.settings.rho) =
      Vec.ofReal (r + t.rho⁻¹ • u.y) := by
    apply Vec.ext
    intro i
    simp [h.settings, Settings.ofReal, finite_div h.valid.rho_pos.ne', div_eq_inv_mul]
  have hw : Vec.clamp p.data.lower p.data.upper (Vec.ofReal (r + t.rho⁻¹ • u.y)) =
      Vec.ofReal (p.step t u).w := by
    rw [← hBlend]
    exact p.box.clamp_ofReal _
  have hy : (Vec.ofFn fun i => (Vec.ofReal u.y).get i +
      s.settings.rho * ((Vec.ofReal r).get i - (Vec.ofReal (p.step t u).w).get i)) =
      Vec.ofReal (p.step t u).y := by
    rw [← hBlend]
    apply Vec.ext
    intro i
    simp [h.settings, Settings.ofReal, Problem.step]
  rw [step, hx]
  simp only [Iterate.ofReal] at hr ⊢
  rw [hr, hShifted, hw, hy]

theorem run_ofReal (h : s.IsFactored p t) (k : ℕ) (u : Point n m) :
    s.run p.data k (.ofReal u) = .ofReal (p.run t k u) := by
  induction k with
  | zero => rfl
  | succ k ih =>
    change s.step p.data (s.run p.data k (.ofReal u)) = _
    rw [ih, h.step_ofReal]
    rfl

theorem iterate_ofReal (h : s.IsFactored p t) (z : Fin n → ℝ) (y : Fin m → ℝ) (k : ℕ) :
    s.iterate p z y k = .ofReal (p.run t k (p.start z y)) := by
  rw [iterate, h.start_ofReal, h.run_ofReal]

theorem residuals_ofReal (h : s.IsFactored p t) (u v : Point n m) :
    s.residuals (.ofReal u) (.ofReal v) = .ofReal (p.residuals t u v) := by
  simp only [residuals, Iterate.ofReal, h.constraints, h.settings, Mat.mulVec_ofReal,
    Mat.transposeMulVec_ofReal, Vec.sub_ofReal, Vec.maxAbs_ofReal, Settings.ofReal, finite_mul]
  rfl

/-- The answer after `k + 1` iterations consists of the numbers of the recurrence. -/
theorem solveProblem_eq_ok (h : s.IsFactored p t) (z : Fin n → ℝ) (y : Fin m → ℝ) (k : ℕ) :
    let u := p.run t k (p.start z y)
    let v := p.run t (k + 1) (p.start z y)
    s.solveProblem p z y (k + 1) = .ok {
      z := Vec.ofReal v.x
      y := Vec.ofReal v.y
      w := Vec.ofReal v.w
      iterations := k + 1
      residuals := .ofReal (p.residuals t u v)
      status := (Residuals.ofReal (p.residuals t u v)).status t.ofReal } := by
  rw [Solver.solveProblem_eq_ok, answer, h.start_ofReal, h.run_ofReal, h.step_ofReal,
    ← Problem.run_succ, h.residuals_ofReal, h.settings]
  rfl

end Solver.IsFactored

/-- Every solve of a prepared problem ends with a step of the iteration, also when the cost
matrix is not quite symmetric: then on the mirrored problem. -/
theorem Problem.exists_step_of_setup [Precision] {n m : ℕ} {p : Problem n m} {t : Settings ℝ}
    {s : Solver Extended n m} (hs : p.setup t = .ok s) (z : Fin n → ℝ) (y : Fin m → ℝ) (k : ℕ) :
    ∃ u v, p.mirrored.IsStep t u v ∧ s.solveProblem p z y (k + 1) = .ok {
      z := Vec.ofReal v.x
      y := Vec.ofReal v.y
      w := Vec.ofReal v.w
      iterations := k + 1
      residuals := .ofReal (p.residuals t u v)
      status := (Residuals.ofReal (p.residuals t u v)).status t.ofReal } := by
  have hFactored := isFactored_mirrored_of_setup hs
  exact ⟨_, _, hFactored.run_isStep k (p.mirrored.start z y), hFactored.solveProblem_eq_ok z y k⟩

end Qp

end RecedingHorizon
