import RecedingHorizon.Proofs.Certificate
import RecedingHorizon.Proofs.FixedPoint

/-!
# What a solve reads of the cost matrix

A setup passes a cost matrix `P` that is symmetric up to round-off, and the factorization reads
its lower triangle alone. So two prepared solvers with the same constraint matrix and settings
agree on every solve exactly when the lower triangles of their costs do
(`solves_agree_iff_lower_triangle`), although the costs may have the same form
`½ zᵀ P z = ½ zᵀ (½ (P + Pᵀ)) z`.

What a solve leaves fixed is stationary for the mirrored triangle. For the form of `P` it is so up
to the asymmetry that the setup lets pass.
-/

namespace RecedingHorizon

open Extended Matrix

/-! ## Triangles -/

namespace Mat

variable {n : ℕ} {M K : Matrix (Fin n) (Fin n) ℝ}

theorem mirror_eq_iff : mirror M = mirror K ↔ ∀ i j, j ≤ i → M i j = K i j := by
  constructor
  · intro h i j hij
    rw [← mirror_apply_of_le M hij, h, mirror_apply_of_le K hij]
  · intro h
    ext i j
    exact h _ _ min_le_max

/-- A matrix is determined by its lower triangle and its sum with the transpose. -/
theorem eq_of_mirror_eq (hLower : mirror M = mirror K) (hSum : M + Mᵀ = K + Kᵀ) : M = K := by
  rw [mirror_eq_iff] at hLower
  ext i j
  rcases le_total j i with hij | hij
  · exact hLower i j hij
  · have hEntry : M i j + M j i = K i j + K j i := congrFun (congrFun hSum i) j
    rwa [hLower j i hij, add_left_inj] at hEntry

/-- Off the lower triangle the mirror image misses half of the asymmetry. -/
theorem abs_symmetrized_sub_mirror_le [Precision]
    (hM : ∀ i j, |M i j - M j i| ≤ symmetryTolerance M) (i j : Fin n) :
    |((0.5 : ℝ) • (M + Mᵀ) - mirror M) i j| ≤ symmetryTolerance M / 2 := by
  -- on one side of the diagonal the mirror image has the entry itself, on the other its opposite
  rcases le_total j i with hij | hij
  · have hEntry : ((0.5 : ℝ) • (M + Mᵀ) - mirror M) i j = (M j i - M i j) / 2 := by
      rw [Matrix.sub_apply, Matrix.smul_apply, Matrix.add_apply, transpose_apply, smul_eq_mul,
        mirror_apply_of_le M hij]
      ring
    rw [hEntry, abs_div, abs_two]
    exact div_le_div_of_nonneg_right (hM j i) zero_le_two
  · have hEntry : ((0.5 : ℝ) • (M + Mᵀ) - mirror M) i j = (M i j - M j i) / 2 := by
      rw [Matrix.sub_apply, Matrix.smul_apply, Matrix.add_apply, transpose_apply, smul_eq_mul,
        ← (mirror_isSymm M).apply, mirror_apply_of_le M hij]
      ring
    rw [hEntry, abs_div, abs_two]
    exact div_le_div_of_nonneg_right (hM i j) zero_le_two

end Mat

namespace Qp

variable {n m : ℕ} {t : Settings ℝ}

/-- Solvers that differ in the cost matrix alone agree. -/
theorem Solver.solveWith_congr {S : Type} [Scalar S] {s s' : Solver S n m}
    (hConstraints : s.constraints = s'.constraints) (hSettings : s.settings = s'.settings)
    (hFactor : s.factor = s'.factor) : s.solveWith = s'.solveWith := by
  obtain ⟨cost, constraints, settings, factor⟩ := s
  cases hConstraints
  cases hSettings
  cases hFactor
  rfl

namespace Problem

/-- Without bounds and from zero the first step solves the system for the linear cost. -/
theorem step_start_zero_x {p : Problem n m} (hBox : p.box = .univ m) :
    (p.step t (p.start 0 0)).x = (p.system t)⁻¹ *ᵥ (-p.q) := by
  have hSlack : (p.start 0 0).w = 0 := by
    rw [start, mulVec_zero, hBox]
    refine Box.project_eq_self fun i => ?_
    rw [Box.univ, Vec.get_ofFn, Vec.get_ofFn]
    exact ⟨trivial, trivial⟩
  rw [step, hSlack, start, smul_zero, smul_zero, sub_zero, mulVec_zero, add_zero, zero_sub]

theorem system_mirrored_eq_iff {p p' : Problem n m} (hA : p.A = p'.A) :
    p.mirrored.system t = p'.mirrored.system t ↔ Mat.mirror p.P = Mat.mirror p'.P := by
  rw [system, system, mirrored, mirrored, hA, add_left_inj, add_left_inj]

/-- The gradient of the Lagrangian at a point that is optimal for the mirrored triangle. -/
theorem gradient_eq_of_mirrored_isKKT {p : Problem n m} {z : Fin n → ℝ} {y : Fin m → ℝ}
    (h : p.mirrored.IsKKT z y) :
    (0.5 : ℝ) • ((p.P + p.Pᵀ) *ᵥ z) + p.q + p.Aᵀ *ᵥ y =
      ((0.5 : ℝ) • (p.P + p.Pᵀ) - Mat.mirror p.P) *ᵥ z := by
  have hRest : p.q + p.Aᵀ *ᵥ y = -(Mat.mirror p.P *ᵥ z) := by
    rw [eq_neg_iff_add_eq_zero, add_comm, ← add_assoc]
    exact h.stationary
  rw [add_assoc, hRest, sub_mulVec, smul_mulVec, sub_eq_add_neg]

variable [Precision] {p p' : Problem n m} {s s' : Solver Extended n m}

/-- The first answers from zero, one for each linear cost, reveal the system. -/
theorem system_mirrored_eq_of_solves (hs : p.setup t = .ok s) (hs' : p'.setup t = .ok s')
    (h : ∀ q, s.solveProblem { p with q, box := .univ m } 0 0 1 =
      s'.solveProblem { p' with q, box := .univ m } 0 0 1) :
    p.mirrored.system t = p'.mirrored.system t := by
  have hFactored := isFactored_mirrored_of_setup hs
  have hFactored' := isFactored_mirrored_of_setup hs'
  have hInverse : (p.mirrored.system t)⁻¹ = (p'.mirrored.system t)⁻¹ := by
    -- the linear cost `-v` makes the first point the image of `v`
    rw [ext_iff_mulVec]
    intro v
    have hAnswer := (hFactored.with_data (-v) (.univ m)).solveProblem_eq_ok 0 0 0
    have hAnswer' := (hFactored'.with_data (-v) (.univ m)).solveProblem_eq_ok 0 0 0
    have hEq := hAnswer.symm.trans ((h (-v)).trans hAnswer')
    rw [Except.ok.injEq, Solution.mk.injEq, Vec.ofReal_inj] at hEq
    have hPoint := hEq.1
    rw [run_succ, run_zero, run_succ, run_zero, step_start_zero_x rfl, step_start_zero_x rfl,
      neg_neg] at hPoint
    exact hPoint
  rw [← nonsing_inv_nonsing_inv _ hFactored.isUnit_det, hInverse,
    nonsing_inv_nonsing_inv _ hFactored'.isUnit_det]

theorem solveWith_eq_iff (hs : p.setup t = .ok s) (hs' : p'.setup t = .ok s') (hA : p.A = p'.A) :
    (∀ q lower upper warm k, s.solveWith q lower upper warm k = s'.solveWith q lower upper warm k) ↔
      Mat.mirror p.P = Mat.mirror p'.P := by
  rw [← system_mirrored_eq_iff (t := t) hA]
  constructor
  · intro h
    exact system_mirrored_eq_of_solves hs hs' fun q => h _ _ _ _ _
  · intro h q lower upper warm k
    have hFactored := isFactored_mirrored_of_setup hs
    have hFactored' := isFactored_mirrored_of_setup hs'
    have hConstraints : s.constraints = s'.constraints :=
      hFactored.constraints.trans ((congrArg Mat.ofReal hA).trans hFactored'.constraints.symm)
    have hSettings : s.settings = s'.settings := hFactored.settings.trans hFactored'.settings.symm
    have hFactor := cholesky_of_setup hs
    rw [h, cholesky_of_setup hs', Option.some.injEq] at hFactor
    rw [Solver.solveWith_congr hConstraints hSettings hFactor.symm]

/-- Without bounds and from zero, one iteration solves the mirrored system for the linear cost. -/
theorem exists_solve_eq_of_system (hs : p.setup t = .ok s) (hBox : p.box = .univ m)
    {z : Fin n → ℝ} (hz : p.mirrored.system t *ᵥ z = -p.q) :
    ∃ sol, s.solveProblem p 0 0 1 = .ok sol ∧ sol.z = Vec.ofReal z := by
  have hFactored := isFactored_mirrored_of_setup hs
  have hPoint : (p.mirrored.step t (p.mirrored.start 0 0)).x = z := by
    rw [step_start_zero_x (p := p.mirrored) hBox]
    change (p.mirrored.system t)⁻¹ *ᵥ (-p.q) = z
    rw [← hz, mulVec_mulVec, nonsing_inv_mul _ hFactored.isUnit_det, one_mulVec]
  exact ⟨_, hFactored.solveProblem_eq_ok 0 0 0, congrArg Vec.ofReal hPoint⟩

/-- A solve returns a pair unchanged exactly when it is optimal for the mirrored triangle. -/
theorem solve_fixes_iff_mirrored_isKKT (hs : p.setup t = .ok s) (z : Fin n → ℝ) (y : Fin m → ℝ) :
    (∃ sol, s.solveProblem p z y 1 = .ok sol ∧ sol.z = Vec.ofReal z ∧ sol.y = Vec.ofReal y) ↔
      p.mirrored.IsKKT z y := by
  have hFactored := isFactored_mirrored_of_setup hs
  have hAnswer : s.solveProblem p z y 1 = _ := hFactored.solveProblem_eq_ok z y 0
  rw [← step_start_eq_iff hFactored.isUnit_det hFactored.valid.rho_pos hFactored.valid.alpha_pos,
    hAnswer]
  simp only [Except.ok.injEq, exists_eq_left', Vec.ofReal_inj]
  rfl

theorem abs_gradient_le {z : Fin n → ℝ} {y : Fin m → ℝ} (hs : p.setup t = .ok s)
    (h : p.mirrored.IsKKT z y) (i : Fin n) :
    |((0.5 : ℝ) • ((p.P + p.Pᵀ) *ᵥ z) + p.q + p.Aᵀ *ᵥ y) i| ≤
      (∑ j, |z j|) * (Mat.symmetryTolerance p.P / 2) := by
  have hNearly := Mat.isNearlySymmetric_ofReal_iff.mp (Solver.setup_eq_ok_iff.mp hs).2.2.2.1
  have hRow : ‖((0.5 : ℝ) • (p.P + p.Pᵀ) - Mat.mirror p.P) i‖ ≤ Mat.symmetryTolerance p.P / 2 :=
    (pi_norm_le_iff_of_nonneg (div_nonneg (Mat.symmetryTolerance_nonneg p.P) zero_le_two)).mpr
      (Mat.abs_symmetrized_sub_mirror_le hNearly i)
  have hSum : 0 ≤ ∑ j, |z j| := Finset.sum_nonneg fun j _ => abs_nonneg (z j)
  rw [gradient_eq_of_mirrored_isKKT h]
  calc
    |(((0.5 : ℝ) • (p.P + p.Pᵀ) - Mat.mirror p.P) *ᵥ z) i| =
        |z ⬝ᵥ ((0.5 : ℝ) • (p.P + p.Pᵀ) - Mat.mirror p.P) i| := by rw [dotProduct_comm]; rfl
    _ ≤ (∑ j, |z j|) * ‖((0.5 : ℝ) • (p.P + p.Pᵀ) - Mat.mirror p.P) i‖ := abs_dot_le _ _
    _ ≤ _ := mul_le_mul_of_nonneg_left hRow hSum

end Problem

/-- **The cost that is minimized.** Two solvers prepared with the same constraint matrix and
settings agree on every solve exactly when the lower triangles of their costs do; costs of the
same form must be equal for that. At a pair that a solve leaves fixed, the gradient of the
Lagrangian with the form of the cost is what this form and the mirrored lower triangle differ by.
Each entry is bounded by half of the asymmetry that the setup lets pass. -/
theorem solves_agree_iff_lower_triangle [Precision] {p p' : Problem n m} {t : Settings ℝ}
    {s s' : Solver Extended n m} (hs : p.setup t = .ok s) (hs' : p'.setup t = .ok s')
    (hA : p.A = p'.A) :
    let agree := ∀ q lower upper warm k,
      s.solveWith q lower upper warm k = s'.solveWith q lower upper warm k
    (agree ↔ ∀ i j, j ≤ i → p.P i j = p'.P i j) ∧
    (p.P + p.Pᵀ = p'.P + p'.Pᵀ → (agree ↔ p.P = p'.P)) ∧
    ∀ z y, (∃ sol, s.solveProblem p z y 1 = .ok sol ∧ sol.z = Vec.ofReal z ∧
        sol.y = Vec.ofReal y) →
      (0.5 : ℝ) • ((p.P + p.Pᵀ) *ᵥ z) + p.q + p.Aᵀ *ᵥ y =
        ((0.5 : ℝ) • (p.P + p.Pᵀ) - Mat.mirror p.P) *ᵥ z ∧
      ∀ i, |((0.5 : ℝ) • ((p.P + p.Pᵀ) *ᵥ z) + p.q + p.Aᵀ *ᵥ y) i| ≤
        (∑ j, |z j|) * (Mat.symmetryTolerance p.P / 2) := by
  intro agree
  have hAgree : agree ↔ Mat.mirror p.P = Mat.mirror p'.P := Problem.solveWith_eq_iff hs hs' hA
  refine ⟨hAgree.trans Mat.mirror_eq_iff, fun hForm => hAgree.trans ?_, fun z y hFixed => ?_⟩
  · exact ⟨fun hLower => Mat.eq_of_mirror_eq hLower hForm, congrArg Mat.mirror⟩
  · have hKKT := (Problem.solve_fixes_iff_mirrored_isKKT hs z y).mp hFixed
    exact ⟨Problem.gradient_eq_of_mirrored_isKKT hKKT, Problem.abs_gradient_le hs hKKT⟩

/-! ## A cost with an asymmetry within the tolerance -/

namespace Problem

/-- A cost with a large entry, `2²⁶`, beside which an asymmetry of one passes. -/
def lopsided : Problem 3 0 where
  P := !![67108864, 0, 0; 0, 1, 0; 0, 1, 1]
  A := 0
  q := ![0, -1, -1]
  box := .univ 0

/-- The same form with the asymmetry above the diagonal. -/
def lopsidedAbove : Problem 3 0 := { lopsided with P := lopsided.Pᵀ }

theorem mirror_lopsided : Mat.mirror lopsided.P = !![67108864, 0, 0; 0, 1, 1; 0, 1, 1] := by
  ext i j
  fin_cases i <;> fin_cases j <;> simp [Mat.mirror, lopsided]

theorem mirror_lopsidedAbove : Mat.mirror lopsidedAbove.P = diagonal ![67108864, 1, 1] := by
  ext i j
  fin_cases i <;> fin_cases j <;> rfl

theorem lopsided_add_transpose :
    lopsided.P + lopsided.Pᵀ = !![134217728, 0, 0; 0, 2, 1; 0, 1, 2] := by
  ext i j
  fin_cases i <;> fin_cases j <;> norm_num [lopsided]

theorem abs_lopsided_sub_le (i j : Fin 3) : |lopsided.P i j - lopsided.P j i| ≤ 1 := by
  fin_cases i <;> fin_cases j <;> norm_num [lopsided]

theorem mirror_lopsided_posSemidef : (Mat.mirror lopsided.P).PosSemidef := by
  have hSquare : Mat.mirror lopsided.P =
      !![8192, 0, 0; 0, 1, 0; 0, 1, 0] * !![8192, 0, 0; 0, 1, 0; 0, 1, 0]ᴴ := by
    rw [mirror_lopsided]
    ext i j
    fin_cases i <;> fin_cases j <;> norm_num [Matrix.mul_apply, Fin.sum_univ_succ]
  rw [hSquare]
  exact posSemidef_self_mul_conjTranspose _

theorem mirror_lopsidedAbove_posSemidef : (Mat.mirror lopsidedAbove.P).PosSemidef := by
  rw [mirror_lopsidedAbove, posSemidef_diagonal_iff]
  intro i
  fin_cases i <;> norm_num

/-- Without rows only the regularization is added to the cost. -/
theorem system_unitSettings (p : Problem 3 0) :
    p.mirrored.system unitSettings = Mat.mirror p.P + 1 := by
  have hRows : p.mirrored.Aᵀ * p.mirrored.A = 0 := by
    ext i j
    rw [Matrix.mul_apply, Finset.univ_eq_empty, Finset.sum_empty, Matrix.zero_apply]
  have hSigma : unitSettings.sigma = 1 := rfl
  rw [system, hRows, hSigma, smul_zero, one_smul, add_zero, mirrored]

/-- Beside an entry of `2²⁶` an asymmetry of one passes in binary64. -/
theorem one_le_symmetryTolerance {n : ℕ} {M : Matrix (Fin n) (Fin n) ℝ} (i : Fin n)
    (hEntry : M i i = 67108864) :
    letI := Precision.double
    1 ≤ Mat.symmetryTolerance M := by
  let _ := Precision.double
  have hRoot : Real.sqrt Precision.epsilon = 2⁻¹ ^ 26 := Precision.sqrt_epsilon_double
  have hLarge := Mat.sqrt_epsilon_mul_abs_le M i i
  rw [hRoot, hEntry] at hLarge
  norm_num at hLarge
  exact hLarge

theorem exists_setup_unitSettings [Precision] {p : Problem 3 0}
    (hP : ∀ i j, |p.P i j - p.P j i| ≤ Mat.symmetryTolerance p.P)
    (hMirror : (Mat.mirror p.P).PosSemidef) : ∃ s, p.setup unitSettings = .ok s :=
  exists_setup_of_isNearlySymmetric (Mat.isNearlySymmetric_ofReal_iff.mpr hP) unitSettings_isValid
    (system_posDef (p := p.mirrored) hMirror unitSettings_isValid.rho_pos.le one_pos)

theorem exists_setup_lopsided :
    letI := Precision.double
    ∃ s, lopsided.setup unitSettings = .ok s :=
  letI := Precision.double
  exists_setup_unitSettings
    (fun i j => (abs_lopsided_sub_le i j).trans (one_le_symmetryTolerance 0 rfl))
    mirror_lopsided_posSemidef

theorem exists_setup_lopsidedAbove :
    letI := Precision.double
    ∃ s, lopsidedAbove.setup unitSettings = .ok s :=
  letI := Precision.double
  exists_setup_unitSettings
    (fun i j => (abs_lopsided_sub_le j i).trans (one_le_symmetryTolerance 0 rfl))
    mirror_lopsidedAbove_posSemidef

end Problem

/-- A cost within the tolerance is solved as its mirrored lower triangle. -/
theorem lopsided_solved_as_mirrored :
    letI := Precision.double
    let p : Problem 3 0 := .lopsided
    ∃ s s', p.setup Problem.unitSettings = .ok s ∧ p.mirrored.setup Problem.unitSettings = .ok s' ∧
      (∀ q lower upper warm k,
        s.solveWith q lower upper warm k = s'.solveWith q lower upper warm k) ∧
      p.P ≠ p.mirrored.P := by
  let _ := Precision.double
  intro p
  obtain ⟨s, hs⟩ := Problem.exists_setup_lopsided
  have hPosDef : (p.mirrored.system Problem.unitSettings).PosDef :=
    Problem.system_posDef (p := p.mirrored) Problem.mirror_lopsided_posSemidef zero_le_one one_pos
  obtain ⟨s', hs'⟩ :=
    Problem.exists_setup (Mat.mirror_isSymm p.P) Problem.unitSettings_isValid hPosDef
  obtain ⟨hAgree, -⟩ := solves_agree_iff_lower_triangle hs hs' rfl
  refine ⟨s, s', hs, hs', hAgree.mpr fun i j hij => (Mat.mirror_apply_of_le p.P hij).symm, ?_⟩
  intro hEq
  have hAbove := congrFun (congrFun hEq 1) 2
  change (0 : ℝ) = 1 at hAbove
  exact zero_ne_one hAbove

/-- Two costs of the same form, both accepted, lead to different answers, and one of the solvers
leaves a point fixed where the gradient of the form does not vanish. -/
theorem same_form_different_answers :
    letI := Precision.double
    let p : Problem 3 0 := .lopsided
    let p' : Problem 3 0 := .lopsidedAbove
    ∃ s s', p.setup Problem.unitSettings = .ok s ∧ p'.setup Problem.unitSettings = .ok s' ∧
      p.A = p'.A ∧ p.P + p.Pᵀ = p'.P + p'.Pᵀ ∧
      (∃ sol, s.solveProblem p 0 0 1 = .ok sol ∧ sol.z = Vec.ofReal ![0, 1 / 3, 1 / 3]) ∧
      (∃ sol, s'.solveProblem p 0 0 1 = .ok sol ∧ sol.z = Vec.ofReal ![0, 1 / 2, 1 / 2]) ∧
      (∃ sol, s.solveProblem p ![0, 0, 1] 0 1 = .ok sol ∧ sol.z = Vec.ofReal ![0, 0, 1] ∧
        sol.y = Vec.ofReal 0) ∧
      (0.5 : ℝ) • ((p.P + p.Pᵀ) *ᵥ ![0, 0, 1]) + p.q + p.Aᵀ *ᵥ 0 ≠ 0 := by
  let _ := Precision.double
  intro p p'
  obtain ⟨s, hs⟩ := Problem.exists_setup_lopsided
  obtain ⟨s', hs'⟩ := Problem.exists_setup_lopsidedAbove
  have hSystem : p.mirrored.system Problem.unitSettings *ᵥ ![0, 1 / 3, 1 / 3] = -p.q := by
    rw [Problem.system_unitSettings, Problem.mirror_lopsided, add_mulVec, one_mulVec]
    ext i
    fin_cases i <;> norm_num [p, Problem.lopsided]
  have hSystem' : p'.mirrored.system Problem.unitSettings *ᵥ ![0, 1 / 2, 1 / 2] = -p'.q := by
    rw [Problem.system_unitSettings, Problem.mirror_lopsidedAbove, add_mulVec, one_mulVec]
    ext i
    rw [Pi.add_apply, mulVec_diagonal]
    fin_cases i <;> norm_num [p', Problem.lopsidedAbove, Problem.lopsided]
  have hKKT : p.mirrored.IsKKT ![0, 0, 1] 0 := {
    stationary := by
      change Mat.mirror p.P *ᵥ _ + _ + _ = 0
      rw [Problem.mirror_lopsided, mulVec_zero, add_zero]
      ext i
      fin_cases i <;> norm_num [p, Problem.mirrored, Problem.lopsided]
    normal := Box.isNormal_zero fun i => i.elim0 }
  refine ⟨s, s', hs, hs', rfl, ?_, Problem.exists_solve_eq_of_system hs rfl hSystem,
    Problem.exists_solve_eq_of_system hs' rfl hSystem',
    (Problem.solve_fixes_iff_mirrored_isKKT hs _ _).mpr hKKT, fun hGradient => ?_⟩
  · exact (add_comm _ _).trans (congrArg _ (transpose_transpose _).symm)
  · have hImage : (p.P + p.Pᵀ) *ᵥ ![0, 0, 1] = ![0, 1, 2] := by
      rw [Problem.lopsided_add_transpose]
      ext i
      fin_cases i <;> norm_num
    rw [hImage] at hGradient
    have hRow := congrFun hGradient 1
    norm_num [p, Problem.lopsided] at hRow

end Qp

end RecedingHorizon
