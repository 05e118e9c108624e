import RecedingHorizon.Proofs.Certificate
import RecedingHorizon.Proofs.FiniteAnswers
import RecedingHorizon.Proofs.PositiveDefinite

/-!
# Programs side by side

Two programs that share no variable and no row are one program: the matrices of the parts stand
along the diagonal (`Mat.beside`) and their vectors end to end (`Fin.append`). Products, inverses
and projections act on each part alone, so a step of the whole is a step of each part
(`Problem.step_beside`) and a run is a run of each (`Problem.run_beside`). Only the residuals see
both parts, through a maximum.

So a setup of the whole is one of both parts (`Problem.exists_setup_beside_iff`), and what a solve
of one part returns does not depend on the data of the other (`solve_beside`).
-/

namespace RecedingHorizon

open Extended Matrix

/-! ## Matrices along the diagonal -/

namespace Mat

variable {m n p q : ℕ}

/-- Two matrices along the diagonal, with zeros elsewhere. -/
def beside (M : Matrix (Fin m) (Fin n) ℝ) (K : Matrix (Fin p) (Fin q) ℝ) :
    Matrix (Fin (m + p)) (Fin (n + q)) ℝ :=
  (fromBlocks M 0 0 K).submatrix finSumFinEquiv.symm finSumFinEquiv.symm

theorem beside_transpose (M : Matrix (Fin m) (Fin n) ℝ) (K : Matrix (Fin p) (Fin q) ℝ) :
    (beside M K)ᵀ = beside Mᵀ Kᵀ := by
  rw [beside, transpose_submatrix, fromBlocks_transpose, transpose_zero, transpose_zero, beside]

theorem beside_isSymm {M : Matrix (Fin n) (Fin n) ℝ} {K : Matrix (Fin q) (Fin q) ℝ}
    (hM : M.IsSymm) (hK : K.IsSymm) : (beside M K).IsSymm := by
  rw [Matrix.IsSymm, beside_transpose, hM.eq, hK.eq]

theorem beside_mulVec (M : Matrix (Fin m) (Fin n) ℝ) (K : Matrix (Fin p) (Fin q) ℝ)
    (u : Fin n → ℝ) (v : Fin q → ℝ) :
    beside M K *ᵥ Fin.append u v = Fin.append (M *ᵥ u) (K *ᵥ v) := by
  rw [append_eq_elim, append_eq_elim, beside, submatrix_mulVec_equiv, Function.comp_assoc,
    Equiv.symm_symm, Equiv.symm_comp_self, Function.comp_id, fromBlocks_mulVec, zero_mulVec,
    zero_mulVec, add_zero, zero_add]
  rfl

theorem beside_add (M M' : Matrix (Fin m) (Fin n) ℝ) (K K' : Matrix (Fin p) (Fin q) ℝ) :
    beside M K + beside M' K' = beside (M + M') (K + K') := by
  have hBlocks : fromBlocks (M + M') 0 0 (K + K') = fromBlocks M 0 0 K + fromBlocks M' 0 0 K' := by
    rw [fromBlocks_add, add_zero, add_zero]
  rw [beside, beside, beside, hBlocks]
  rfl

theorem smul_beside (c : ℝ) (M : Matrix (Fin m) (Fin n) ℝ) (K : Matrix (Fin p) (Fin q) ℝ) :
    c • beside M K = beside (c • M) (c • K) := by
  have hBlocks : fromBlocks (c • M) 0 0 (c • K) = c • fromBlocks M 0 0 K := by
    rw [fromBlocks_smul, smul_zero, smul_zero]
  rw [beside, beside, hBlocks]
  rfl

theorem beside_mul {k r : ℕ} (M : Matrix (Fin m) (Fin n) ℝ) (K : Matrix (Fin p) (Fin q) ℝ)
    (M' : Matrix (Fin n) (Fin k) ℝ) (K' : Matrix (Fin q) (Fin r) ℝ) :
    beside M K * beside M' K' = beside (M * M') (K * K') := by
  rw [beside, beside, submatrix_mul_equiv, fromBlocks_multiply, beside]
  simp only [Matrix.mul_zero, Matrix.zero_mul, add_zero, zero_add]

theorem beside_one : beside (1 : Matrix (Fin n) (Fin n) ℝ) (1 : Matrix (Fin q) (Fin q) ℝ) = 1 := by
  rw [beside, fromBlocks_one, submatrix_one_equiv]

theorem inv_beside {M : Matrix (Fin n) (Fin n) ℝ} {K : Matrix (Fin q) (Fin q) ℝ}
    (hM : IsUnit M.det) (hK : IsUnit K.det) : (beside M K)⁻¹ = beside M⁻¹ K⁻¹ := by
  apply inv_eq_right_inv
  rw [beside_mul, mul_nonsing_inv _ hM, mul_nonsing_inv _ hK, beside_one]

theorem beside_posDef_iff {M : Matrix (Fin n) (Fin n) ℝ} {K : Matrix (Fin q) (Fin q) ℝ}
    (hM : M.IsSymm) (hK : K.IsSymm) : (beside M K).PosDef ↔ M.PosDef ∧ K.PosDef := by
  have hForm : ∀ u v, Fin.append u v ⬝ᵥ beside M K *ᵥ Fin.append u v = u ⬝ᵥ M *ᵥ u + v ⬝ᵥ K *ᵥ v :=
    fun u v => by rw [beside_mulVec, append_dot_append]
  rw [posDef_iff_form_pos (beside_isSymm hM hK)]
  constructor
  · intro h
    constructor
    · refine (posDef_iff_form_pos hM).mpr fun u hu => ?_
      have hPos := h (Fin.append u 0) (append_ne_zero_iff.mpr (.inl hu))
      rwa [hForm, zero_dotProduct, add_zero] at hPos
    · refine (posDef_iff_form_pos hK).mpr fun v hv => ?_
      have hPos := h (Fin.append 0 v) (append_ne_zero_iff.mpr (.inr hv))
      rwa [hForm, zero_dotProduct, zero_add] at hPos
  · -- one of the two forms may vanish, so the other one is needed where its part does not
    rintro ⟨hMDef, hKDef⟩ w hw
    obtain ⟨u, v, rfl⟩ : ∃ u v, w = Fin.append u v := ⟨_, _, Fin.append_castAdd_natAdd.symm⟩
    have hMNonneg : 0 ≤ u ⬝ᵥ M *ᵥ u := by simpa using hMDef.posSemidef.dotProduct_mulVec_nonneg u
    have hKNonneg : 0 ≤ v ⬝ᵥ K *ᵥ v := by simpa using hKDef.posSemidef.dotProduct_mulVec_nonneg v
    rw [hForm]
    rcases append_ne_zero_iff.mp hw with hu | hv
    · exact add_pos_of_pos_of_nonneg ((posDef_iff_form_pos hM).mp hMDef u hu) hKNonneg
    · exact add_pos_of_nonneg_of_pos hMNonneg ((posDef_iff_form_pos hK).mp hKDef v hv)

end Mat

/-! ## Boxes -/

theorem Box.project_append {m n : ℕ} (b : Box m) (b' : Box n) (u : Fin m → ℝ) (v : Fin n → ℝ) :
    (b.append b').project (Fin.append u v) = Fin.append (b.project u) (b'.project v) := by
  funext i
  cases i using Fin.addCases with
  | left i =>
    rw [project, Fin.append_left, Fin.append_left, append, Vec.get_append_castAdd,
      Vec.get_append_castAdd, project]
  | right i =>
    rw [project, Fin.append_right, Fin.append_right, append, Vec.get_append_natAdd,
      Vec.get_append_natAdd, project]

namespace Vec

variable {m n : ℕ}

theorem isFinite_append_iff [Precision] {u : Vec Extended m} {v : Vec Extended n} :
    isFinite (u ++ v) = true ↔ u.isFinite = true ∧ v.isFinite = true := by
  rw [isFinite_iff, isFinite_iff, isFinite_iff, Fin.forall_fin_add]
  simp only [get_append_castAdd, get_append_natAdd]

theorem ordered_append_iff {lo hi : Vec Extended m} {lo' hi' : Vec Extended n} :
    (∀ i, Vector.get (lo ++ lo') i ≤ Vector.get (hi ++ hi') i) ↔
      (∀ i, lo.get i ≤ hi.get i) ∧ ∀ i, lo'.get i ≤ hi'.get i := by
  rw [Fin.forall_fin_add]
  simp only [get_append_castAdd, get_append_natAdd]

end Vec

/-! ## Programs -/

namespace Qp

variable {n m n' m' : ℕ}

namespace Problem

/-- The program whose parts are two programs that share no variable and no row. -/
def beside (p : Problem n m) (p' : Problem n' m') : Problem (n + n') (m + m') where
  P := Mat.beside p.P p'.P
  A := Mat.beside p.A p'.A
  q := Fin.append p.q p'.q
  box := p.box.append p'.box

theorem system_beside (p : Problem n m) (p' : Problem n' m') (t : Settings ℝ) :
    (p.beside p').system t = Mat.beside (p.system t) (p'.system t) := by
  simp only [system, beside, Mat.beside_transpose, Mat.beside_mul, Mat.smul_beside, Mat.beside_add,
    ← Mat.beside_one (n := n) (q := n')]

/-- The settings judge both parts alike, so the verdict is that of the two systems. -/
theorem exists_setup_beside_iff [Precision] {p : Problem n m} {p' : Problem n' m'}
    (hP : p.P.IsSymm) (hP' : p'.P.IsSymm) (t : Settings ℝ) :
    (∃ s, (p.beside p').setup t = .ok s) ↔ (∃ s, p.setup t = .ok s) ∧ ∃ s, p'.setup t = .ok s := by
  by_cases hSettings : t.ofReal.validate = .ok ()
  · rw [exists_setup_iff_posDef hP hSettings, exists_setup_iff_posDef hP' hSettings,
      exists_setup_iff_posDef (p := p.beside p') (Mat.beside_isSymm hP hP') hSettings, system_beside,
      Mat.beside_posDef_iff (system_isSymm hP t) (system_isSymm hP' t)]
  · have hRefused : ∀ {n m : ℕ} (p : Problem n m), ¬ ∃ s, p.setup t = .ok s :=
      fun p ⟨_, hs⟩ => hSettings (Solver.setup_eq_ok_iff.mp hs).1
    exact iff_of_false (hRefused _) fun h => hRefused p h.1

end Problem

/-! ## Runs -/

/-- The iterate with the vectors of two iterates end to end. -/
def Point.beside (u : Point n m) (u' : Point n' m') : Point (n + n') (m + m') where
  x := Fin.append u.x u'.x
  w := Fin.append u.w u'.w
  y := Fin.append u.y u'.y

namespace Problem

variable (p : Problem n m) (p' : Problem n' m') {t : Settings ℝ}

theorem start_beside (z : Fin n → ℝ) (z' : Fin n' → ℝ) (y : Fin m → ℝ) (y' : Fin m' → ℝ) :
    (p.beside p').start (Fin.append z z') (Fin.append y y') =
      (p.start z y).beside (p'.start z' y') := by
  simp only [start, beside, Point.beside, Mat.beside_mulVec, Box.project_append]

theorem step_beside (hUnit : IsUnit (p.system t).det) (hUnit' : IsUnit (p'.system t).det)
    (u : Point n m) (u' : Point n' m') :
    (p.beside p').step t (u.beside u') = (p.step t u).beside (p'.step t u') := by
  have hInverse : ((p.beside p').system t)⁻¹ = Mat.beside (p.system t)⁻¹ (p'.system t)⁻¹ := by
    rw [system_beside, Mat.inv_beside hUnit hUnit']
  simp only [step, hInverse, Point.beside]
  simp only [beside, Mat.beside_transpose, Mat.beside_mulVec, smul_append, append_add_append,
    append_sub_append, Box.project_append]

theorem run_beside (hUnit : IsUnit (p.system t).det) (hUnit' : IsUnit (p'.system t).det) (k : ℕ)
    (u : Point n m) (u' : Point n' m') :
    (p.beside p').run t k (u.beside u') = (p.run t k u).beside (p'.run t k u') := by
  induction k with
  | zero => rfl
  | succ k ih => rw [run_succ, run_succ, run_succ, ih, step_beside p p' hUnit hUnit']

end Problem

/-! ## Answers -/

/-- The larger of two residuals of each kind. -/
def Residuals.larger {S : Type} [Scalar S] (r r' : Residuals S) : Residuals S where
  primal := Scalar.larger r.primal r'.primal
  dual := Scalar.larger r.dual r'.dual

end Qp

/-- Converged when both are. -/
def SolveStatus.both : SolveStatus → SolveStatus → SolveStatus
  | .converged, .converged => .converged
  | _, _ => .maxIterReached

theorem SolveStatus.eq_of_converged_iff {a b : SolveStatus}
    (h : a = .converged ↔ b = .converged) : a = b := by
  cases a with
  | converged => exact (h.mp rfl).symm
  | maxIterReached =>
    cases b with
    | converged => exact h.mpr rfl
    | maxIterReached => rfl

theorem SolveStatus.both_eq_converged_iff {a b : SolveStatus} :
    a.both b = .converged ↔ a = .converged ∧ b = .converged := by
  cases a <;> cases b <;> decide

namespace Qp

variable {n m n' m' : ℕ}

def Data.beside {S : Type} (d : Data S n m) (d' : Data S n' m') : Data S (n + n') (m + m') where
  q := d.q ++ d'.q
  lower := d.lower ++ d'.lower
  upper := d.upper ++ d'.upper

/-- The answers of two solves with the same number of iterations, end to end. -/
def Solution.beside {S : Type} [Scalar S] (sol : Solution S n m) (sol' : Solution S n' m') :
    Solution S (n + n') (m + m') where
  z := sol.z ++ sol'.z
  y := sol.y ++ sol'.y
  w := sol.w ++ sol'.w
  iterations := sol.iterations
  residuals := sol.residuals.larger sol'.residuals
  status := sol.status.both sol'.status

section Answers

variable [Precision] {p : Problem n m} {p' : Problem n' m'} {t : Settings ℝ}

theorem Problem.residuals_beside (hRho : 0 ≤ t.rho) (u v : Point n m) (u' v' : Point n' m') :
    Residuals.ofReal ((p.beside p').residuals t (u.beside u') (v.beside v')) =
      (Residuals.ofReal (p.residuals t u v)).larger (.ofReal (p'.residuals t u' v')) := by
  simp only [residuals, beside, Point.beside, Mat.beside_transpose, Mat.beside_mulVec,
    append_sub_append, norm_append, mul_max_of_nonneg _ _ hRho, Residuals.ofReal, Residuals.larger,
    larger_finite]

theorem Residuals.status_larger (r r' : Residuals ℝ) (t : Settings ℝ) :
    ((ofReal r).larger (ofReal r')).status t.ofReal =
      ((ofReal r).status t.ofReal).both ((ofReal r').status t.ofReal) := by
  apply SolveStatus.eq_of_converged_iff
  rw [SolveStatus.both_eq_converged_iff, status_eq_converged_iff, status_eq_converged_iff,
    status_eq_converged_iff]
  simp only [larger, ofReal, Settings.ofReal, larger_finite, finite_le, max_le_iff]
  exact and_and_and_comm

namespace Solver

variable {s : Solver Extended n m} {s' : Solver Extended n' m'}
  {whole : Solver Extended (n + n') (m + m')}

theorem IsFactored.solveProblem_beside (h : s.IsFactored p t) (h' : s'.IsFactored p' t)
    (hWhole : whole.IsFactored (p.beside p') t) {z : Fin n → ℝ} {z' : Fin n' → ℝ} {y : Fin m → ℝ}
    {y' : Fin m' → ℝ} {k : ℕ} {sol : Solution Extended n m} {sol' : Solution Extended n' m'}
    (hSol : s.solveProblem p z y (k + 1) = .ok sol)
    (hSol' : s'.solveProblem p' z' y' (k + 1) = .ok sol') :
    whole.solveProblem (p.beside p') (Fin.append z z') (Fin.append y y') (k + 1) =
      .ok (sol.beside sol') := by
  rw [h.solveProblem_eq_ok, Except.ok.injEq] at hSol
  rw [h'.solveProblem_eq_ok, Except.ok.injEq] at hSol'
  subst hSol hSol'
  rw [hWhole.solveProblem_eq_ok, Problem.start_beside]
  simp only [Problem.run_beside p p' h.isUnit_det h'.isUnit_det,
    Problem.residuals_beside h.valid.rho_pos.le, Residuals.status_larger, Solution.beside,
    Vec.append_ofReal]
  rfl

/-- Between bounds with room a solve that succeeds is one of a real problem. -/
theorem exists_problem_of_solveWith {d : Data Extended n m} {z : Vec Extended n}
    {y : Vec Extended m} {k : ℕ} {sol : Solution Extended n m} (p : Problem n m)
    (hRoom : Vec.HasRoom d.lower d.upper)
    (hSol : s.solveWith d.q.toArray d.lower.toArray d.upper.toArray
      { z := z.toArray, y := y.toArray } (k + 1) = .ok sol) :
    ∃ q box z₀ y₀, d = ({ p with q, box } : Problem n m).data ∧ z = Vec.ofReal z₀ ∧
      y = Vec.ofReal y₀ ∧ s.solveProblem { p with q, box } z₀ y₀ (k + 1) = .ok sol := by
  obtain ⟨hq, hz, hy, hOrdered, -⟩ := s.solveWith_eq_ok_iff.mp hSol
  obtain ⟨q, box, rfl⟩ := Data.exists_problem p hq hOrdered hRoom
  obtain ⟨z, rfl⟩ := Vec.exists_ofReal hz
  obtain ⟨y, rfl⟩ := Vec.exists_ofReal hy
  exact ⟨q, box, z, y, rfl, rfl, rfl, hSol⟩

end Solver

end Answers

/-- **Independent parts.** A setup of two programs side by side, under any settings, succeeds
exactly when a setup of each does. A solve of the whole then succeeds exactly when the solves of
both parts do, whatever the data. If the bounds leave room, it returns their answers end to end,
with the larger of their residuals, and has converged exactly when both have. -/
theorem solve_beside [Precision] {p : Problem n m} {p' : Problem n' m'} (hP : p.P.IsSymm)
    (hP' : p'.P.IsSymm) (t : Settings ℝ) :
    ((∃ whole, (p.beside p').setup t = .ok whole) ↔
      (∃ s, p.setup t = .ok s) ∧ ∃ s', p'.setup t = .ok s') ∧
    ∀ whole s s', (p.beside p').setup t = .ok whole → p.setup t = .ok s → p'.setup t = .ok s' →
      ∀ (d : Data Extended n m) (d' : Data Extended n' m') (z : Vec Extended n)
        (z' : Vec Extended n') (y : Vec Extended m) (y' : Vec Extended m') (k : ℕ),
        let joint := whole.solveWith (d.q ++ d'.q).toArray (d.lower ++ d'.lower).toArray
          (d.upper ++ d'.upper).toArray { z := (z ++ z').toArray, y := (y ++ y').toArray } k
        let first := s.solveWith d.q.toArray d.lower.toArray d.upper.toArray
          { z := z.toArray, y := y.toArray } k
        let second := s'.solveWith d'.q.toArray d'.lower.toArray d'.upper.toArray
          { z := z'.toArray, y := y'.toArray } k
        ((∃ sol, joint = .ok sol) ↔ (∃ sol, first = .ok sol) ∧ ∃ sol', second = .ok sol') ∧
        (Vec.HasRoom d.lower d.upper → Vec.HasRoom d'.lower d'.upper →
          ∀ sol sol', first = .ok sol → second = .ok sol' → joint = .ok (sol.beside sol')) := by
  refine ⟨Problem.exists_setup_beside_iff hP hP' t, fun whole s s' hWhole hs hs' => ?_⟩
  have hFactored := Problem.isFactored_of_setup hs hP
  have hFactored' := Problem.isFactored_of_setup hs' hP'
  have hBoth := Problem.isFactored_of_setup hWhole (Mat.beside_isSymm hP hP')
  intro d d' z z' y y' k joint first second
  constructor
  · have hJoint := whole.exists_solveWith_eq_ok_iff (d.beside d') (z ++ z') (y ++ y') k
    refine hJoint.trans ?_
    rw [s.exists_solveWith_eq_ok_iff, s'.exists_solveWith_eq_ok_iff]
    simp only [Data.beside, Vec.isFinite_append_iff, Vec.ordered_append_iff]
    tauto
  · -- with room the data are real, and the three solves run the recurrence
    intro hRoom hRoom' sol sol' hSol hSol'
    cases k with
    | zero => exact nomatch hSol
    | succ k =>
      obtain ⟨q, box, z, y, rfl, rfl, rfl, hSol⟩ :=
        Solver.exists_problem_of_solveWith p hRoom hSol
      obtain ⟨q', box', z', y', rfl, rfl, rfl, hSol'⟩ :=
        Solver.exists_problem_of_solveWith p' hRoom' hSol'
      have hAnswer := (hFactored.with_data q box).solveProblem_beside (hFactored'.with_data q' box')
        (hBoth.with_data _ _) hSol hSol'
      simp only [joint, Problem.data, Vec.append_ofReal]
      exact hAnswer

/-- A program with one row beside one without rows. -/
theorem clippedParabola_beside_freeParabola :
    letI := Precision.double
    let p : Problem 1 1 := .clippedParabola
    let p' : Problem 1 0 := .freeParabola
    ∃ whole s s' sol sol', (p.beside p').setup .standard = .ok whole ∧
      p.setup .standard = .ok s ∧ p'.setup .standard = .ok s' ∧
      s.solveProblem p ![0] ![1] 3 = .ok sol ∧ s'.solveProblem p' ![0] ![] 3 = .ok sol' ∧
      whole.solveProblem (p.beside p') (Fin.append ![0] ![0]) (Fin.append ![1] ![]) 3 =
        .ok (sol.beside sol') := by
  let _ := Precision.double
  intro p p'
  obtain ⟨s, hs⟩ := Problem.exists_setup_clippedParabola
  obtain ⟨s', hs'⟩ : ∃ s', p'.setup .standard = .ok s' :=
    Problem.exists_setup isSymm_one Settings.standard_isValid
      (Problem.system_posDef PosSemidef.one Settings.standard_isValid.rho_pos.le
        (by norm_num [Settings.standard]))
  have hSol := s.solveProblem_eq_ok p ![0] ![1] 2
  have hSol' := s'.solveProblem_eq_ok p' ![0] ![] 2
  have hSymm : p.P.IsSymm := isSymm_one
  have hSymm' : p'.P.IsSymm := isSymm_one
  obtain ⟨hSetup, hSolves⟩ := solve_beside hSymm hSymm' .standard
  obtain ⟨whole, hWhole⟩ := hSetup.mpr ⟨⟨s, hs⟩, s', hs'⟩
  obtain ⟨-, hAnswers⟩ := hSolves whole s s' hWhole hs hs' p.data p'.data (Vec.ofReal ![0])
    (Vec.ofReal ![0]) (Vec.ofReal ![1]) (Vec.ofReal ![]) 3
  have hJoint := hAnswers p.box.hasRoom p'.box.hasRoom _ _ hSol hSol'
  simp only [Problem.data, Vec.append_ofReal] at hJoint
  exact ⟨whole, s, s', _, _, hWhole, hs, hs', hSol, hSol', hJoint⟩

end Qp

end RecedingHorizon
