import RecedingHorizon.Proofs.Splitting

/-!
# Which systems are factored

Each pivot of a factorization is the form of the system matrix at some vector that is not zero, so
the pivots of a positive definite matrix are positive (`Mat.exists_cholesky_of_posDef`). Conversely
a matrix with a factor has as its form the squared length of the image under the transposed factor,
which is positive away from zero (`IsCholeskyFactor.posDef`).

So the factorization decides positive definiteness exactly, on the semidefinite boundary too, and a
setup with a symmetric cost fails for no other reason (`setup_eq_error`). What it hands out solves
the system: the point of each step is its one solution (`IsFactored.existsUnique_step`).
-/

namespace RecedingHorizon

open Extended Matrix

namespace IsCholeskyFactor

variable {n : ℕ} {R M : Matrix (Fin n) (Fin n) ℝ}

theorem posDef (hR : IsCholeskyFactor R M) : M.PosDef := by
  have hProduct : IsUnit (R.det * Rᵀ.det) := by
    rw [← det_mul, hR.mul_transpose]
    exact hR.isUnit_det
  have hRows : Function.Injective R.vecMul := by
    rw [vecMul_injective_iff_isUnit, isUnit_iff_isUnit_det]
    exact isUnit_of_mul_isUnit_left hProduct
  have hPosDef := PosDef.mul_conjTranspose_self R hRows
  rwa [conjTranspose_eq_transpose_of_trivial, hR.mul_transpose] at hPosDef

end IsCholeskyFactor

namespace Mat

variable {n : ℕ} {M : Matrix (Fin n) (Fin n) ℝ}

/-- The form of a positive definite matrix, without the conjugation. -/
theorem posDef_iff_form_pos (hM : M.IsSymm) : M.PosDef ↔ ∀ v ≠ 0, 0 < v ⬝ᵥ M *ᵥ v := by
  rw [posDef_iff_dotProduct_mulVec]
  simp only [star_trivial]
  exact and_iff_right (by simpa using hM)

theorem exists_cholesky_iff_posDef [Precision] (hM : M.IsSymm) :
    (∃ L, (ofReal M).cholesky = some L) ↔ M.PosDef := by
  constructor
  · rintro ⟨L, hL⟩
    obtain ⟨R, -, hR⟩ := cholesky_ofReal hM hL
    exact hR.posDef
  · exact exists_cholesky_of_posDef

end Mat

namespace Qp

variable [Precision] {n m : ℕ} {p : Problem n m} {t : Settings ℝ} {s : Solver Extended n m}

namespace Problem

/-- A symmetric cost and valid settings leave the verdict to the factorization. -/
theorem setup_eq (hP : p.P.IsSymm) (hSettings : t.ofReal.validate = .ok ()) :
    p.setup t = (fun L => {
        cost := Mat.ofReal p.P
        constraints := Mat.ofReal p.A
        settings := t.ofReal
        factor := L }) <$>
      factorize (Mat.ofReal p.P) (Mat.ofReal p.A) (finite t.rho) (finite t.sigma) := by
  have hCost : Check.finiteEntries "P" (Mat.ofReal p.P) = .ok () :=
    Check.finiteEntries_eq_ok_iff.mpr (Mat.isFinite_ofReal p.P)
  have hRows : Check.finiteEntries "A" (Mat.ofReal p.A) = .ok () :=
    Check.finiteEntries_eq_ok_iff.mpr (Mat.isFinite_ofReal p.A)
  have hSymmetric : Check.symmetric "P" (Mat.ofReal p.P) = .ok () :=
    Check.symmetric_eq_ok_iff.mpr (Mat.isNearlySymmetric_ofReal hP)
  rw [setup, Solver.setup, Solver.prepare, hSettings, hCost, hRows, hSymmetric]
  rfl

theorem setup_eq_error (hP : p.P.IsSymm) (hSettings : t.ofReal.validate = .ok ())
    (hNot : ¬ (p.system t).PosDef) :
    p.setup t = .error (.factorization n .notPositiveDefinite) := by
  have hNone : (Mat.ofReal (p.system t)).cholesky = none := by
    rw [Option.eq_none_iff_forall_ne_some]
    intro L hL
    exact hNot ((Mat.exists_cholesky_iff_posDef (system_isSymm hP t)).mp ⟨L, hL⟩)
  rw [setup_eq hP hSettings, factorize, systemMatrix_ofReal, hNone]
  rfl

theorem exists_setup_iff_posDef (hP : p.P.IsSymm) (hSettings : t.ofReal.validate = .ok ()) :
    (∃ s, p.setup t = .ok s) ↔ (p.system t).PosDef := by
  constructor
  · rintro ⟨s, hs⟩
    obtain ⟨R, -, hR⟩ := (isFactored_of_setup hs hP).factor
    exact hR.posDef
  · exact exists_setup hP (Settings.validate_ofReal_eq_ok_iff.mp hSettings)

end Problem

/-- The point that a step finds is the one solution of its system. -/
theorem Solver.IsFactored.existsUnique_step (h : s.IsFactored p t) (u : Point n m) :
    ∃ x, (s.step p.data (.ofReal u)).x = Vec.ofReal x ∧
      ∀ x', p.system t *ᵥ x' = t.sigma • u.x - p.q + p.Aᵀ *ᵥ (t.rho • u.w - u.y) ↔ x' = x := by
  refine ⟨(p.step t u).x, ?_, fun x' => ?_⟩
  · rw [h.step_ofReal]
    rfl
  · constructor
    · intro hx'
      rw [Problem.step, ← hx', mulVec_mulVec, nonsing_inv_mul _ h.isUnit_det, one_mulVec]
    · rintro rfl
      rw [Problem.step, mulVec_mulVec, mul_nonsing_inv _ h.isUnit_det, one_mulVec]

namespace Problem

/-- Minimize `½ (x + y)²` with `x + y` for its row. The form vanishes where `x + y = 0`. -/
def valley : Problem 2 1 where
  P := !![1, 1; 1, 1]
  A := !![1, 1]
  q := 0
  box := .univ 1

omit [Precision] in
theorem valley_posSemidef : valley.P.PosSemidef := by
  have hSquare : valley.P = valley.Aᴴ * valley.A := by
    ext i j
    fin_cases i <;> fin_cases j <;> simp [valley, Matrix.mul_apply]
  rw [hSquare]
  exact posSemidef_conjTranspose_mul_self _

end Problem

end Qp

/-- **What a setup decides.** A setup with a symmetric cost and valid settings succeeds exactly when
the form of `P + ρ AᵀA + σ I` is positive away from zero, and otherwise reports the factorization.
On success it holds the factor of that matrix, and the point of every step is the one solution of
its system. A semidefinite cost with a positive `σ` always succeeds. -/
theorem setup_decides_form_pos [Precision] {n m : ℕ} {p : Qp.Problem n m} {t : Settings ℝ}
    (hP : p.P.IsSymm) (hSettings : t.ofReal.validate = .ok ()) :
    ((∃ s, p.setup t = .ok s) ↔ ∀ v ≠ 0, 0 < v ⬝ᵥ p.system t *ᵥ v) ∧
    (¬ (∀ v ≠ 0, 0 < v ⬝ᵥ p.system t *ᵥ v) →
      p.setup t = .error (.factorization n .notPositiveDefinite)) ∧
    (∀ s, p.setup t = .ok s →
      ∃ L, s.factor = Mat.ofReal L ∧ (∀ i j, i < j → L i j = 0) ∧ (∀ i, 0 < L i i) ∧
        L * Lᵀ = p.system t ∧
        ∀ u : Qp.Point n m, ∃ x, (s.step p.data (.ofReal u)).x = Vec.ofReal x ∧
          ∀ x', p.system t *ᵥ x' =
            t.sigma • u.x - p.q + p.Aᵀ *ᵥ (t.rho • u.w - u.y) ↔ x' = x) ∧
    (p.P.PosSemidef → 0 < t.sigma → ∃ s, p.setup t = .ok s) := by
  have hForm := Mat.posDef_iff_form_pos (Qp.Problem.system_isSymm hP t)
  have hSucceeds := Qp.Problem.exists_setup_iff_posDef hP hSettings
  refine ⟨hSucceeds.trans hForm, fun hNot => ?_, fun s hs => ?_, fun hConvex hSigma => ?_⟩
  · exact Qp.Problem.setup_eq_error hP hSettings (mt hForm.mp hNot)
  · have hFactored := Qp.Problem.isFactored_of_setup hs hP
    obtain ⟨L, hFactor, hL⟩ := hFactored.factor
    exact ⟨L, hFactor, hL.lower, hL.diagonal_pos, hL.mul_transpose, hFactored.existsUnique_step⟩
  · have hRho := (Settings.validate_ofReal_eq_ok_iff.mp hSettings).rho_pos
    exact hSucceeds.mpr (Qp.Problem.system_posDef hConvex hRho.le hSigma)

/-- A semidefinite system is refused without a regularization and factored with one. -/
theorem valley_setups :
    letI := Precision.double
    let bare : Settings ℝ := { Settings.standard with sigma := 0 }
    Qp.Problem.valley.setup bare = .error (.factorization 2 .notPositiveDefinite) ∧
      ∃ s, Qp.Problem.valley.setup .standard = .ok s := by
  let _ := Precision.double
  intro bare
  have hSymm : Qp.Problem.valley.P.IsSymm := by simpa using Qp.Problem.valley_posSemidef.isHermitian
  have hStandard : (Settings.ofReal .standard).validate = .ok () :=
    Settings.validate_ofReal_eq_ok_iff.mpr Settings.standard_isValid
  have hBare : bare.ofReal.validate = .ok () :=
    Settings.validate_ofReal_eq_ok_iff.mpr { Settings.standard_isValid with sigma_nonneg := le_rfl }
  have hFlat : ¬ ∀ v ≠ 0, 0 < v ⬝ᵥ Qp.Problem.valley.system bare *ᵥ v := by
    intro hPos
    have hBottom := hPos ![1, -1] (by simp)
    simp [Qp.Problem.system, Qp.Problem.valley, bare, Matrix.mulVec, Matrix.mul_apply,
      dotProduct, Fin.sum_univ_two] at hBottom
  exact ⟨(setup_decides_form_pos hSymm hBare).2.1 hFlat,
    (setup_decides_form_pos hSymm hStandard).2.2.2 Qp.Problem.valley_posSemidef
      (by norm_num [Settings.standard])⟩

end RecedingHorizon
