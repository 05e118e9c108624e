import Mathlib.Algebra.BigOperators.Field
import Mathlib.Data.Fin.VecNotation
import Mathlib.LinearAlgebra.Matrix.Block
import Mathlib.LinearAlgebra.Matrix.NonsingularInverse
import Mathlib.LinearAlgebra.Matrix.PosDef
import RecedingHorizon.Linear.Cholesky
import RecedingHorizon.Proofs.RealMatrix

/-!
# The Cholesky factor of a real matrix

A factorization that succeeds on a symmetric real matrix `M` returns a lower triangular
`R` with positive diagonal and `R Rᵀ = M` (`cholesky_ofReal`), and the two
triangular solves with that factor give `M⁻¹ b` (`choleskySolve_ofReal`). A matrix that is
not symmetric is factored like the symmetric one with its lower triangle
(`cholesky_eq_of_lower`).

The factorization splits off the first row and column; its proof is the same
induction. A triangular solve finds one unknown after the other; the unknowns
found so far solve the leading part of the system.
-/

namespace RecedingHorizon

open Extended Matrix

/-- `R` is the lower triangular factor of `M`. -/
structure IsCholeskyFactor {n : ℕ} (R M : Matrix (Fin n) (Fin n) ℝ) : Prop where
  lower : ∀ i j, i < j → R i j = 0
  diagonal_pos : ∀ i, 0 < R i i
  mul_transpose : R * Rᵀ = M

/-! ## Factoring -/

namespace Mat

variable {n : ℕ}

noncomputable def realColumn (M : Matrix (Fin (n + 1)) (Fin (n + 1)) ℝ) : Fin n → ℝ :=
  fun i => vecHead (M i.succ) / Real.sqrt (vecHead (vecHead M))

theorem realColumn_apply (M : Matrix (Fin (n + 1)) (Fin (n + 1)) ℝ) (i : Fin n) :
    realColumn M i = M i.succ 0 / Real.sqrt (M 0 0) := rfl

noncomputable def realRemainder (M : Matrix (Fin (n + 1)) (Fin (n + 1)) ℝ) :
    Matrix (Fin n) (Fin n) ℝ :=
  Matrix.of fun i j => M i.succ j.succ - realColumn M i * realColumn M j

/-- The real form of `bordered`. -/
def realBordered (corner : ℝ) (column : Fin n → ℝ) (rest : Matrix (Fin n) (Fin n) ℝ) :
    Matrix (Fin (n + 1)) (Fin (n + 1)) ℝ :=
  Matrix.of <| Fin.cases (Fin.cases corner fun _ => 0)
    (fun i => Fin.cases (column i) fun j => rest i j)

section Entries

variable (a : ℝ) (c : Fin n → ℝ) (R : Matrix (Fin n) (Fin n) ℝ)

@[simp] theorem realBordered_zero_zero : realBordered a c R 0 0 = a := rfl

@[simp] theorem realBordered_zero_succ (j : Fin n) : realBordered a c R 0 j.succ = 0 := rfl

@[simp] theorem realBordered_succ_zero (i : Fin n) : realBordered a c R i.succ 0 = c i := rfl

@[simp] theorem realBordered_succ_succ (i j : Fin n) :
    realBordered a c R i.succ j.succ = R i j := rfl

end Entries

theorem realRemainder_isSymm {M : Matrix (Fin (n + 1)) (Fin (n + 1)) ℝ} (hM : M.IsSymm) :
    (realRemainder M).IsSymm := by
  ext i j
  simp only [realRemainder, transpose_apply, of_apply, hM.apply i.succ j.succ]
  ring

theorem isCholeskyFactor_bordered {M : Matrix (Fin (n + 1)) (Fin (n + 1)) ℝ} (hM : M.IsSymm)
    (hPivot : 0 < M 0 0) {R : Matrix (Fin n) (Fin n) ℝ}
    (hR : IsCholeskyFactor R (realRemainder M)) :
    IsCholeskyFactor (realBordered (Real.sqrt (M 0 0)) (realColumn M) R) M := by
  have hRoot : 0 < Real.sqrt (M 0 0) := Real.sqrt_pos.mpr hPivot
  have hColumn : ∀ i : Fin n, realColumn M i * Real.sqrt (M 0 0) = M i.succ 0 :=
    fun i => div_mul_cancel₀ _ hRoot.ne'
  have hRest : ∀ i j : Fin n, ∑ k, R i k * R j k = realRemainder M i j := by
    intro i j
    rw [← hR.mul_transpose]
    rfl
  refine ⟨?_, ?_, ?_⟩
  · intro i j hij
    cases i using Fin.cases with
    | zero =>
      cases j using Fin.cases with
      | zero => exact absurd hij (lt_irrefl _)
      | succ j => rfl
    | succ i =>
      cases j using Fin.cases with
      | zero => exact absurd hij (Fin.not_lt_zero _)
      | succ j => exact hR.lower i j (Fin.succ_lt_succ_iff.mp hij)
  · intro i
    cases i using Fin.cases with
    | zero => exact hRoot
    | succ i => exact hR.diagonal_pos i
  · ext i j
    simp only [mul_apply, transpose_apply, Fin.sum_univ_succ]
    cases i using Fin.cases with
    | zero =>
      cases j using Fin.cases with
      | zero => simp [Real.mul_self_sqrt hPivot.le]
      | succ j => simp [mul_comm (Real.sqrt (M 0 0)), hColumn, hM.apply 0 j.succ]
    | succ i =>
      cases j using Fin.cases with
      | zero => simp [hColumn]
      | succ j => simp [hRest, realRemainder]

/-- The form of a symmetric matrix, with the first coordinate apart. -/
theorem dot_mulVec_cons {M : Matrix (Fin (n + 1)) (Fin (n + 1)) ℝ} (hM : M.IsSymm) (a : ℝ)
    (v : Fin n → ℝ) :
    (Fin.cons a v : Fin (n + 1) → ℝ) ⬝ᵥ M *ᵥ Fin.cons a v = M 0 0 * a ^ 2 +
      2 * a * ∑ i, M i.succ 0 * v i + ∑ i, v i * ∑ j, M i.succ j.succ * v j := by
  have hRow : ∀ i, (M *ᵥ (Fin.cons a v : Fin (n + 1) → ℝ)) i =
      M i 0 * a + ∑ j : Fin n, M i j.succ * v j := fun i => Fin.sum_univ_succ _
  have hTail : ∑ i : Fin n, v i * (M i.succ 0 * a + ∑ j : Fin n, M i.succ j.succ * v j) =
      a * ∑ i, M i.succ 0 * v i + ∑ i, v i * ∑ j, M i.succ j.succ * v j := by
    rw [Finset.mul_sum, ← Finset.sum_add_distrib]
    apply Finset.sum_congr rfl
    intro i _
    ring
  rw [dotProduct, Fin.sum_univ_succ]
  simp only [hRow, Fin.cons_zero, Fin.cons_succ]
  rw [hTail]
  simp only [hM.apply (Fin.succ _) 0]
  ring

theorem dot_realRemainder (M : Matrix (Fin (n + 1)) (Fin (n + 1)) ℝ) (v : Fin n → ℝ) :
    v ⬝ᵥ realRemainder M *ᵥ v =
      ∑ i, v i * ∑ j, M i.succ j.succ * v j - (∑ i, realColumn M i * v i) ^ 2 := by
  have hRow : ∀ i, (realRemainder M *ᵥ v) i =
      ∑ j, M i.succ j.succ * v j - realColumn M i * ∑ j, realColumn M j * v j := by
    intro i
    rw [Finset.mul_sum, ← Finset.sum_sub_distrib]
    change ∑ j, realRemainder M i j * v j = _
    apply Finset.sum_congr rfl
    intro j _
    rw [realRemainder, of_apply]
    ring
  rw [pow_two, Finset.sum_mul, ← Finset.sum_sub_distrib]
  apply Finset.sum_congr rfl
  intro i _
  rw [hRow]
  ring

/-- The form of the remainder at `v` is that of the whole matrix at the extension of `v`
that makes it least. -/
theorem dot_realRemainder_eq_cons {M : Matrix (Fin (n + 1)) (Fin (n + 1)) ℝ} (hM : M.IsSymm)
    (hPivot : 0 < M 0 0) (v : Fin n → ℝ) :
    ∃ a : ℝ, v ⬝ᵥ realRemainder M *ᵥ v =
      (Fin.cons a v : Fin (n + 1) → ℝ) ⬝ᵥ M *ᵥ Fin.cons a v := by
  have hColumn : ∑ i, realColumn M i * v i = (∑ i, M i.succ 0 * v i) / Real.sqrt (M 0 0) := by
    rw [Finset.sum_div]
    apply Finset.sum_congr rfl
    intro i _
    rw [realColumn_apply, div_mul_eq_mul_div]
  refine ⟨-(∑ i, M i.succ 0 * v i) / M 0 0, ?_⟩
  rw [dot_realRemainder, dot_mulVec_cons hM, hColumn, div_pow, Real.sq_sqrt hPivot.le]
  field_simp
  ring

theorem realRemainder_posDef {M : Matrix (Fin (n + 1)) (Fin (n + 1)) ℝ} (hM : M.PosDef) :
    (realRemainder M).PosDef := by
  have hSymm : M.IsSymm := by simpa using hM.isHermitian
  refine PosDef.of_dotProduct_mulVec_pos (by simpa using realRemainder_isSymm hSymm)
    fun v hv => ?_
  obtain ⟨a, ha⟩ := dot_realRemainder_eq_cons hSymm hM.diag_pos v
  have hCons : (Fin.cons a v : Fin (n + 1) → ℝ) ≠ 0 :=
    fun h => hv (funext fun i => congrFun h i.succ)
  rw [star_trivial, ha]
  simpa using hM.dotProduct_mulVec_pos hCons

/-- Only the lower triangle is read. -/
theorem cholesky_eq_of_lower {S : Type} [Scalar S] {M K : Mat S n n}
    (h : ∀ i j, j ≤ i → M.entry i j = K.entry i j) : M.cholesky = K.cholesky := by
  induction n with
  | zero => exact congrArg some (Mat.ext fun i => i.elim0)
  | succ n ih =>
    have hCorner : M.entry 0 0 = K.entry 0 0 := h 0 0 le_rfl
    have hColumn : M.factorColumn = K.factorColumn := by
      apply Vec.ext
      intro i
      simp only [factorColumn, Vec.get_ofFn, hCorner, h i.succ 0 (Fin.zero_le _)]
    have hRemainder : M.remainder.cholesky = K.remainder.cholesky := by
      apply ih
      intro i j hij
      simp only [remainder, entry_ofFn, hColumn, h i.succ j.succ (Fin.succ_le_succ_iff.mpr hij)]
    rw [cholesky, cholesky, hCorner, hColumn, hRemainder]

/-- The symmetric matrix with the lower triangle of `M`. -/
def mirror (M : Matrix (Fin n) (Fin n) ℝ) : Matrix (Fin n) (Fin n) ℝ :=
  Matrix.of fun i j => M (max i j) (min i j)

theorem mirror_isSymm (M : Matrix (Fin n) (Fin n) ℝ) : (mirror M).IsSymm := by
  ext i j
  rw [transpose_apply, mirror, of_apply, of_apply, max_comm, min_comm]

theorem mirror_apply_of_le (M : Matrix (Fin n) (Fin n) ℝ) {i j : Fin n} (h : j ≤ i) :
    mirror M i j = M i j := by
  rw [mirror, of_apply, max_eq_left h, min_eq_right h]

theorem mirror_eq_self {M : Matrix (Fin n) (Fin n) ℝ} (hM : M.IsSymm) : mirror M = M := by
  ext i j
  rcases le_total j i with h | h
  · exact mirror_apply_of_le M h
  · rw [mirror, of_apply, max_eq_right h, min_eq_left h, hM.apply]

variable [Precision]

theorem factorColumn_ofReal {M : Matrix (Fin (n + 1)) (Fin (n + 1)) ℝ} (hPivot : 0 < M 0 0) :
    (ofReal M).factorColumn = Vec.ofReal (realColumn M) := by
  have hRoot : Real.sqrt (M 0 0) ≠ 0 := (Real.sqrt_pos.mpr hPivot).ne'
  apply Vec.ext
  intro i
  simp only [factorColumn, entry_ofReal, Vec.get_ofFn, sqrt_finite hPivot.le,
    finite_div hRoot, Vec.get_ofReal, realColumn_apply]

theorem remainder_ofReal {M : Matrix (Fin (n + 1)) (Fin (n + 1)) ℝ} (hPivot : 0 < M 0 0) :
    (ofReal M).remainder = ofReal (realRemainder M) := by
  apply Mat.ext
  intro i j
  simp only [remainder, factorColumn_ofReal hPivot, entry_ofReal, Vec.get_ofReal, entry_ofFn,
    finite_mul, finite_sub]
  rfl

theorem bordered_ofReal (a : ℝ) (c : Fin n → ℝ) (R : Matrix (Fin n) (Fin n) ℝ) :
    bordered (finite a) (Vec.ofReal c) (ofReal R) = ofReal (realBordered a c R) := by
  apply Mat.ext
  intro i j
  rw [bordered, entry_ofFn, entry_ofReal]
  cases i using Fin.cases with
  | zero => cases j using Fin.cases <;> rfl
  | succ i =>
    cases j using Fin.cases with
    | zero => exact Vec.get_ofReal c i
    | succ j => exact entry_ofReal R i j

/-- A factorization of a symmetric real matrix that succeeds returns its factor. -/
theorem cholesky_ofReal {M : Matrix (Fin n) (Fin n) ℝ} (hM : M.IsSymm) {L : Mat Extended n n}
    (h : (ofReal M).cholesky = some L) : ∃ R, L = ofReal R ∧ IsCholeskyFactor R M := by
  induction n with
  | zero =>
    cases h
    exact ⟨M, rfl, fun i => i.elim0, fun i => i.elim0, by ext i; exact i.elim0⟩
  | succ n ih =>
    rw [cholesky, entry_ofReal, zero_eq] at h
    split at h
    · rename_i hPivot
      rw [finite_lt] at hPivot
      rw [remainder_ofReal hPivot, factorColumn_ofReal hPivot, sqrt_finite hPivot.le] at h
      obtain ⟨K, hK, rfl⟩ := Option.map_eq_some_iff.mp h
      obtain ⟨R, rfl, hR⟩ := ih (realRemainder_isSymm hM) hK
      exact ⟨_, bordered_ofReal _ _ R, isCholeskyFactor_bordered hM hPivot hR⟩
    · cases h

theorem exists_cholesky_of_posDef {M : Matrix (Fin n) (Fin n) ℝ} (hM : M.PosDef) :
    ∃ L, (ofReal M).cholesky = some L := by
  induction n with
  | zero => exact ⟨_, rfl⟩
  | succ n ih =>
    obtain ⟨K, hK⟩ := ih (realRemainder_posDef hM)
    have hPivot : 0 < M 0 0 := hM.diag_pos
    refine ⟨bordered (Scalar.sqrt (finite (M 0 0))) (ofReal M).factorColumn K, ?_⟩
    rw [cholesky, entry_ofReal, zero_eq, if_pos (finite_lt.mpr hPivot),
      remainder_ofReal hPivot, hK]
    rfl

theorem hasSoundDiagonal_ofReal {R M : Matrix (Fin n) (Fin n) ℝ} (hR : IsCholeskyFactor R M) :
    (ofReal R).hasSoundDiagonal = true := by
  rw [hasSoundDiagonal, List.all_eq_true]
  intro i _
  rw [entry_ofReal, isFinite_finite, Bool.true_and, Bool.not_eq_true', decide_eq_false_iff_not,
    zero_eq, finite_le, not_le]
  exact hR.diagonal_pos i

end Mat

/-! ## Solving -/

namespace Triangular

variable {n : ℕ}

/-- The coefficients of `Rᵀ` with rows and unknowns counted from the end. -/
def reversed (R : Matrix (Fin n) (Fin n) ℝ) (i j : Fin n) : ℝ := R j.rev i.rev

/-- Each row of `Rᵀ x`, summed from its last unknown. -/
theorem transpose_mulVec_rev (R : Matrix (Fin n) (Fin n) ℝ) (x : Fin n → ℝ) (i : Fin n) :
    (Rᵀ *ᵥ x) i.rev = ∑ j, reversed R i j * x j.rev :=
  (Fintype.sum_equiv Fin.revPerm _ _ fun _ => rfl).symm

section

variable {R M : Matrix (Fin n) (Fin n) ℝ} (hR : IsCholeskyFactor R M)
include hR

theorem reversed_lower (i j : Fin n) (hij : i < j) : reversed R i j = 0 :=
  hR.lower _ _ (Fin.rev_lt_rev.mpr hij)

theorem reversed_ne_zero (i : Fin n) : reversed R i i ≠ 0 := (hR.diagonal_pos i.rev).ne'

end

theorem push_ofReal {k : ℕ} (x : Fin k → ℝ) (r : ℝ) :
    Vector.push (Vec.ofReal x) (finite r) = Vec.ofReal (Fin.snoc x r : Fin (k + 1) → ℝ) := by
  apply Vec.ext
  intro i
  change (Vector.push (Vec.ofReal x) (finite r))[(i : ℕ)] = _
  rw [Vector.getElem_push, Vec.get_ofReal]
  cases i using Fin.lastCases with
  | last => simp
  | cast i =>
    rw [dif_pos (show (i.castSucc : ℕ) < k from i.isLt), Fin.snoc_castSucc]
    exact Vec.get_ofReal x i

variable [Precision]

theorem foldl_sub_finite (f : Fin n → ℝ) (b : ℝ) :
    Fin.foldl n (fun rest j => rest - finite (f j)) (finite b) = finite (b - ∑ j, f j) := by
  induction n with
  | zero => simp
  | succ n ih =>
    rw [Fin.foldl_succ_last, ih, finite_sub, Fin.sum_univ_castSucc, sub_add_eq_sub_sub]

/-- The first `k` unknowns solve the first `k` equations. -/
theorem unknowns_finite {c : Fin n → Fin n → ℝ} (hLower : ∀ i j, i < j → c i j = 0)
    (hDiag : ∀ i, c i i ≠ 0) (b : Fin n → ℝ) (k : ℕ) (hk : k ≤ n) :
    ∃ x : Fin k → ℝ,
      unknowns (fun i j => finite (c i j)) (fun i => finite (b i)) k hk = Vec.ofReal x ∧
      ∀ i : Fin k, ∑ j : Fin k, c (i.castLE hk) (j.castLE hk) * x j = b (i.castLE hk) := by
  induction k with
  | zero => exact ⟨Fin.elim0, rfl, fun i => i.elim0⟩
  | succ k ih =>
    obtain ⟨x, hx, hEq⟩ := ih (Nat.le_of_succ_le hk)
    let i : Fin n := ⟨k, hk⟩
    let r : ℝ := (b i - ∑ j : Fin k, c i (j.castLE (Nat.le_of_succ_le hk)) * x j) / c i i
    refine ⟨Fin.snoc x r, ?_, ?_⟩
    · rw [unknowns, hx]
      simp only [Vec.get_ofReal, finite_mul]
      rw [foldl_sub_finite, finite_div (hDiag _)]
      exact push_ofReal x r
    · intro t
      rw [Fin.sum_univ_castSucc]
      simp only [Fin.snoc_castSucc, Fin.snoc_last]
      cases t using Fin.lastCases with
      | last =>
        have hr : c i i * r = b i - ∑ j : Fin k, c i (j.castLE (Nat.le_of_succ_le hk)) * x j :=
          mul_div_cancel₀ _ (hDiag i)
        change ∑ j : Fin k, c i (j.castLE (Nat.le_of_succ_le hk)) * x j + c i i * r = b i
        rw [hr]
        ring
      | cast t =>
        have hZero : c ((Fin.castSucc t).castLE hk) ((Fin.last k).castLE hk) = 0 :=
          hLower _ _ t.isLt
        rw [hZero, zero_mul, add_zero]
        exact hEq t

theorem solve_finite {c : Fin n → Fin n → ℝ} (hLower : ∀ i j, i < j → c i j = 0)
    (hDiag : ∀ i, c i i ≠ 0) (b : Fin n → ℝ) :
    ∃ x : Fin n → ℝ, solve (fun i j => finite (c i j)) (fun i => finite (b i)) = Vec.ofReal x ∧
      ∀ i, ∑ j, c i j * x j = b i :=
  unknowns_finite hLower hDiag b n le_rfl

variable {R M : Matrix (Fin n) (Fin n) ℝ}

theorem forward_ofReal (hR : IsCholeskyFactor R M) (b : Fin n → ℝ) :
    ∃ x, forward (Mat.ofReal R) (Vec.ofReal b) = Vec.ofReal x ∧ R *ᵥ x = b := by
  obtain ⟨x, hx, hEq⟩ := solve_finite hR.lower (fun i => (hR.diagonal_pos i).ne') b
  refine ⟨x, ?_, funext hEq⟩
  rw [forward, ← hx]
  congr 1
  · funext i j
    exact Mat.entry_ofReal R i j
  · funext i
    exact Vec.get_ofReal b i

theorem backward_ofReal (hR : IsCholeskyFactor R M) (b : Fin n → ℝ) :
    ∃ x, backward (Mat.ofReal R) (Vec.ofReal b) = Vec.ofReal x ∧ Rᵀ *ᵥ x = b := by
  obtain ⟨x, hx, hEq⟩ := solve_finite (reversed_lower hR) (reversed_ne_zero hR) (fun i => b i.rev)
  refine ⟨fun i => x i.rev, ?_, ?_⟩
  · rw [backward]
    simp only [Mat.entry_ofReal, Vec.get_ofReal]
    change (Vec.ofFn fun i : Fin n => (solve (fun i j => finite (reversed R i j)) fun i =>
      finite (b i.rev)).get i.rev) = _
    rw [hx]
    simp only [Vec.get_ofReal]
    rfl
  · funext i
    have hRow := transpose_mulVec_rev R (fun i => x i.rev) i.rev
    simp only [Fin.rev_rev] at hRow
    rw [hRow, hEq, Fin.rev_rev]

end Triangular

namespace IsCholeskyFactor

variable {n : ℕ} {R M : Matrix (Fin n) (Fin n) ℝ}

theorem isUnit_det (hR : IsCholeskyFactor R M) : IsUnit M.det := by
  have hDet : R.det = ∏ i, R i i := det_of_isLowerTriangular R fun i j hij => hR.lower i j hij
  have hPos : 0 < R.det := hDet ▸ Finset.prod_pos fun i _ => hR.diagonal_pos i
  rw [← hR.mul_transpose, det_mul, det_transpose]
  exact (mul_pos hPos hPos).ne'.isUnit

/-- The two triangular solves apply the inverse of the factored matrix. -/
theorem choleskySolve_ofReal [Precision] (hR : IsCholeskyFactor R M) (b : Fin n → ℝ) :
    (Mat.ofReal R).choleskySolve (Vec.ofReal b) = Vec.ofReal (M⁻¹ *ᵥ b) := by
  obtain ⟨v, hv, hForward⟩ := Triangular.forward_ofReal hR b
  obtain ⟨x, hx, hBackward⟩ := Triangular.backward_ofReal hR v
  have hSolved : M *ᵥ x = b := by
    rw [← hR.mul_transpose, ← mulVec_mulVec, hBackward, hForward]
  rw [Mat.choleskySolve, hv, hx, ← hSolved, mulVec_mulVec, nonsing_inv_mul M hR.isUnit_det,
    one_mulVec]

end IsCholeskyFactor

end RecedingHorizon
