import Mathlib.Analysis.Normed.Group.Constructions
import Mathlib.LinearAlgebra.Matrix.DotProduct
import Mathlib.LinearAlgebra.Matrix.Symmetric
import RecedingHorizon.Linear.Mat
import RecedingHorizon.Proofs.Extended

/-!
# Vectors and matrices of real numbers

`Vec.ofReal` and `Mat.ofReal` take the functions and matrices of linear algebra to the
stored vectors and matrices of extended numbers. Each operation on stored data is
the corresponding operation of linear algebra there, in one lemma that moves
`ofReal` outward.
-/

namespace RecedingHorizon

open Extended Matrix

theorem dot_self_nonneg {n : ℕ} (v : Fin n → ℝ) : 0 ≤ v ⬝ᵥ v :=
  Finset.sum_nonneg fun i _ => mul_self_nonneg (v i)

theorem dot_self_add {n : ℕ} (u v : Fin n → ℝ) :
    (u + v) ⬝ᵥ (u + v) = u ⬝ᵥ u + 2 * (u ⬝ᵥ v) + v ⬝ᵥ v := by
  rw [add_dotProduct, dotProduct_add, dotProduct_add, dotProduct_comm v u]
  ring

theorem dot_self_sub {n : ℕ} (u v : Fin n → ℝ) :
    (u - v) ⬝ᵥ (u - v) = u ⬝ᵥ u - 2 * (u ⬝ᵥ v) + v ⬝ᵥ v := by
  rw [sub_dotProduct, dotProduct_sub, dotProduct_sub, dotProduct_comm v u]
  ring

theorem dot_mulVec_comm {n : ℕ} {M : Matrix (Fin n) (Fin n) ℝ} (hM : M.IsSymm)
    (u v : Fin n → ℝ) : u ⬝ᵥ M *ᵥ v = v ⬝ᵥ M *ᵥ u := by
  rw [dotProduct_mulVec, ← mulVec_transpose, hM.eq, dotProduct_comm]

theorem dot_mulVec_add {n : ℕ} {M : Matrix (Fin n) (Fin n) ℝ} (hM : M.IsSymm)
    (u v : Fin n → ℝ) :
    (u + v) ⬝ᵥ M *ᵥ (u + v) = u ⬝ᵥ M *ᵥ u + 2 * (u ⬝ᵥ M *ᵥ v) + v ⬝ᵥ M *ᵥ v := by
  rw [mulVec_add, add_dotProduct, dotProduct_add, dotProduct_add, dot_mulVec_comm hM v u]
  ring

theorem dot_mulVec_sub {n : ℕ} {M : Matrix (Fin n) (Fin n) ℝ} (hM : M.IsSymm)
    (u v : Fin n → ℝ) :
    (u - v) ⬝ᵥ M *ᵥ (u - v) = u ⬝ᵥ M *ᵥ u - 2 * (u ⬝ᵥ M *ᵥ v) + v ⬝ᵥ M *ᵥ v := by
  rw [mulVec_sub, sub_dotProduct, dotProduct_sub, dotProduct_sub, dot_mulVec_comm hM v u]
  ring

theorem transpose_mulVec_dot {m n : ℕ} (M : Matrix (Fin m) (Fin n) ℝ) (u : Fin m → ℝ)
    (v : Fin n → ℝ) : (Mᵀ *ᵥ u) ⬝ᵥ v = u ⬝ᵥ M *ᵥ v := by
  rw [mulVec_transpose, dotProduct_mulVec]

/-- A dot product is at most the sum of one factor's absolute values times the norm of the
other. -/
theorem abs_dot_le {n : ℕ} (u v : Fin n → ℝ) : |u ⬝ᵥ v| ≤ (∑ i, |u i|) * ‖v‖ := by
  rw [Finset.sum_mul]
  refine (Finset.abs_sum_le_sum_abs _ _).trans (Finset.sum_le_sum fun i _ => ?_)
  rw [abs_mul]
  exact mul_le_mul_of_nonneg_left (norm_le_pi_norm v i) (abs_nonneg _)

theorem norm_le_sqrt_dot_self {n : ℕ} (v : Fin n → ℝ) : ‖v‖ ≤ Real.sqrt (v ⬝ᵥ v) := by
  apply (pi_norm_le_iff_of_nonneg (Real.sqrt_nonneg _)).mpr
  intro i
  have hTerm : v i * v i ≤ v ⬝ᵥ v :=
    Finset.single_le_sum (fun j _ => mul_self_nonneg (v j)) (Finset.mem_univ i)
  exact Real.abs_le_sqrt (by rwa [pow_two])

theorem norm_sq_le_dot_self {n : ℕ} (v : Fin n → ℝ) : ‖v‖ ^ 2 ≤ v ⬝ᵥ v := by
  calc
    ‖v‖ ^ 2 ≤ Real.sqrt (v ⬝ᵥ v) ^ 2 := pow_le_pow_left₀ (norm_nonneg v) (norm_le_sqrt_dot_self v) 2
    _ = v ⬝ᵥ v := Real.sq_sqrt (dot_self_nonneg v)

/-! ## Vectors end to end -/

section Append

variable {m n : ℕ}

theorem append_eq_elim (u : Fin m → ℝ) (v : Fin n → ℝ) :
    Fin.append u v = Sum.elim u v ∘ finSumFinEquiv.symm := by
  rw [Equiv.eq_comp_symm]
  exact Fin.append_comp_sumElim

theorem append_ne_zero_iff {u : Fin m → ℝ} {v : Fin n → ℝ} :
    Fin.append u v ≠ 0 ↔ u ≠ 0 ∨ v ≠ 0 := by
  rw [← not_and_or, not_iff_not, funext_iff, funext_iff, funext_iff, Fin.forall_fin_add]
  simp only [Fin.append_left, Fin.append_right, Pi.zero_apply]

theorem append_add_append (u u' : Fin m → ℝ) (v v' : Fin n → ℝ) :
    Fin.append u v + Fin.append u' v' = Fin.append (u + u') (v + v') := by
  funext i
  cases i using Fin.addCases with
  | left i => simp only [Pi.add_apply, Fin.append_left]
  | right i => simp only [Pi.add_apply, Fin.append_right]

theorem smul_append (c : ℝ) (u : Fin m → ℝ) (v : Fin n → ℝ) :
    c • Fin.append u v = Fin.append (c • u) (c • v) := by
  funext i
  cases i using Fin.addCases with
  | left i => simp only [Pi.smul_apply, Fin.append_left]
  | right i => simp only [Pi.smul_apply, Fin.append_right]

theorem append_sub_append (u u' : Fin m → ℝ) (v v' : Fin n → ℝ) :
    Fin.append u v - Fin.append u' v' = Fin.append (u - u') (v - v') := by
  rw [sub_eq_add_neg, ← neg_one_smul ℝ, smul_append, append_add_append, neg_one_smul, neg_one_smul,
    ← sub_eq_add_neg, ← sub_eq_add_neg]

theorem append_dot_append (u u' : Fin m → ℝ) (v v' : Fin n → ℝ) :
    Fin.append u v ⬝ᵥ Fin.append u' v' = u ⬝ᵥ u' + v ⬝ᵥ v' := by
  simp only [dotProduct, Fin.sum_univ_add, Fin.append_left, Fin.append_right]

theorem norm_append (u : Fin m → ℝ) (v : Fin n → ℝ) : ‖Fin.append u v‖ = max ‖u‖ ‖v‖ := by
  have hMax : 0 ≤ max ‖u‖ ‖v‖ := (norm_nonneg u).trans (le_max_left _ _)
  apply le_antisymm
  · rw [pi_norm_le_iff_of_nonneg hMax, Fin.forall_fin_add]
    simp only [Fin.append_left, Fin.append_right]
    exact ⟨fun i => (norm_le_pi_norm u i).trans (le_max_left _ _),
      fun i => (norm_le_pi_norm v i).trans (le_max_right _ _)⟩
  · have hEntries := (pi_norm_le_iff_of_nonneg (norm_nonneg (Fin.append u v))).mp le_rfl
    rw [Fin.forall_fin_add] at hEntries
    simp only [Fin.append_left, Fin.append_right] at hEntries
    exact max_le ((pi_norm_le_iff_of_nonneg (norm_nonneg _)).mpr hEntries.1)
      ((pi_norm_le_iff_of_nonneg (norm_nonneg _)).mpr hEntries.2)

end Append

/-! ## Stored vectors -/

namespace Vec

variable {n m : ℕ}

def ofReal (v : Fin n → ℝ) : Vec Extended n := ofFn fun i => finite (v i)

@[simp] theorem get_ofReal (v : Fin n → ℝ) (i : Fin n) : (ofReal v).get i = finite (v i) :=
  get_ofFn ..

theorem ofReal_injective : Function.Injective (ofReal (n := n)) := by
  intro u v h
  funext i
  have hi := congrArg (fun w : Vec Extended n => w.get i) h
  simpa using hi

@[simp] theorem ofReal_inj {u v : Fin n → ℝ} : ofReal u = ofReal v ↔ u = v :=
  ofReal_injective.eq_iff

theorem toList_ofReal (v : Fin n → ℝ) :
    (ofReal v).toList = ((List.finRange n).map v).map finite := by
  rw [List.map_map]
  change (Vector.ofFn fun i => finite (v i)).toList = _
  rw [Vector.toList_ofFn, List.ofFn_eq_map]
  rfl

theorem get_append_castAdd {S : Type} (u : Vec S n) (v : Vec S m) (i : Fin n) :
    Vector.get (u ++ v) (Fin.castAdd m i) = u.get i := by
  change (u ++ v)[(i : ℕ)] = u[(i : ℕ)]
  rw [Vector.getElem_append_left i.isLt]

theorem get_append_natAdd {S : Type} (u : Vec S n) (v : Vec S m) (i : Fin m) :
    Vector.get (u ++ v) (Fin.natAdd n i) = v.get i := by
  change (u ++ v)[n + (i : ℕ)] = v[(i : ℕ)]
  rw [Vector.getElem_append_right (by omega) (Nat.le_add_right n i)]
  simp only [Nat.add_sub_cancel_left]

theorem append_ofReal (u : Fin n → ℝ) (v : Fin m → ℝ) :
    ofReal u ++ ofReal v = ofReal (Fin.append u v) := by
  apply Vec.ext
  intro i
  rw [get_ofReal]
  cases i using Fin.addCases with
  | left i => rw [get_append_castAdd, get_ofReal, Fin.append_left]
  | right i => rw [get_append_natAdd, get_ofReal, Fin.append_right]

variable [Precision]

@[simp] theorem isFinite_ofReal (v : Fin n → ℝ) : (ofReal v).isFinite = true := by
  rw [isFinite_iff]
  intro i
  simp

theorem exists_ofReal {v : Vec Extended n} (h : v.isFinite = true) : ∃ r, v = ofReal r := by
  rw [isFinite_iff] at h
  choose r hr using fun i => Extended.isFinite_iff.mp (h i)
  exact ⟨r, Vec.ext fun i => by rw [hr, get_ofReal]⟩

@[simp] theorem zeros_eq : zeros n = ofReal (0 : Fin n → ℝ) := rfl

@[simp] theorem add_ofReal (u v : Fin n → ℝ) : (ofReal u).add (ofReal v) = ofReal (u + v) :=
  Vec.ext fun i => by simp

@[simp] theorem sub_ofReal (u v : Fin n → ℝ) : (ofReal u).sub (ofReal v) = ofReal (u - v) :=
  Vec.ext fun i => by simp

@[simp] theorem dot_ofReal (u v : Fin n → ℝ) : (ofReal u).dot (ofReal v) = finite (u ⬝ᵥ v) := by
  simp only [dot, get_ofReal, finite_mul, sum_finite]
  rfl

@[simp] theorem maxAbs_ofReal (v : Fin n → ℝ) : (ofReal v).maxAbs = finite ‖v‖ := by
  rw [maxAbs, toList_ofReal]
  apply peak_finite
  · intro y hy
    obtain ⟨i, -, rfl⟩ := List.mem_map.mp hy
    exact norm_le_pi_norm v i
  · intro b hb hAll
    apply (pi_norm_le_iff_of_nonneg hb).mpr
    intro i
    exact hAll _ (List.mem_map.mpr ⟨i, List.mem_finRange i, rfl⟩)
  · exact norm_nonneg v

end Vec

/-! ## Stored matrices -/

namespace Mat

variable {m n p : ℕ}

def ofReal (M : Matrix (Fin m) (Fin n) ℝ) : Mat Extended m n := ofFn fun i j => finite (M i j)

@[simp] theorem entry_ofReal (M : Matrix (Fin m) (Fin n) ℝ) (i : Fin m) (j : Fin n) :
    (ofReal M).entry i j = finite (M i j) := entry_ofFn ..

theorem ofReal_injective : Function.Injective (ofReal (m := m) (n := n)) := by
  intro M N h
  ext i j
  have hij := congrArg (fun K : Mat Extended m n => K.entry i j) h
  simpa using hij

@[simp] theorem ofReal_inj {M N : Matrix (Fin m) (Fin n) ℝ} : ofReal M = ofReal N ↔ M = N :=
  ofReal_injective.eq_iff

@[simp] theorem row_ofReal (M : Matrix (Fin m) (Fin n) ℝ) (i : Fin m) :
    (ofReal M).row i = Vec.ofReal (M i) :=
  Vec.ext fun j => by simp

@[simp] theorem transpose_ofReal (M : Matrix (Fin m) (Fin n) ℝ) :
    (ofReal M).transpose = ofReal Mᵀ :=
  Mat.ext fun i j => by simp

theorem byColumns_ofReal (M : Matrix (Fin m) (Fin n) ℝ) :
    (ofReal M).byColumns =
      ((List.finRange n).flatMap fun j => (List.finRange m).map fun i => M i j).map finite := by
  rw [byColumns, List.map_flatMap]
  simp only [List.map_map, entry_ofReal]
  rfl

theorem entry_above_castAdd {S : Type} (top : Mat S m n) (bottom : Mat S p n) (i : Fin m)
    (j : Fin n) : (top.above bottom).entry (Fin.castAdd p i) j = top.entry i j :=
  congrArg (fun row : Vec S n => row.get j) (Vec.get_append_castAdd top.rows bottom.rows i)

theorem entry_above_natAdd {S : Type} (top : Mat S m n) (bottom : Mat S p n) (i : Fin p)
    (j : Fin n) : (top.above bottom).entry (Fin.natAdd m i) j = bottom.entry i j :=
  congrArg (fun row : Vec S n => row.get j) (Vec.get_append_natAdd top.rows bottom.rows i)

/-- The rows of one real matrix above those of another. -/
def stack (M : Matrix (Fin m) (Fin n) ℝ) (K : Matrix (Fin p) (Fin n) ℝ) :
    Matrix (Fin (m + p)) (Fin n) ℝ :=
  Matrix.of fun i j => Fin.addCases (fun i => M i j) (fun i => K i j) i

theorem stack_castAdd (M : Matrix (Fin m) (Fin n) ℝ) (K : Matrix (Fin p) (Fin n) ℝ) (i : Fin m)
    (j : Fin n) : stack M K (Fin.castAdd p i) j = M i j := by
  rw [stack, of_apply, Fin.addCases_left]

theorem stack_natAdd (M : Matrix (Fin m) (Fin n) ℝ) (K : Matrix (Fin p) (Fin n) ℝ) (i : Fin p)
    (j : Fin n) : stack M K (Fin.natAdd m i) j = K i j := by
  rw [stack, of_apply, Fin.addCases_right]

theorem above_ofReal (M : Matrix (Fin m) (Fin n) ℝ) (K : Matrix (Fin p) (Fin n) ℝ) :
    (ofReal M).above (ofReal K) = ofReal (stack M K) := by
  apply Mat.ext
  intro i j
  rw [entry_ofReal]
  cases i using Fin.addCases with
  | left i => rw [entry_above_castAdd, entry_ofReal, stack_castAdd]
  | right i => rw [entry_above_natAdd, entry_ofReal, stack_natAdd]

theorem stack_mulVec (M : Matrix (Fin m) (Fin n) ℝ) (K : Matrix (Fin p) (Fin n) ℝ)
    (v : Fin n → ℝ) : stack M K *ᵥ v = Fin.append (M *ᵥ v) (K *ᵥ v) := by
  funext i
  cases i using Fin.addCases with
  | left i =>
    rw [Fin.append_left]
    exact congrArg (· ⬝ᵥ v) (funext (stack_castAdd M K i))
  | right i =>
    rw [Fin.append_right]
    exact congrArg (· ⬝ᵥ v) (funext (stack_natAdd M K i))

theorem dot_le_dot_stack (M : Matrix (Fin m) (Fin n) ℝ) (K : Matrix (Fin p) (Fin n) ℝ)
    (v : Fin n → ℝ) : (M *ᵥ v) ⬝ᵥ (M *ᵥ v) ≤ (stack M K *ᵥ v) ⬝ᵥ (stack M K *ᵥ v) := by
  rw [stack_mulVec, append_dot_append]
  exact le_add_of_nonneg_right (dot_self_nonneg _)

variable [Precision]

@[simp] theorem identity_ofReal (n : ℕ) : identity n = ofReal (1 : Matrix (Fin n) (Fin n) ℝ) := by
  apply Mat.ext
  intro i j
  rw [entry_identity, entry_ofReal, one_eq, zero_eq, one_apply]
  split <;> rfl

@[simp] theorem isFinite_ofReal (M : Matrix (Fin m) (Fin n) ℝ) :
    (ofReal M).isFinite = true := by
  rw [isFinite_iff]
  intro i j
  simp

theorem exists_ofReal {M : Mat Extended m n} (h : M.isFinite = true) : ∃ R, M = ofReal R := by
  rw [isFinite_iff] at h
  choose R hR using fun i j => Extended.isFinite_iff.mp (h i j)
  exact ⟨Matrix.of R, Mat.ext fun i j => by rw [hR, entry_ofReal]; rfl⟩

@[simp] theorem add_ofReal (M N : Matrix (Fin m) (Fin n) ℝ) :
    (ofReal M).add (ofReal N) = ofReal (M + N) :=
  Mat.ext fun i j => by simp

@[simp] theorem sub_ofReal (M N : Matrix (Fin m) (Fin n) ℝ) :
    (ofReal M).sub (ofReal N) = ofReal (M - N) :=
  Mat.ext fun i j => by simp

@[simp] theorem scale_ofReal (M : Matrix (Fin m) (Fin n) ℝ) (c : ℝ) :
    (ofReal M).scale (finite c) = ofReal (c • M) :=
  Mat.ext fun i j => by simp [mul_comm]

@[simp] theorem shift_ofReal (M : Matrix (Fin n) (Fin n) ℝ) (c : ℝ) :
    (ofReal M).shift (finite c) = ofReal (M + c • (1 : Matrix (Fin n) (Fin n) ℝ)) := by
  apply Mat.ext
  intro i j
  by_cases h : i = j
  · simp [h]
  · simp [h, Matrix.one_apply_ne h]

@[simp] theorem mul_ofReal (M : Matrix (Fin m) (Fin n) ℝ) (N : Matrix (Fin n) (Fin p) ℝ) :
    (ofReal M).mul (ofReal N) = ofReal (M * N) :=
  Mat.ext fun i j => by simp only [entry_mul, entry_ofReal, finite_mul, sum_finite]; rfl

@[simp] theorem transposeMul_ofReal (M : Matrix (Fin n) (Fin m) ℝ)
    (N : Matrix (Fin n) (Fin p) ℝ) : (ofReal M).transposeMul (ofReal N) = ofReal (Mᵀ * N) := by
  rw [transposeMul, transpose_ofReal, mul_ofReal]

@[simp] theorem mulVec_ofReal (M : Matrix (Fin m) (Fin n) ℝ) (v : Fin n → ℝ) :
    (ofReal M).mulVec (Vec.ofReal v) = Vec.ofReal (M *ᵥ v) :=
  Vec.ext fun i => by
    simp only [get_mulVec, entry_ofReal, Vec.get_ofReal, finite_mul, sum_finite]
    rfl

@[simp] theorem transposeMulVec_ofReal (M : Matrix (Fin m) (Fin n) ℝ) (v : Fin m → ℝ) :
    (ofReal M).transposeMulVec (Vec.ofReal v) = Vec.ofReal (Mᵀ *ᵥ v) :=
  Vec.ext fun j => by
    simp only [get_transposeMulVec, entry_ofReal, Vec.get_ofReal, finite_mul, sum_finite]
    rfl

/-- The largest absolute value is the norm of the matrix as a function of both indices. -/
theorem maxAbs_ofReal (M : Matrix (Fin m) (Fin n) ℝ) :
    (ofReal M).maxAbs = finite ‖fun i j => M i j‖ := by
  rw [maxAbs, byColumns_ofReal]
  apply peak_finite
  · intro y hy
    obtain ⟨j, -, hj⟩ := List.mem_flatMap.mp hy
    obtain ⟨i, -, rfl⟩ := List.mem_map.mp hj
    exact (norm_le_pi_norm (fun j => M i j) j).trans (norm_le_pi_norm (fun i j => M i j) i)
  · intro b hb hAll
    refine (pi_norm_le_iff_of_nonneg hb).mpr fun i => (pi_norm_le_iff_of_nonneg hb).mpr fun j => ?_
    refine hAll _ (List.mem_flatMap.mpr ⟨j, List.mem_finRange j, ?_⟩)
    exact List.mem_map.mpr ⟨i, List.mem_finRange i, rfl⟩
  · exact norm_nonneg _

/-- The asymmetry that passes for round-off. -/
noncomputable def symmetryTolerance (M : Matrix (Fin n) (Fin n) ℝ) : ℝ :=
  Real.sqrt Precision.epsilon * max ‖fun i j => M i j‖ 1

theorem symmetryTolerance_nonneg (M : Matrix (Fin n) (Fin n) ℝ) : 0 ≤ symmetryTolerance M :=
  mul_nonneg (Real.sqrt_nonneg _) (le_max_of_le_right zero_le_one)

/-- A share of every entry passes. -/
theorem sqrt_epsilon_mul_abs_le (M : Matrix (Fin n) (Fin n) ℝ) (i j : Fin n) :
    Real.sqrt Precision.epsilon * |M i j| ≤ symmetryTolerance M := by
  have hEntry : |M i j| ≤ ‖fun i j => M i j‖ :=
    (norm_le_pi_norm (fun j => M i j) j).trans (norm_le_pi_norm (fun i j => M i j) i)
  exact mul_le_mul_of_nonneg_left (hEntry.trans (le_max_left _ _)) (Real.sqrt_nonneg _)

theorem isNearlySymmetric_ofReal_iff {M : Matrix (Fin n) (Fin n) ℝ} :
    (ofReal M).isNearlySymmetric = true ↔ ∀ i j, |M i j - M j i| ≤ symmetryTolerance M := by
  have hEpsilon : Scalar.sqrt (Scalar.epsilon : Extended) = finite (Real.sqrt Precision.epsilon) :=
    sqrt_finite Precision.epsilon_pos.le
  simp only [isNearlySymmetric, transpose_ofReal, sub_ofReal, maxAbs_ofReal, hEpsilon, one_eq,
    larger_finite, finite_mul, finite_lt, Bool.not_eq_true', decide_eq_false_iff_not, not_lt]
  rw [← symmetryTolerance, pi_norm_le_iff_of_nonneg (symmetryTolerance_nonneg M)]
  exact forall_congr' fun i => pi_norm_le_iff_of_nonneg (symmetryTolerance_nonneg M)

theorem isNearlySymmetric_ofReal {M : Matrix (Fin n) (Fin n) ℝ} (hM : M.IsSymm) :
    (ofReal M).isNearlySymmetric = true := by
  rw [isNearlySymmetric_ofReal_iff]
  intro i j
  rw [hM.apply, sub_self, abs_zero]
  exact symmetryTolerance_nonneg M

end Mat

end RecedingHorizon
