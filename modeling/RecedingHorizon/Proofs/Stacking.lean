import Mathlib.LinearAlgebra.Matrix.PosDef
import RecedingHorizon.Linear.Stages
import RecedingHorizon.Proofs.RealMatrix

/-!
# Stacked real vectors

A sum over the entries of a stacked vector is a sum over stages of sums over offsets. So
a dot product splits by stages, and copies of a matrix along the block diagonal apply the
matrix to each stage.
-/

namespace RecedingHorizon

open Extended Matrix

namespace Stage

variable {N b m n : ℕ}

/-- Stacked positions as pairs of a stage and an offset. -/
def equiv : Fin N × Fin b ≃ Fin (N * b) where
  toFun kj := index kj.1 kj.2
  invFun i := (of i, offset i)
  left_inv kj := Prod.ext (of_index kj.1 kj.2) (offset_index kj.1 kj.2)
  right_inv := index_of_offset

theorem sum_eq (f : Fin (N * b) → ℝ) : ∑ i, f i = ∑ k : Fin N, ∑ j : Fin b, f (index k j) := by
  rw [← equiv.sum_comp, Fintype.sum_prod_type]
  rfl

def block (v : Fin (N * b) → ℝ) (k : Fin N) : Fin b → ℝ := fun j => v (index k j)

@[simp] theorem block_zero (k : Fin N) : block (0 : Fin (N * b) → ℝ) k = 0 := rfl

theorem block_sub (u v : Fin (N * b) → ℝ) (k : Fin N) : block (u - v) k = block u k - block v k :=
  rfl

theorem ext_block {u v : Fin (N * b) → ℝ} (h : ∀ k, block u k = block v k) : u = v := by
  funext i
  rw [← index_of_offset i]
  exact congrFun (h (of i)) (offset i)

def tile (N : ℕ) (v : Fin b → ℝ) : Fin (N * b) → ℝ := fun i => v (offset i)

@[simp] theorem block_tile (v : Fin b → ℝ) (k : Fin N) : block (tile N v) k = v := by
  funext j
  rw [block, tile, offset_index]

theorem dot_eq (u v : Fin (N * b) → ℝ) : u ⬝ᵥ v = ∑ k, block u k ⬝ᵥ block v k := sum_eq _

def diagonal (N : ℕ) (M : Matrix (Fin m) (Fin n) ℝ) : Matrix (Fin (N * m)) (Fin (N * n)) ℝ :=
  Matrix.of fun i j => if of i = of j then M (offset i) (offset j) else 0

theorem diagonal_transpose (M : Matrix (Fin m) (Fin n) ℝ) :
    (diagonal N M)ᵀ = diagonal N Mᵀ := by
  ext i j
  simp only [diagonal, transpose_apply, of_apply, eq_comm (a := of j)]

theorem diagonal_isSymm {M : Matrix (Fin n) (Fin n) ℝ} (hM : M.IsSymm) :
    (diagonal N M).IsSymm := by
  rw [Matrix.IsSymm, diagonal_transpose, hM.eq]

theorem diagonal_smul (c : ℝ) (M : Matrix (Fin m) (Fin n) ℝ) :
    diagonal N (c • M) = c • diagonal N M := by
  ext i j
  simp only [diagonal, of_apply, Matrix.smul_apply, smul_ite, smul_zero]

theorem block_diagonal_mulVec (M : Matrix (Fin m) (Fin n) ℝ) (v : Fin (N * n) → ℝ) (k : Fin N) :
    block (diagonal N M *ᵥ v) k = M *ᵥ block v k := by
  funext j
  change ∑ i, diagonal N M (index k j) i * v i = ∑ i, M j i * v (index k i)
  rw [sum_eq, Finset.sum_eq_single k]
  · apply Finset.sum_congr rfl
    intro i _
    rw [diagonal, of_apply, of_index, of_index, if_pos rfl, offset_index, offset_index]
  · intro k' _ hk'
    apply Finset.sum_eq_zero
    intro i _
    rw [diagonal, of_apply, of_index, of_index, if_neg hk'.symm, zero_mul]
  · intro hk
    exact absurd (Finset.mem_univ k) hk

theorem diagonal_mul {p : ℕ} (M : Matrix (Fin m) (Fin n) ℝ) (K : Matrix (Fin n) (Fin p) ℝ) :
    diagonal N (M * K) = diagonal N M * diagonal N K := by
  rw [ext_iff_mulVec]
  intro v
  apply ext_block
  intro k
  rw [← mulVec_mulVec, block_diagonal_mulVec, block_diagonal_mulVec, block_diagonal_mulVec,
    mulVec_mulVec]

theorem dot_diagonal_mulVec (M : Matrix (Fin n) (Fin n) ℝ) (v : Fin (N * n) → ℝ) :
    v ⬝ᵥ diagonal N M *ᵥ v = ∑ k, block v k ⬝ᵥ M *ᵥ block v k := by
  rw [dot_eq]
  apply Finset.sum_congr rfl
  intro k _
  rw [block_diagonal_mulVec]

theorem diagonal_posSemidef {M : Matrix (Fin n) (Fin n) ℝ} (hM : M.PosSemidef) :
    (diagonal N M).PosSemidef := by
  have hSymm : M.IsSymm := by simpa using hM.isHermitian
  apply PosSemidef.of_dotProduct_mulVec_nonneg (by simpa using diagonal_isSymm hSymm)
  intro v
  rw [star_trivial, dot_diagonal_mulVec]
  apply Finset.sum_nonneg
  intro k _
  simpa using hM.dotProduct_mulVec_nonneg (block v k)

end Stage

theorem Vec.block_ofReal {N b : ℕ} (v : Fin (N * b) → ℝ) (k : Fin N) :
    (Vec.ofReal v).block k = Vec.ofReal (Stage.block v k) :=
  Vec.ext fun j => by rw [get_block, get_ofReal, get_ofReal, Stage.block]

theorem tile_toArray {S : Type} {b : ℕ} (v : Vec S b) (N : ℕ) :
    tile v.toArray N = (Vec.tile N v).toArray := by
  obtain ⟨entries, rfl⟩ := v
  rfl

theorem Vec.block_tile {S : Type} {N b : ℕ} (v : Vec S b) (k : Fin N) :
    (Vec.tile N v).block k = v :=
  Vec.ext fun j => by rw [get_block, get_tile, Stage.offset_index]

theorem Vec.tile_ofReal {b : ℕ} (v : Fin b → ℝ) (N : ℕ) :
    Vec.tile N (Vec.ofReal v) = Vec.ofReal (Stage.tile N v) :=
  Vec.ext fun i => by rw [get_tile, get_ofReal, get_ofReal, Stage.tile]

theorem tile_ofReal {b : ℕ} (v : Fin b → ℝ) (N : ℕ) :
    tile (Vec.ofReal v).toArray N = (Vec.ofReal (Stage.tile N v)).toArray := by
  rw [tile_toArray, Vec.tile_ofReal]

theorem Mat.blockDiagonal_ofReal [Precision] {m n : ℕ} (N : ℕ) (M : Matrix (Fin m) (Fin n) ℝ) :
    (Mat.ofReal M).blockDiagonal N = Mat.ofReal (Stage.diagonal N M) := by
  apply Mat.ext
  intro i j
  rw [entry_blockDiagonal, entry_ofReal, entry_ofReal, Stage.diagonal, of_apply, zero_eq]
  split <;> rfl

end RecedingHorizon
