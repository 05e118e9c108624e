import RecedingHorizon.Linear.Mat

/-!
# Stage-major stacking

A stacked vector over `N` stages holds the `N` blocks end to end, each of
length `b`. Entry `i` lies in stage `i / b` at offset `i % b`.
-/

namespace RecedingHorizon

namespace Stage

variable {N b : Nat}

theorem block_pos (i : Fin (N * b)) : 0 < b :=
  Nat.pos_of_ne_zero fun h => by
    have := i.isLt
    simp [h] at this

/-- The stage in which a stacked entry lies. -/
def of (i : Fin (N * b)) : Fin N :=
  ⟨i / b, Nat.div_lt_of_lt_mul (Nat.mul_comm N b ▸ i.isLt)⟩

/-- Where in its stage a stacked entry lies. -/
def offset (i : Fin (N * b)) : Fin b := ⟨i % b, Nat.mod_lt _ (block_pos i)⟩

/-- The stacked position of offset `j` in stage `k`. -/
def index (k : Fin N) (j : Fin b) : Fin (N * b) :=
  ⟨b * k + j, by
    calc b * k + j < b * k + b := by omega
      _ = b * (k + 1) := by rw [Nat.mul_succ]
      _ ≤ b * N := Nat.mul_le_mul_left b k.isLt
      _ = N * b := Nat.mul_comm b N⟩

@[simp] theorem of_index (k : Fin N) (j : Fin b) : of (index k j) = k := by
  apply Fin.ext
  simp [of, index, Nat.mul_add_div j.pos, Nat.div_eq_of_lt j.isLt]

@[simp] theorem offset_index (k : Fin N) (j : Fin b) : offset (index k j) = j := by
  apply Fin.ext
  simp [offset, index, Nat.mod_eq_of_lt j.isLt]

@[simp] theorem index_of_offset (i : Fin (N * b)) : index (of i) (offset i) = i := by
  apply Fin.ext
  simp [of, offset, index, Nat.div_add_mod]

end Stage

namespace Vec

variable {S : Type} {N b : Nat}

/-- Stage `k` of a stacked vector. -/
def block (v : Vec S (N * b)) (k : Fin N) : Vec S b := ofFn fun j => v.get (Stage.index k j)

@[simp] theorem get_block (v : Vec S (N * b)) (k : Fin N) (j : Fin b) :
    (v.block k).get j = v.get (Stage.index k j) := get_ofFn ..

/-- `N` copies of a vector end to end. -/
def tile (N : Nat) (v : Vec S b) : Vec S (N * b) := ofFn fun i => v.get (Stage.offset i)

@[simp] theorem get_tile (v : Vec S b) (i : Fin (N * b)) :
    (tile N v).get i = v.get (Stage.offset i) := get_ofFn ..

end Vec

/-- Repeats a vector `times` times, end to end. -/
def tile {S : Type} (v : Array S) (times : Nat) : Array S :=
  (Vec.tile times v.toVector).toArray

namespace Mat

variable {S : Type} {m n : Nat} [Scalar S]

/-- `N` copies of a matrix along the block diagonal. -/
def blockDiagonal (N : Nat) (M : Mat S m n) : Mat S (N * m) (N * n) :=
  ofFn fun i j =>
    if Stage.of i = Stage.of j then M.entry (Stage.offset i) (Stage.offset j) else 0

@[simp] theorem entry_blockDiagonal (M : Mat S m n) (N : Nat) (i : Fin (N * m))
    (j : Fin (N * n)) :
    (M.blockDiagonal N).entry i j =
      if Stage.of i = Stage.of j then M.entry (Stage.offset i) (Stage.offset j) else 0 :=
  entry_ofFn ..

end Mat

end RecedingHorizon
