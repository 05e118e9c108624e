import RecedingHorizon.Linear.Mat

/-!
# Cholesky factors and triangular systems

The factor is found column by column: the first column from the first pivot,
the others from the matrix that is left when the first column's share is taken
away. Only the lower triangle is read.

A triangular system is solved from its first unknown on. Back substitution is
the same process with rows and unknowns counted from the end.
-/

namespace RecedingHorizon

namespace Mat

variable {S : Type} {n : Nat} [Scalar S]

/-- The lower triangular matrix with `corner` and `column` as its first column
and `rest` below and to the right. -/
def bordered (corner : S) (column : Vec S n) (rest : Mat S n n) : Mat S (n + 1) (n + 1) :=
  ofFn <| Fin.cases
    (Fin.cases corner fun _ => 0)
    (fun i => Fin.cases (column.get i) fun j => rest.entry i j)

/-- The first column of the factor below its corner. -/
def factorColumn (M : Mat S (n + 1) (n + 1)) : Vec S n :=
  let root := Scalar.sqrt (M.entry 0 0)
  Vec.ofFn fun i => M.entry i.succ 0 / root

/-- What is left of `M` when the share of the factor's first column is taken
away. -/
def remainder (M : Mat S (n + 1) (n + 1)) : Mat S n n :=
  let column := M.factorColumn
  ofFn fun i j => M.entry i.succ j.succ - column.get i * column.get j

/-- The lower triangular `L` with `L Lᵀ = M`, unless a pivot is not positive. -/
def cholesky : {n : Nat} → Mat S n n → Option (Mat S n n)
  | 0, M => some M
  | _ + 1, M =>
    if 0 < M.entry 0 0 then
      (cholesky M.remainder).map (bordered (Scalar.sqrt (M.entry 0 0)) M.factorColumn)
    else
      none

/-- Whether the diagonal is finite and positive throughout. -/
def hasSoundDiagonal (L : Mat S n n) : Bool :=
  (List.finRange n).all fun i =>
    Scalar.isFinite (L.entry i i) && !decide (L.entry i i ≤ 0)

end Mat

namespace Triangular

variable {S : Type} {n : Nat} [Scalar S]

/-- The first `k` unknowns of the system with coefficients `c i j` for `j ≤ i`
and right side `b`. -/
def unknowns (c : Fin n → Fin n → S) (b : Fin n → S) : (k : Nat) → k ≤ n → Vec S k
  | 0, _ => #v[]
  | k + 1, h =>
    let known := unknowns c b k (Nat.le_of_succ_le h)
    let i : Fin n := ⟨k, h⟩
    let left := Fin.foldl k
      (fun rest j => rest - c i ⟨j, Nat.lt_trans j.isLt h⟩ * known.get j) (b i)
    known.push (left / c i i)

/-- Solves the system with coefficients `c i j` for `j ≤ i`. -/
def solve (c : Fin n → Fin n → S) (b : Fin n → S) : Vec S n :=
  unknowns c b n (Nat.le_refl n)

/-- Solves `L x = b` for a lower triangular `L`. -/
def forward (L : Mat S n n) (b : Vec S n) : Vec S n := solve L.entry b.get

/-- Solves `Lᵀ x = b` for a lower triangular `L`. -/
def backward (L : Mat S n n) (b : Vec S n) : Vec S n :=
  let x := solve (fun i j => L.entry j.rev i.rev) (fun i => b.get i.rev)
  Vec.ofFn fun i => x.get i.rev

end Triangular

namespace Mat

variable {S : Type} {n : Nat} [Scalar S]

/-- Solves `L Lᵀ x = b` for a lower triangular `L`. -/
def choleskySolve (L : Mat S n n) (b : Vec S n) : Vec S n :=
  Triangular.backward L (Triangular.forward L b)

end Mat

end RecedingHorizon
