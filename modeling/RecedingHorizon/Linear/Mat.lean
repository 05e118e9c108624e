import RecedingHorizon.Linear.Vec

/-!
# Matrices of a fixed shape

A matrix is the vector of its rows. Shapes are part of the type, so a product
of matrices that do not fit cannot be written. Every product multiplies every
entry; no zero is skipped.
-/

namespace RecedingHorizon

/-- A matrix of `m` rows and `n` columns. -/
structure Mat (S : Type) (m n : Nat) where
  rows : Vec (Vec S n) m

namespace Mat

variable {S : Type} {m n p q : Nat}

def entry (M : Mat S m n) (i : Fin m) (j : Fin n) : S := (M.rows.get i).get j

def ofFn (f : Fin m → Fin n → S) : Mat S m n := ⟨Vec.ofFn fun i => Vec.ofFn (f i)⟩

@[simp] theorem entry_ofFn (f : Fin m → Fin n → S) (i : Fin m) (j : Fin n) :
    (ofFn f).entry i j = f i j := by
  simp [entry, ofFn]

@[ext] theorem ext {M N : Mat S m n} (h : ∀ i j, M.entry i j = N.entry i j) : M = N := by
  cases M; cases N
  congr 1
  exact Vec.ext fun i => Vec.ext fun j => h i j

/-- The same matrix under another name of its number of columns. -/
def castCols (h : n = p) (M : Mat S m n) : Mat S m p := h ▸ M

/-- The same matrix under other names of its numbers of rows and columns. -/
def cast (hm : m = p) (hn : n = q) (M : Mat S m n) : Mat S p q := hm ▸ hn ▸ M

theorem cast_self (hm : m = m) (hn : n = n) (M : Mat S m n) : M.cast hm hn = M := rfl

def row (M : Mat S m n) (i : Fin m) : Vec S n := M.rows.get i

@[simp] theorem get_row (M : Mat S m n) (i : Fin m) (j : Fin n) :
    (M.row i).get j = M.entry i j := rfl

def transpose (M : Mat S m n) : Mat S n m := ofFn fun i j => M.entry j i

@[simp] theorem entry_transpose (M : Mat S m n) (i : Fin n) (j : Fin m) :
    M.transpose.entry i j = M.entry j i := entry_ofFn ..

/-- The entries column by column, each column from the top. -/
def byColumns (M : Mat S m n) : List S :=
  (List.finRange n).flatMap fun j => (List.finRange m).map fun i => M.entry i j

/-- The rows of `top` above those of `bottom`. -/
def above (top : Mat S m n) (bottom : Mat S p n) : Mat S (m + p) n :=
  ⟨top.rows ++ bottom.rows⟩

variable [Scalar S]

def identity (n : Nat) : Mat S n n := ofFn fun i j => if i = j then 1 else 0

@[simp] theorem entry_identity (i j : Fin n) :
    (identity n : Mat S n n).entry i j = if i = j then 1 else 0 := entry_ofFn ..

def diagonal (d : Vec S n) : Mat S n n := ofFn fun i j => if i = j then d.get i else 0

@[simp] theorem entry_diagonal (d : Vec S n) (i j : Fin n) :
    (diagonal d).entry i j = if i = j then d.get i else 0 := entry_ofFn ..

def add (M N : Mat S m n) : Mat S m n := ofFn fun i j => M.entry i j + N.entry i j

@[simp] theorem entry_add (M N : Mat S m n) (i : Fin m) (j : Fin n) :
    (M.add N).entry i j = M.entry i j + N.entry i j := entry_ofFn ..

def sub (M N : Mat S m n) : Mat S m n := ofFn fun i j => M.entry i j - N.entry i j

@[simp] theorem entry_sub (M N : Mat S m n) (i : Fin m) (j : Fin n) :
    (M.sub N).entry i j = M.entry i j - N.entry i j := entry_ofFn ..

/-- Each entry times `c`. -/
def scale (M : Mat S m n) (c : S) : Mat S m n := ofFn fun i j => M.entry i j * c

@[simp] theorem entry_scale (M : Mat S m n) (c : S) (i : Fin m) (j : Fin n) :
    (M.scale c).entry i j = M.entry i j * c := entry_ofFn ..

/-- Adds `c` to the diagonal. -/
def shift (M : Mat S n n) (c : S) : Mat S n n :=
  ofFn fun i j => if i = j then M.entry i j + c else M.entry i j

@[simp] theorem entry_shift (M : Mat S n n) (c : S) (i j : Fin n) :
    (M.shift c).entry i j = if i = j then M.entry i j + c else M.entry i j := entry_ofFn ..

def mul (M : Mat S m n) (N : Mat S n p) : Mat S m p :=
  let columns := N.transpose
  ofFn fun i j => (M.row i).dot (columns.row j)

@[simp] theorem entry_mul (M : Mat S m n) (N : Mat S n p) (i : Fin m) (j : Fin p) :
    (M.mul N).entry i j = Scalar.sum fun k => M.entry i k * N.entry k j := by
  simp [mul, Vec.dot]

/-- The product of the transpose of `M` with `N`. -/
def transposeMul (M : Mat S n m) (N : Mat S n p) : Mat S m p := M.transpose.mul N

@[simp] theorem entry_transposeMul (M : Mat S n m) (N : Mat S n p) (i : Fin m) (j : Fin p) :
    (M.transposeMul N).entry i j = Scalar.sum fun k => M.entry k i * N.entry k j := by
  simp [transposeMul]

def mulVec (M : Mat S m n) (v : Vec S n) : Vec S m := Vec.ofFn fun i => (M.row i).dot v

@[simp] theorem get_mulVec (M : Mat S m n) (v : Vec S n) (i : Fin m) :
    (M.mulVec v).get i = Scalar.sum fun j => M.entry i j * v.get j := by
  simp [mulVec, Vec.dot]

/-- The product of the transpose of `M` with a vector. -/
def transposeMulVec (M : Mat S m n) (v : Vec S m) : Vec S n :=
  Vec.ofFn fun j => Scalar.sum fun i => M.entry i j * v.get i

@[simp] theorem get_transposeMulVec (M : Mat S m n) (v : Vec S m) (j : Fin n) :
    (M.transposeMulVec v).get j = Scalar.sum fun i => M.entry i j * v.get i :=
  Vec.get_ofFn ..

def maxAbs (M : Mat S m n) : S := Scalar.peak M.byColumns

def isFinite (M : Mat S m n) : Bool := M.rows.all Vec.isFinite

theorem isFinite_iff (M : Mat S m n) :
    M.isFinite = true ↔ ∀ i j, Scalar.isFinite (M.entry i j) = true := by
  rw [isFinite, Vector.all_eq_true]
  constructor
  · intro h i j
    exact (Vec.isFinite_iff _).1 (h i i.isLt) j
  · intro h i hi
    exact (Vec.isFinite_iff _).2 fun j => h ⟨i, hi⟩ j

/-- Whether the entries opposite each other across the diagonal agree to
within the square root of `epsilon`, taken relative to the largest entry and
never to less than one. -/
def isNearlySymmetric (M : Mat S n n) : Bool :=
  let tolerance := Scalar.sqrt Scalar.epsilon * Scalar.larger M.maxAbs 1
  !decide (tolerance < (M.sub M.transpose).maxAbs)

end Mat

/-- A matrix whose shape is known only when it is read. -/
structure Grid (S : Type) where
  rows : Nat
  cols : Nat
  entries : Mat S rows cols

/-- A matrix with its shape beside it. -/
abbrev Mat.toGrid {S : Type} {m n : Nat} (M : Mat S m n) : Grid S :=
  { rows := m, cols := n, entries := M }

end RecedingHorizon
