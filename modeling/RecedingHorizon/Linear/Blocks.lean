import RecedingHorizon.Linear.Mat

/-!
# Matrices and vectors of any shapes

Operations that judge the shapes they are given when they run. Each answers
with nothing where an index, a slice or a window would lie outside, or where the
shapes of two operands do not fit.
-/

namespace RecedingHorizon

namespace Mat

variable {S : Type} {m n p q : Nat}

/-- The same matrix under another name of its number of rows. -/
def castRows (h : m = p) (M : Mat S m n) : Mat S p n := M.cast h rfl

/-- The matrix with another one copied over it, whose corner lies at `(i, j)`. -/
def overwrite (M : Mat S m n) (i j : Nat) (block : Mat S p q) : Mat S m n :=
  ofFn fun k l =>
    if h : (i ≤ k ∧ k - i < p) ∧ (j ≤ l ∧ l - j < q) then
      block.entry ⟨k - i, h.1.2⟩ ⟨l - j, h.2.2⟩
    else
      M.entry k l

def zeros [Scalar S] (m n : Nat) : Mat S m n := ofFn fun _ _ => 0

end Mat

namespace Grid

variable {S : Type}

/-- Copies a block into the window of `p` rows and `q` columns at `(i, j)`. -/
def write? (M : Grid S) (i j p q : Nat) (block : Grid S) : Option (Grid S) :=
  if (block.rows = p ∧ block.cols = q) ∧ i + p ≤ M.rows ∧ j + q ≤ M.cols then
    some (M.entries.overwrite i j block.entries).toGrid
  else
    none

/-- Puts one entry. -/
def set? (M : Grid S) (i j : Nat) (x : S) : Option (Grid S) :=
  M.write? i j 1 1 (Mat.ofFn fun (_ _ : Fin 1) => x).toGrid

def transpose (M : Grid S) : Grid S := M.entries.transpose.toGrid

variable [Scalar S]

def add? (M N : Grid S) : Option (Grid S) :=
  if h : N.rows = M.rows ∧ N.cols = M.cols then
    some (M.entries.add (N.entries.cast h.1 h.2)).toGrid
  else
    none

def scale (M : Grid S) (c : S) : Grid S := (M.entries.scale c).toGrid

def mul? (M N : Grid S) : Option (Grid S) :=
  if h : N.rows = M.cols then some (M.entries.mul (N.entries.castRows h)).toGrid else none

/-- The product of the transpose of `M` with `N`. -/
def transposeMul? (M N : Grid S) : Option (Grid S) :=
  if h : N.rows = M.rows then
    some (M.entries.transposeMul (N.entries.castRows h)).toGrid
  else
    none

def mulVec? (M : Grid S) (v : Array S) : Option (Array S) :=
  if h : v.size = M.cols then some (M.entries.mulVec ⟨v, h⟩).toArray else none

/-- The products `start, A start, A A start, …`, `count` of them after the
first. -/
def products? (A start : Grid S) (count : Nat) : Option (Array (Grid S)) :=
  (List.range count).foldlM
    (fun known k => do
      let last ← known[k]?
      let next ← A.mul? last
      return known.push next)
    #[start]

/-- `N` copies of a matrix along the block diagonal. -/
def blockDiagonal? (M : Grid S) (N : Nat) : Option (Grid S) :=
  (List.range N).foldlM
    (fun out i => out.write? (i * M.rows) (i * M.cols) M.rows M.cols M)
    (Mat.zeros (N * M.rows) (N * M.cols)).toGrid

end Grid

namespace Slice

variable {S : Type}

/-- The `len` entries from position `i` on. -/
def read? (v : Array S) (i len : Nat) : Option (Array S) :=
  if i + len ≤ v.size then some (v.extract i (i + len)) else none

/-- Copies a block over the `len` entries from position `i` on. -/
def write? (v : Array S) (i len : Nat) (block : Array S) : Option (Array S) :=
  if block.size = len ∧ i + len ≤ v.size then
    some (v.extract 0 i ++ block ++ v.extract (i + len) v.size)
  else
    none

/-- Repeats a vector, end to end. -/
def tile? (v : Array S) (times : Nat) : Option (Array S) :=
  (List.range (times * v.size)).foldlM
    (fun out i => do
      let x ← v[i % max v.size 1]?
      return out.push x)
    #[]

variable [Scalar S]

/-- One vector above another. -/
def stack? (top bottom : Array S) : Option (Array S) := do
  let out := Array.replicate (top.size + bottom.size) 0
  let out ← write? out 0 top.size top
  write? out top.size bottom.size bottom

def add? (u v : Array S) : Option (Array S) :=
  if h : v.size = u.size then some (Vec.add u.toVector ⟨v, h⟩).toArray else none

def sub? (u v : Array S) : Option (Array S) :=
  if h : v.size = u.size then some (Vec.sub u.toVector ⟨v, h⟩).toArray else none

/-- Entrywise clamping into the box between `lo` and `hi`. -/
def clamp? (lo hi v : Array S) : Option (Array S) :=
  if h : lo.size = v.size ∧ hi.size = v.size then
    some (Vec.clamp ⟨lo, h.1⟩ ⟨hi, h.2⟩ v.toVector).toArray
  else
    none

end Slice

end RecedingHorizon
