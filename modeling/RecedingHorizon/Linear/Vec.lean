import RecedingHorizon.Scalar

/-!
# Vectors of a fixed length

Core vectors with the arithmetic of the controller. Each operation has one
lemma that gives its entries; after it nobody unfolds the operation.
-/

namespace RecedingHorizon

/-- A vector of `n` scalars. -/
abbrev Vec (S : Type) (n : Nat) := Vector S n

namespace Vec

variable {S : Type} {n m : Nat}

@[ext] theorem ext {u v : Vec S n} (h : ∀ i, u.get i = v.get i) : u = v :=
  Vector.ext fun i hi => h ⟨i, hi⟩

def ofFn (f : Fin n → S) : Vec S n := Vector.ofFn f

@[simp] theorem get_ofFn (f : Fin n → S) (i : Fin n) : (ofFn f).get i = f i := by
  change (Vector.ofFn f)[i] = f i
  simp

variable [Scalar S]

def zeros (n : Nat) : Vec S n := ofFn fun _ => 0

@[simp] theorem get_zeros (i : Fin n) : (zeros n : Vec S n).get i = 0 := get_ofFn ..

/-- The products of matching entries, added from the first to the last. -/
def dot (u v : Vec S n) : S := Scalar.sum fun i => u.get i * v.get i

def add (u v : Vec S n) : Vec S n := ofFn fun i => u.get i + v.get i

@[simp] theorem get_add (u v : Vec S n) (i : Fin n) :
    (u.add v).get i = u.get i + v.get i := get_ofFn ..

def sub (u v : Vec S n) : Vec S n := ofFn fun i => u.get i - v.get i

@[simp] theorem get_sub (u v : Vec S n) (i : Fin n) :
    (u.sub v).get i = u.get i - v.get i := get_ofFn ..

/-- Entrywise clamping into the box between `lo` and `hi`. -/
def clamp (lo hi v : Vec S n) : Vec S n :=
  ofFn fun i => Scalar.clamp (lo.get i) (hi.get i) (v.get i)

@[simp] theorem get_clamp (lo hi v : Vec S n) (i : Fin n) :
    (clamp lo hi v).get i = Scalar.clamp (lo.get i) (hi.get i) (v.get i) := get_ofFn ..

def maxAbs (v : Vec S n) : S := Scalar.peak v.toList

def isFinite (v : Vec S n) : Bool := v.all Scalar.isFinite

theorem isFinite_iff (v : Vec S n) :
    v.isFinite = true ↔ ∀ i, Scalar.isFinite (v.get i) = true := by
  rw [isFinite, Vector.all_eq_true]
  exact ⟨fun h i => h i i.isLt, fun h i hi => h ⟨i, hi⟩⟩

/-- The first position at which `lo ≤ hi` fails. -/
def firstDisorder (lo hi : Vec S n) : Option (Fin n) :=
  (List.finRange n).find? fun i => !decide (lo.get i ≤ hi.get i)

end Vec

end RecedingHorizon
