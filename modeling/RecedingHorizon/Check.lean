import RecedingHorizon.Fault
import RecedingHorizon.Linear.Mat

/-!
# Checks on incoming data

Each check either names the fault or hands back the data in the form that the
next stage needs: a vector of the demanded length, a square matrix. Of several
faults in one call the first check in order decides.
-/

namespace RecedingHorizon

namespace Check

variable {S : Type}

/-- A vector of the demanded length. -/
def length (what : String) (v : Array S) (n : Nat) : Except (Fault S) (Vec S n) :=
  if h : v.size = n then .ok ⟨v, h⟩ else .error (.dimensionMismatch what n v.size)

/-- A matrix with as many columns as rows. -/
def square (what : String) (M : Grid S) : Except (Fault S) (Mat S M.rows M.rows) :=
  if h : M.cols = M.rows then .ok (M.entries.castCols h)
  else .error (.notSquare what M.rows M.cols)

variable [Scalar S]

def finite (what : String) {n : Nat} (v : Vec S n) : Except (Fault S) Unit :=
  if v.isFinite then .ok () else .error (.nonFinite what)

def finiteEntries (what : String) {m n : Nat} (M : Mat S m n) : Except (Fault S) Unit :=
  if M.isFinite then .ok () else .error (.nonFinite what)

def symmetric (what : String) {n : Nat} (M : Mat S n n) : Except (Fault S) Unit :=
  if M.isNearlySymmetric then .ok () else .error (.notSymmetric what)

/-- `lo ≤ hi` at every position. Infinite bounds pass, a not-a-number does
not. -/
def ordered (what : String) {n : Nat} (lo hi : Vec S n) : Except (Fault S) Unit :=
  match Vec.firstDisorder lo hi with
  | some i => .error (.invalidBounds what i)
  | none => .ok ()

def positive (name : String) (value : S) : Except (Fault S) Unit :=
  if Scalar.isFinite value && decide (0 < value) then .ok ()
  else .error (.invalidParameter name value)

end Check

end RecedingHorizon
