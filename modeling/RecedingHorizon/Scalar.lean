/-!
# Scalars

The arithmetic that the whole controller is written over. Nothing below this
interface names a machine format, so the same definitions run on binary64 and
binary32 numbers and can be read over exact or extended real numbers.

Comparisons are decidable relations. No law is assumed of them: a value may
fail every comparison, its own included, as a not-a-number does.
-/

namespace RecedingHorizon

/-- Numbers with the operations and tests that the controller uses. -/
class Scalar (S : Type) extends
    Zero S, One S, Add S, Sub S, Mul S, Div S, Neg S, LE S, LT S where
  decideLE : DecidableRel (α := S) (· ≤ ·)
  decideLT : DecidableRel (α := S) (· < ·)
  abs : S → S
  sqrt : S → S
  isFinite : S → Bool
  /-- The distance from one to the next larger number of the format. -/
  epsilon : S
  infinity : S

namespace Scalar

variable {S : Type} [Scalar S]

instance : DecidableRel (α := S) (· ≤ ·) := decideLE
instance : DecidableRel (α := S) (· < ·) := decideLT

def two : S := 1 + 1

def half : S := 1 / two

/-- The larger of two numbers; the second one when they do not compare. -/
def larger (a b : S) : S := if b ≤ a then a else b

/-- The point of `[lo, hi]` nearest to `x`. A value that fails both
comparisons passes unchanged. -/
def clamp (lo hi x : S) : S :=
  if x < lo then lo else if hi < x then hi else x

/-- The terms `f 0, f 1, …` added in that order. -/
def sum {n : Nat} (f : Fin n → S) : S :=
  Fin.foldl n (fun total i => total + f i) 0

/-- The largest absolute value of a list, zero when it is empty. A value that
does not compare replaces the running maximum and is itself replaced by the
next one. -/
def peak : List S → S
  | [] => 0
  | x :: xs => xs.foldl (fun top y => if abs y ≤ top then top else abs y) (abs x)

theorem peak_concat (x : S) (l : List S) (y : S) :
    peak (x :: l ++ [y]) = if abs y ≤ peak (x :: l) then peak (x :: l) else abs y :=
  List.foldl_append

end Scalar

end RecedingHorizon
