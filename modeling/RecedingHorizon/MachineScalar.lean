import RecedingHorizon.Decimal.Nearest
import RecedingHorizon.Decimal.Shortest
import RecedingHorizon.Scalar

/-!
# Machine formats

The two formats that a controller runs on, binary64 and binary32, and how
their numbers are read and written.
-/

namespace RecedingHorizon

/-- A scalar type of a binary machine format. -/
class MachineScalar (S : Type) extends Scalar S where
  format : BinaryFormat
  toBits : S → Nat
  ofBits : Nat → S
  /-- The same number in binary64. -/
  toDouble : S → Float
  /-- The nearest number of the format. -/
  ofDouble : Float → S

instance : Scalar Float where
  zero := 0
  one := 1
  decideLE := inferInstance
  decideLT := inferInstance
  abs := Float.abs
  sqrt := Float.sqrt
  isFinite := Float.isFinite
  epsilon := Float.ofBits 0x3CB0000000000000
  infinity := Float.ofBits 0x7FF0000000000000

instance : MachineScalar Float where
  format := .binary64
  toBits x := x.toBits.toNat
  ofBits n := .ofBits n.toUInt64
  toDouble x := x
  ofDouble x := x

instance : Scalar Float32 where
  zero := 0
  one := 1
  decideLE := inferInstance
  decideLT := inferInstance
  abs := Float32.abs
  sqrt := Float32.sqrt
  isFinite := Float32.isFinite
  epsilon := Float32.ofBits 0x34000000
  infinity := Float32.ofBits 0x7F800000

instance : MachineScalar Float32 where
  format := .binary32
  toBits x := x.toBits.toNat
  ofBits n := .ofBits n.toUInt32
  toDouble x := x.toFloat
  ofDouble x := x.toFloat32

namespace MachineScalar

variable {S : Type} [MachineScalar S]

def decode (x : S) : Binary := (format S).decode (toBits x)

/-- The number of the format nearest to a written one, unless that is out of
range. -/
def ofNumeral? (n : Numeral) : Option S := ((format S).nearest? n).map ofBits

/-- The shortest text that reads back in the number's own format. -/
def text (x : S) : String := (decode x).text (format S)

/-- The shortest text that reads back as the same value in binary64. -/
def doubleText (x : S) : String := text (toDouble x)

end MachineScalar

end RecedingHorizon
