import RecedingHorizon.Decimal.Basic

/-!
# Reading decimal numbers

The number of a format nearest to a written one. The bits of the finite numbers
count them in order, so a significand that is rounded up to the next power of
two carries into the exponent by itself, and a number is out of range when its
bits reach those of infinity.

A half goes to the even neighbour, with one exception. Only so many leading
digits are compared as a halfway point can have, and whole digits beyond them
count as something more, be they zeros or not. A half whose whole part is
written out longer than that goes up.
-/

namespace RecedingHorizon

/-- A number as it is written in decimal. -/
structure Numeral where
  negative : Bool
  /-- The absolute value. -/
  decimal : Decimal
  /-- How many digits stand before the point. -/
  wholeDigits : Nat
  /-- Written without a point and without an exponent. -/
  isWhole : Bool

/-- The exact value of a decimal number. -/
def Decimal.toRatio (d : Decimal) : Ratio := (⟨d.digits, 1⟩ : Ratio).perPower 10 (-d.exponent)

namespace BinaryFormat

/-- The bits of the number nearest to a positive fraction, in a format without
a largest number. -/
def nearestBits (f : BinaryFormat) (halfUp : Bool) (r : Ratio) : Nat :=
  let exponent := max f.minExponent (r.binaryMagnitude - f.precision)
  (exponent - f.minExponent).toNat * Nat.pow 2 f.fractionBits +
    (r.perPower 2 exponent).round halfUp

/-- The bits of the number nearest to a written one, unless that is out of
range. Since ten exceeds the third power of two, the number of digits alone
tells that a number is far too small or far too large. -/
def nearest? (f : BinaryFormat) (n : Numeral) : Option Nat :=
  let size : Int := decimalLength n.decimal.digits + n.decimal.exponent
  if n.decimal.digits = 0 ∨ 3 * size < f.minExponent - 1 then
    some (f.withSign n.negative 0)
  else if f.maxExponent ≤ 3 * (size - 1) then
    none
  else
    let bits := f.nearestBits (decide (f.halfwayDigits < n.wholeDigits)) n.decimal.toRatio
    if bits < f.infinityBits then some (f.withSign n.negative bits) else none

end BinaryFormat

end RecedingHorizon
