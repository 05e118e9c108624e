/-!
# Binary values and decimal numbers

A finite binary number is a sign and an exact value `significand · 2 ^ exponent`.
Its decimal readings are found by exact arithmetic on natural numbers. This
module holds the binary formats, exact values as fractions, the reading that is
rounded to a number of digits, and the two notations of decimal numbers.
-/

namespace RecedingHorizon

/-- What the bits of a binary number say. -/
inductive Binary
  | nan
  | infinite (negative : Bool)
  | finite (negative : Bool) (significand : Nat) (exponent : Int)

/-- A binary format: a sign bit above the exponent bits above the fraction
bits. -/
structure BinaryFormat where
  fractionBits : Nat
  exponentBits : Nat
  /-- The most decimal digits that a number halfway between two neighbours of
  the format has. -/
  halfwayDigits : Nat

namespace BinaryFormat

def binary64 : BinaryFormat where
  fractionBits := 52
  exponentBits := 11
  halfwayDigits := 768

def binary32 : BinaryFormat where
  fractionBits := 23
  exponentBits := 8
  halfwayDigits := 113

/-- How many bits a significand has. -/
def precision (f : BinaryFormat) : Nat := f.fractionBits + 1

/-- The exponent of the least positive number. -/
def minExponent (f : BinaryFormat) : Int :=
  2 - Nat.pow 2 (f.exponentBits - 1) - f.fractionBits

/-- All finite numbers lie below two to this power. -/
def maxExponent (f : BinaryFormat) : Int := Nat.pow 2 (f.exponentBits - 1)

/-- The bits of infinity. Those of the finite numbers without a sign lie below
and are in the order of their values. -/
def infinityBits (f : BinaryFormat) : Nat :=
  (Nat.pow 2 f.exponentBits - 1) * Nat.pow 2 f.fractionBits

/-- Sets the sign bit. -/
def withSign (f : BinaryFormat) (negative : Bool) (bits : Nat) : Nat :=
  if negative then Nat.pow 2 (f.fractionBits + f.exponentBits) + bits else bits

/-- What bits of this format say. -/
def decode (f : BinaryFormat) (bits : Nat) : Binary :=
  let fraction := bits % Nat.pow 2 f.fractionBits
  let biased := bits / Nat.pow 2 f.fractionBits % Nat.pow 2 f.exponentBits
  let negative := bits / Nat.pow 2 (f.fractionBits + f.exponentBits) % 2 = 1
  if biased = Nat.pow 2 f.exponentBits - 1 then
    if fraction = 0 then .infinite negative else .nan
  else if biased = 0 then
    .finite negative fraction f.minExponent
  else
    .finite negative (Nat.pow 2 f.fractionBits + fraction) (f.minExponent + (biased - 1))

end BinaryFormat

/-- The number of binary digits of `n`. -/
def bitLength (n : Nat) : Nat := if n = 0 then 0 else n.log2 + 1

/-- The number of decimal digits of `n`. -/
def decimalLength (n : Nat) : Nat := (Nat.toDigits 10 n).length

/-- A positive fraction. -/
structure Ratio where
  num : Nat
  den : Nat

namespace Ratio

/-- `significand · 2 ^ exponent`. -/
def ofBinary (significand : Nat) (exponent : Int) : Ratio :=
  if exponent < 0 then ⟨significand, Nat.pow 2 (-exponent).toNat⟩
  else ⟨significand * Nat.pow 2 exponent.toNat, 1⟩

/-- `r / base ^ e`. -/
def perPower (base : Nat) (r : Ratio) (e : Int) : Ratio :=
  if e < 0 then ⟨r.num * base.pow (-e).toNat, r.den⟩ else ⟨r.num, r.den * base.pow e.toNat⟩

/-- The nearest natural number. A half goes up if `halfUp`, else to the even
neighbour. -/
def round (halfUp : Bool) (r : Ratio) : Nat :=
  let below := r.num / r.den
  let rest := 2 * (r.num % r.den)
  if r.den < rest ∨ (rest = r.den ∧ (halfUp ∨ below % 2 = 1)) then below + 1 else below

def lt (a b : Ratio) : Bool := decide (a.num * b.den < b.num * a.den)

/-- The `t` with `base ^ (t - 1) ≤ r < base ^ t`, given how to count the digits
of a number to that base. -/
def magnitude (base : Nat) (digitCount : Nat → Nat) (r : Ratio) : Int :=
  let t : Int := (digitCount r.num : Int) - digitCount r.den
  let scaled := r.perPower base t
  if scaled.den ≤ scaled.num then t + 1 else t

/-- The `t` with `10 ^ (t - 1) ≤ r < 10 ^ t`. -/
def decimalMagnitude : Ratio → Int := magnitude 10 decimalLength

/-- The `t` with `2 ^ (t - 1) ≤ r < 2 ^ t`. -/
def binaryMagnitude : Ratio → Int := magnitude 2 bitLength

end Ratio

/-- A decimal number `digits · 10 ^ exponent`. -/
structure Decimal where
  digits : Nat
  exponent : Int

namespace Decimal

/-- Moves the zeros at the end of the digits into the exponent. -/
def trim (d : Decimal) : Decimal := go (decimalLength d.digits) d
where
  go : Nat → Decimal → Decimal
    | 0, d => d
    | fuel + 1, d =>
      if d.digits ≠ 0 ∧ d.digits % 10 = 0 then
        go fuel { digits := d.digits / 10, exponent := d.exponent + 1 }
      else
        d

/-- The exact value rounded to `k` digits, a half going to the even
neighbour. -/
def rounded (k : Nat) (significand : Nat) (exponent : Int) : Decimal :=
  let r := Ratio.ofBinary significand exponent
  let e := r.decimalMagnitude - k
  (⟨(r.perPower 10 e).round false, e⟩ : Decimal).trim

/-- Positional notation: no exponent, no point on whole numbers, a zero before
a leading point. -/
def positional (d : Decimal) : String :=
  let text := toString d.digits
  if 0 ≤ d.exponent then
    text ++ String.ofList (List.replicate d.exponent.toNat '0')
  else
    let places := (-d.exponent).toNat
    let padded := List.replicate (places + 1 - text.length) '0' ++ text.toList
    let whole := padded.length - places
    String.ofList (padded.take whole) ++ "." ++ String.ofList (padded.drop whole)

/-- Scientific notation: one digit before the point, no point after a single
digit, the exponent without a plus sign. -/
def scientific (d : Decimal) : String :=
  match (toString d.digits).toList with
  | [] => "0e0"
  | first :: rest =>
    let exponent : Int := d.exponent + rest.length
    let fraction := if rest.isEmpty then "" else "." ++ String.ofList rest
    first.toString ++ fraction ++ "e" ++ toString exponent

end Decimal

end RecedingHorizon
