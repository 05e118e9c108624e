import RecedingHorizon.Decimal.Basic

/-!
# Shortest decimal text

The fewest decimal digits that read back as the same number of a format. The
numbers that read back form an interval; on each grid of so many digits only
the two neighbours of the exact value are candidates, because a point of the
grid that lies in the interval implies that one of them does.
-/

namespace RecedingHorizon

namespace Decimal

/-- What reads back as one positive number of a format: everything between the
bounds, and the bounds themselves when `closed`. -/
structure Interval where
  low : Ratio
  high : Ratio
  closed : Bool

/-- The interval around `significand · 2 ^ exponent`. Below a power of two the
neighbour is half as far away, unless the format ends there. -/
def interval (format : BinaryFormat) (significand : Nat) (exponent : Int) : Interval :=
  let shift := min (format.precision - bitLength significand)
    (exponent - format.minExponent).toNat
  let m := significand * Nat.pow 2 shift
  let q := exponent - shift
  let narrow := m = Nat.pow 2 (format.precision - 1) ∧ format.minExponent < q
  { low := .ofBinary (4 * m - if narrow then 1 else 2) (q - 2)
    high := .ofBinary (4 * m + 2) (q - 2)
    closed := m % 2 = 0 }

/-- Whether a decimal number reads back. -/
def Interval.holds (i : Interval) (n : Decimal) : Bool :=
  let low := i.low.perPower 10 n.exponent
  let high := i.high.perPower 10 n.exponent
  let d : Ratio := ⟨n.digits, 1⟩
  if i.closed then !d.lt low && !high.lt d else low.lt d && d.lt high

/-- The two numbers of `k` digits around `r`, the nearer one first. Halfway
between them the upper one comes first. -/
def neighbours (r : Ratio) (magnitude : Int) (k : Nat) : Decimal × Decimal :=
  let e := magnitude - k
  let scaled := r.perPower 10 e
  let below : Decimal := ⟨scaled.num / scaled.den, e⟩
  let above : Decimal := ⟨scaled.num / scaled.den + 1, e⟩
  if 2 * (scaled.num % scaled.den) < scaled.den then (below, above) else (above, below)

/-- The first number that reads back among those of `k, k + 1, …` digits, for
so many tries; after them the nearest number. -/
def search (i : Interval) (r : Ratio) (magnitude : Int) : Nat → Nat → Decimal
  | 0, k => (neighbours r magnitude k).1
  | tries + 1, k =>
    let (nearer, farther) := neighbours r magnitude k
    if i.holds nearer then nearer
    else if i.holds farther then farther
    else search i r magnitude tries (k + 1)

/-- The fewest digits that read back as the same number of the format. -/
def shortest (format : BinaryFormat) (significand : Nat) (exponent : Int) : Decimal :=
  let r := Ratio.ofBinary significand exponent
  (search (interval format significand exponent) r r.decimalMagnitude 16 1).trim

end Decimal

/-- The text of a number in messages: the fewest digits that read back, in
positional notation. The sign of zero is kept. -/
def Binary.text (format : BinaryFormat) : Binary → String
  | nan => "NaN"
  | infinite negative => if negative then "-inf" else "inf"
  | finite negative significand exponent =>
    let sign := if negative then "-" else ""
    if significand = 0 then sign ++ "0"
    else sign ++ (Decimal.shortest format significand exponent).positional

end RecedingHorizon
