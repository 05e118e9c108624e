import RecedingHorizon.Json.Reader
import RecedingHorizon.MachineScalar
import RecedingHorizon.Settings

/-!
# Settings as text

Settings are written as a JSON object. Fields that are missing keep their
standard values, unknown fields are passed over, and no field may come twice.
A list gives the fields in order; its missing tail keeps the standard values.
-/

namespace RecedingHorizon

namespace Settings

inductive Field
  | rho
  | sigma
  | alpha
  | maxIter
  | primalTolerance
  | dualTolerance
  deriving BEq, DecidableEq

namespace Field

def all : List Field := [rho, sigma, alpha, maxIter, primalTolerance, dualTolerance]

/-- The name of a field in a text. -/
def key : Field → String
  | rho => "rho"
  | sigma => "sigma"
  | alpha => "alpha"
  | maxIter => "max_iter"
  | primalTolerance => "abs_pri_tol"
  | dualTolerance => "abs_dua_tol"

def ofKey? (name : String) : Option Field := all.find? fun f => f.key == name

end Field

/-- The names of the fields, in order. -/
def keys : List String := Field.all.map Field.key

section Reading

open Json

variable {S : Type} [MachineScalar S]

/-- The number of the format nearest to a written one, unless that is out of
range. Whole numbers between `-2 ^ 64` and `-2 ^ 63` are taken by way of
binary64, which rounds them twice. -/
def scalarOf? (n : Numeral) : Option S :=
  let digits := n.decimal.digits
  if n.isWhole && n.negative && decide (Nat.pow 2 63 < digits) && decide (digits < UInt64.size) then
    (MachineScalar.ofNumeral? n).map MachineScalar.ofDouble
  else
    MachineScalar.ofNumeral? n

/-- Reads a scalar. -/
def readScalar : Reader S := do
  let c ← peek
  if c = '-' || c.isDigit then
    match scalarOf? (← number) with
    | some x => return x
    | none => throw .malformed
  else
    unwanted

/-- Reads a count: a whole number of at most 64 bits without a sign. -/
def readCount : Reader Nat := do
  let c ← peek
  if c = '-' || c.isDigit then
    let n ← number
    if n.isWhole && !n.negative && n.decimal.digits < UInt64.size then
      return n.decimal.digits
    inRange n
    throw .mismatched
  else
    unwanted

/-- Reads the value of a field into settings. -/
def readField (s : Settings S) : Field → Reader (Settings S)
  | .rho => return { s with rho := ← readScalar }
  | .sigma => return { s with sigma := ← readScalar }
  | .alpha => return { s with alpha := ← readScalar }
  | .maxIter => return { s with maxIter := ← readCount }
  | .primalTolerance => return { s with primalTolerance := ← readScalar }
  | .dualTolerance => return { s with dualTolerance := ← readScalar }

/-- Reads the elements of a list into the given fields, and the end of the
list. Nothing but its end may follow the last field. -/
def readElements (first : Bool) (s : Settings S) : List Field → Reader (Settings S)
  | [] => do
    if (← peek) = ']' then
      advance
      return s
    else throw .malformed
  | f :: fs => do
    let c ← peek
    if c = ']' then
      advance
      return s
    if !first then
      if c = ',' then
        advance
        if (← peek) = ']' then throw .malformed
      else throw .malformed
    readElements false (← readField s f) fs

/-- Reads the members of an object and its end, given the fields that came
already. Every step takes a character, so a bound past the length of the text
is never reached. -/
def readMembers : Nat → Bool → List Field → Settings S → Reader (Settings S)
  | 0, _, _, _ => throw .truncated
  | fuel + 1, first, seen, s => do
    let c ← peek
    if c = '\x7d' then
      advance
      return s
    if !first then
      if c = ',' then advance else throw .malformed
    if (← peek) = '"' then
      let name ← string
      match Field.ofKey? name with
      | some f =>
        if seen.contains f then throw .mismatched
        if (← peek) = ':' then advance else throw .malformed
        readMembers fuel false (f :: seen) (← readField s f)
      | none =>
        if (← peek) = ':' then advance else throw .malformed
        skipValue
        readMembers fuel false seen s
    else throw .malformed

/-- Reads settings. -/
def reader [OfScientific S] : Reader (Settings S) := do
  let c ← peek
  if c = '[' then do advance; readElements true standard Field.all
  else if c = '\x7b' then do
    advance
    readMembers ((← get).length + 1) true [] standard
  else unwanted

/-- The settings that a text gives. -/
def ofText [OfScientific S] (text : String) : Except TextFault (Settings S) :=
  reader.runAll text

end Reading

end Settings

end RecedingHorizon
