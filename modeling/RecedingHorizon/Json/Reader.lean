import RecedingHorizon.Decimal.Nearest

/-!
# Reading JSON

A text is read from left to right, and the first thing that is wrong decides
how it is refused. A value whose content does not matter is skipped; its
numbers and strings are then held to a looser standard than those that are
kept.
-/

namespace RecedingHorizon

namespace Json

/-- Why a text is refused. -/
inductive TextFault
  /-- The text is no JSON, or a number is out of range. -/
  | malformed
  /-- The text ends too early. -/
  | truncated
  /-- The value has the wrong shape. -/
  | mismatched
  deriving BEq, DecidableEq

abbrev Reader := StateT (List Char) (Except TextFault)

def isBlank (c : Char) : Bool := c == ' ' || c == '\n' || c == '\t' || c == '\r'

/-- Runs a reader on a whole text. Only blanks may follow what it reads. -/
def Reader.runAll {α : Type} (reader : Reader α) (text : String) : Except TextFault α := do
  let (a, rest) ← reader.run text.toList
  if (rest.dropWhile isBlank).isEmpty then .ok a else .error .malformed

/-- The next character that is not blank; it stays unread. -/
def peek : Reader Char := do
  modify (List.dropWhile isBlank)
  match ← get with
  | [] => throw .truncated
  | c :: _ => return c

def advance : Reader Unit := modify List.tail

/-- Reads exactly these characters. -/
def expect : List Char → Reader Unit
  | [] => return ()
  | c :: cs => do
    match ← get with
    | [] => throw .truncated
    | d :: rest => if d = c then do set rest; expect cs else throw .malformed

/-! ## Strings -/

/-- The value of four hexadecimal digits. A text too short for four bytes is
truncated even if what is there is no such digit. -/
def hexQuad (cs : List Char) : Except TextFault (Nat × List Char) :=
  match cs with
  | a :: b :: c :: d :: rest =>
    match [a, b, c, d].mapM hexDigit? with
    | some digits => .ok (digits.foldl (fun n x => 16 * n + x) 0, rest)
    | none => .error .malformed
  | short =>
    if short.foldl (fun size c => size + c.utf8Size) 0 < 4 then .error .truncated else .error .malformed
where
  hexDigit? (c : Char) : Option Nat :=
    if c.isDigit then some (c.toNat - '0'.toNat)
    else if 'a' ≤ c && c ≤ 'f' then some (c.toNat - 'a'.toNat + 10)
    else if 'A' ≤ c && c ≤ 'F' then some (c.toNat - 'A'.toNat + 10)
    else none

/-- What a backslash and one more character stand for. -/
def shortEscape? : Char → Option Char
  | '"' => some '"'
  | '\\' => some '\\'
  | '/' => some '/'
  | 'b' => some '\x08'
  | 'f' => some '\x0c'
  | 'n' => some '\n'
  | 'r' => some '\r'
  | 't' => some '\t'
  | _ => none

/-- The second half of a surrogate pair, after its backslash and its letter. -/
def trailingSurrogate : List Char → Except TextFault (Nat × List Char)
  | [] => .error .truncated
  | '\\' :: [] => .error .truncated
  | '\\' :: 'u' :: cs => do
    let (n, rest) ← hexQuad cs
    if 0xDC00 ≤ n && n ≤ 0xDFFF then .ok (n, rest) else .error .malformed
  | _ => .error .malformed

/-- The character that an escape stands for, after its backslash. -/
def escape : List Char → Except TextFault (Char × List Char)
  | [] => .error .truncated
  | 'u' :: cs => do
    let (n, rest) ← hexQuad cs
    if 0xDC00 ≤ n && n ≤ 0xDFFF then .error .malformed
    else if 0xD800 ≤ n && n ≤ 0xDBFF then do
      let (t, rest) ← trailingSurrogate rest
      .ok (Char.ofNat ((n - 0xD800) * 0x400 + (t - 0xDC00) + 0x10000), rest)
    else
      .ok (Char.ofNat n, rest)
  | c :: rest =>
    match shortEscape? c with
    | some d => .ok (d, rest)
    | none => .error .malformed

/-- Passes over an escape, after its backslash. Surrogates need no partner. -/
def skipEscape : List Char → Except TextFault (List Char)
  | [] => .error .truncated
  | 'u' :: cs => do return (← hexQuad cs).2
  | c :: rest => if (shortEscape? c).isSome then .ok rest else .error .malformed

/-- The characters up to the closing quote, after the opening one. The first
list bounds the number of steps. -/
def characters : List Char → List Char → Except TextFault (List Char × List Char)
  | _, [] => .error .truncated
  | [], _ => .error .truncated
  | _ :: _, '"' :: rest => .ok ([], rest)
  | _ :: steps, '\\' :: rest => do
    let (c, rest) ← escape rest
    let (cs, rest) ← characters steps rest
    return (c :: cs, rest)
  | _ :: steps, c :: rest =>
    if c < ' ' then .error .malformed
    else do
      let (cs, rest) ← characters steps rest
      return (c :: cs, rest)

/-- What follows the closing quote, after the opening one. The first list bounds
the number of steps. -/
def afterCharacters : List Char → List Char → Except TextFault (List Char)
  | _, [] => .error .truncated
  | [], _ => .error .truncated
  | _ :: _, '"' :: rest => .ok rest
  | _ :: steps, '\\' :: rest => do afterCharacters steps (← skipEscape rest)
  | _ :: steps, c :: rest =>
    if c < ' ' then .error .malformed else afterCharacters steps rest

/-- Reads a string from its opening quote. Every step takes a character, so the
text itself bounds their number. -/
def string : Reader String := do
  advance
  let cs ← get
  let (s, rest) ← (characters cs cs : Except TextFault _)
  set rest
  return String.ofList s

/-- Passes over a string from its opening quote. -/
def skipString : Reader Unit := do
  advance
  let cs ← get
  set (← (afterCharacters cs cs : Except TextFault _))

/-! ## Numbers -/

/-- Reads the digits that come next. -/
def digits : Reader (List Char) := do
  let cs ← get
  set (cs.dropWhile Char.isDigit)
  return cs.takeWhile Char.isDigit

/-- Reads one of two characters if it comes next. -/
def optional (a b : Char) : Reader (Option Char) := do
  match ← get with
  | c :: rest => if c = a || c = b then do set rest; return some c else return none
  | [] => return none

/-- Reads the digits of a whole part: a single zero, or digits that do not
begin with one. -/
def wholePart : Reader (List Char) := do
  match ← get with
  | [] => throw .truncated
  | '0' :: rest =>
    if (rest.head?.map Char.isDigit).getD false then throw .malformed
    else do set rest; return ['0']
  | c :: _ => if c.isDigit then digits else throw .malformed

/-- Reads digits of which there has to be at least one. -/
def someDigits : Reader (List Char) := do
  match ← get with
  | [] => throw .truncated
  | c :: _ => if c.isDigit then digits else throw .malformed

/-- The number that digits form. -/
def ofDigits (ds : List Char) : Nat := ds.foldl (fun n d => 10 * n + (d.toNat - '0'.toNat)) 0

/-- Reads an exponent after its letter. -/
def exponentPart : Reader Int := do
  let sign ← optional '+' '-'
  let ds ← someDigits
  return if sign = some '-' then -ofDigits ds else ofDigits ds

/-- Reads a number. -/
def number : Reader Numeral := do
  let negative := (← optional '-' '-').isSome
  let whole ← wholePart
  let point ← optional '.' '.'
  let fraction ← if point.isSome then someDigits else pure []
  let letter ← optional 'e' 'E'
  let shift ← if letter.isSome then exponentPart else pure 0
  return {
    negative
    decimal := ⟨ofDigits (whole ++ fraction), shift - fraction.length⟩
    wholeDigits := whole.length
    isWhole := point.isNone && letter.isNone }

/-- Passes over a number. A numeral that breaks off is malformed here. -/
def skipNumber : Reader Unit := do
  let _ ← optional '-' '-'
  strict wholePart
  if (← optional '.' '.').isSome then strict someDigits
  if (← optional 'e' 'E').isSome then
    let _ ← optional '+' '-'
    strict someDigits
where
  /-- The end of the text is no excuse. -/
  strict (part : Reader (List Char)) : Reader Unit := fun cs =>
    match part cs with
    | .ok (_, rest) => .ok ((), rest)
    | .error _ => .error .malformed

/-! ## Values -/

mutual

/-- Passes over a value. Every step takes a character, so a bound past the
length of the text is never reached. -/
def skipBounded : Nat → Reader Unit
  | 0 => throw .truncated
  | fuel + 1 => do
    let c ← peek
    if c = 'n' then expect "null".toList
    else if c = 't' then expect "true".toList
    else if c = 'f' then expect "false".toList
    else if c = '"' then skipString
    else if c = '-' || c.isDigit then skipNumber
    else if c = '[' then
      advance
      if (← peek) = ']' then advance else skipElements fuel
    else if c = '\x7b' then
      advance
      if (← peek) = '\x7d' then advance else skipMembers fuel
    else throw .malformed

/-- Passes over elements up to the end of their list. -/
def skipElements : Nat → Reader Unit
  | 0 => throw .truncated
  | fuel + 1 => do
    skipBounded fuel
    let c ← peek
    if c = ',' then do advance; skipElements fuel
    else if c = ']' then advance
    else throw .malformed

/-- Passes over members up to the end of their object. -/
def skipMembers : Nat → Reader Unit
  | 0 => throw .truncated
  | fuel + 1 => do
    if (← peek) = '"' then skipString else throw .malformed
    if (← peek) = ':' then advance else throw .malformed
    skipBounded fuel
    let c ← peek
    if c = ',' then do advance; skipMembers fuel
    else if c = '\x7d' then advance
    else throw .malformed

end

/-- Passes over a value whose content does not matter. -/
def skipValue : Reader Unit := do skipBounded (2 * (← get).length + 2)

/-- Refuses a number that no binary64 number is near to. -/
def inRange (n : Numeral) : Reader Unit :=
  if (BinaryFormat.binary64.nearest? n).isSome then return () else throw .malformed

/-- Reads as much of an unwanted value as it takes to tell that it is one. -/
def unwanted {α : Type} : Reader α := do
  let c ← peek
  if c = 'n' then expect "null".toList
  else if c = 't' then expect "true".toList
  else if c = 'f' then expect "false".toList
  else if c = '"' then do let _ ← string
  else if c = '-' || c.isDigit then do inRange (← number)
  else if c = '[' || c = '\x7b' then throw .mismatched
  else throw .malformed
  throw .mismatched

end Json

end RecedingHorizon
