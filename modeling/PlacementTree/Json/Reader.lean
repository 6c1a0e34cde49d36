import PlacementTree.Datum
import PlacementTree.Decimal.Numeral
import PlacementTree.Text.Hex

/-!
# Reading JSON

`Json.read` accepts a text that is one JSON value with white space around it, and nothing else. Three kinds of parts are well
written without having a value: a string with half of a surrogate pair, a number beyond the doubles, and an object with a key
of the first kind. They become `Datum.unreadable`, since they do no harm where nobody asks for them.

A whole number is read as such when it fits 64 bits, with a sign if it is negative; any other number is a double, minus zero
included. A numeral stands for the double nearest to it, rounded once. Readers of JSON need not do so: one that computes with doubles may be
off by the last place.
-/

namespace PlacementTree.Json

open Decimal (splitDigits splitSign ofDigits Numeral)

/-- White space between tokens. -/
def isBlank (c : Char) : Bool := c == ' ' || c == '\t' || c == '\n' || c == '\r'

def skipBlanks (cs : List Char) : List Char := cs.dropWhile isBlank

/-- A piece of a string: a character, or a 16-bit unit given by its number. -/
inductive Piece where
  | char (c : Char)
  | unit (n : Nat)

/-- Whether a unit is the first half of a surrogate pair. -/
def isLeading (n : Nat) : Bool := decide (0xd800 ≤ n ∧ n < 0xdc00)

/-- Whether a unit is the second half of a surrogate pair. -/
def isTrailing (n : Nat) : Bool := decide (0xdc00 ≤ n ∧ n < 0xe000)

/-- The characters of pieces, if every half of a surrogate pair stands before or after its other half. -/
def joinPieces : List Piece → Option (List Char)
  | [] => some []
  | .char c :: rest => (joinPieces rest).map (c :: ·)
  | [.unit n] => if isLeading n || isTrailing n then none else some [Char.ofNat n]
  | .unit n :: .unit m :: rest =>
    if isLeading n then
      if isTrailing m then (joinPieces rest).map (Char.ofNat (0x10000 + (n - 0xd800) * 0x400 + (m - 0xdc00)) :: ·) else none
    else if isTrailing n then none
    else (joinPieces (.unit m :: rest)).map (Char.ofNat n :: ·)
  | .unit n :: .char c :: rest =>
    if isLeading n || isTrailing n then none else (joinPieces rest).map (Char.ofNat n :: c :: ·)

/-- The character of a short escape. -/
def escaped? : Char → Option Char
  | '"' => some '"'
  | '\\' => some '\\'
  | '/' => some '/'
  | 'b' => some '\x08'
  | 'f' => some '\x0c'
  | 'n' => some '\n'
  | 'r' => some '\r'
  | 't' => some '\t'
  | _ => none

/-- The pieces of a string up to its closing quote, and what follows. Control characters have to be escaped. -/
def readPieces : List Char → Option (List Piece × List Char)
  | [] => none
  | '"' :: rest => some ([], rest)
  | '\\' :: 'u' :: a :: b :: c :: d :: rest => do
    let unit ← Text.ofHex? [a, b, c, d]
    let (pieces, rest) ← readPieces rest
    return (.unit unit :: pieces, rest)
  | '\\' :: e :: rest => do
    let c ← escaped? e
    let (pieces, rest) ← readPieces rest
    return (.char c :: pieces, rest)
  | c :: rest =>
    if c.toNat < 0x20 then none
    else (readPieces rest).map fun (pieces, rest) => (.char c :: pieces, rest)

/-- A string after its opening quote, if it has a value, and what follows. -/
def readString (cs : List Char) : Option (Option String × List Char) :=
  (readPieces cs).map fun (pieces, rest) => ((joinPieces pieces).map String.ofList, rest)

/-- The digits after a point, none without a point, and what follows. -/
def readFraction : List Char → Option (List Char × List Char)
  | '.' :: rest =>
    let (digits, rest) := splitDigits rest
    if digits.isEmpty then none else some (digits, rest)
  | cs => some ([], cs)

/-- The power of ten, if there is one, and what follows. -/
def readExponent : List Char → Option (Option Int × List Char)
  | [] => some (none, [])
  | c :: rest =>
    if c = 'e' ∨ c = 'E' then
      let (negative, rest) := splitSign rest
      let (digits, rest) := splitDigits rest
      if digits.isEmpty then none
      else some (some (if negative then -Int.ofNat (ofDigits digits) else Int.ofNat (ofDigits digits)), rest)
    else some (none, c :: rest)

/-- A double, unless it is beyond the doubles. -/
def doubleDatum (x : Float) : Datum := if x.isInf then .unreadable else .float x

/-- A number without point and power of ten. -/
def wholeDatum (negative : Bool) (digits : List Char) : Datum :=
  let n := ofDigits digits
  if !negative && decide (n < UInt64.size) then .int (Int.ofNat n)
  else if negative && decide (0 < n ∧ n ≤ 0x8000000000000000) then .int (-Int.ofNat n)
  else doubleDatum (Numeral.value { negative, whole := digits, fraction := [], exponent := 0 })

/-- A number after its sign, and what follows. Its first digit is a zero only if it is the only one before the point. -/
def readNumber (negative : Bool) (cs : List Char) : Option (Datum × List Char) := do
  let (whole, rest) := splitDigits cs
  if whole.isEmpty || (whole.head? == some '0' && whole.length != 1) then none
  let (fraction, rest) ← readFraction rest
  let (exponent, rest) ← readExponent rest
  if fraction.isEmpty && exponent.isNone then return (wholeDatum negative whole, rest)
  return (doubleDatum (Numeral.value { negative, whole, fraction, exponent := exponent.getD 0 }), rest)

/-- An object. One unreadable key makes all of it unreadable. -/
def objectDatum (fields : List (Option String × Datum)) : Datum :=
  match fields.mapM fun field => field.1.map (·, field.2) with
  | some fields => .record fields
  | none => .unreadable

mutual

/-- A value in front of a text, and what follows. `fuel` bounds the steps; two for each character are enough. -/
def readValue : Nat → List Char → Option (Datum × List Char)
  | 0, _ => none
  | fuel + 1, cs =>
    match cs with
    | '"' :: rest => (readString rest).map fun (text, rest) => (text.elim .unreadable .string, rest)
    | '[' :: rest =>
      match skipBlanks rest with
      | ']' :: rest => some (.list [], rest)
      | rest => (readItems fuel rest).map fun (items, rest) => (.list items, rest)
    | '{' :: rest =>
      match skipBlanks rest with
      | '}' :: rest => some (.record [], rest)
      | rest => (readFields fuel rest).map fun (fields, rest) => (objectDatum fields, rest)
    | '-' :: rest => readNumber true rest
    | 'n' :: 'u' :: 'l' :: 'l' :: rest => some (.null, rest)
    | 't' :: 'r' :: 'u' :: 'e' :: rest => some (.bool true, rest)
    | 'f' :: 'a' :: 'l' :: 's' :: 'e' :: rest => some (.bool false, rest)
    | cs => readNumber false cs

/-- The elements of a list up to its closing bracket, at least one, and what follows. -/
def readItems : Nat → List Char → Option (List Datum × List Char)
  | 0, _ => none
  | fuel + 1, cs => do
    let (item, rest) ← readValue fuel cs
    match skipBlanks rest with
    | ']' :: rest => return ([item], rest)
    | ',' :: rest => do
      let (items, rest) ← readItems fuel (skipBlanks rest)
      return (item :: items, rest)
    | _ => none

/-- The fields of an object up to its closing brace, at least one, and what follows. -/
def readFields : Nat → List Char → Option (List (Option String × Datum) × List Char)
  | 0, _ => none
  | fuel + 1, cs =>
    match cs with
    | '"' :: rest => do
      let (key, rest) ← readString rest
      match skipBlanks rest with
      | ':' :: rest => do
        let (value, rest) ← readValue fuel (skipBlanks rest)
        match skipBlanks rest with
        | '}' :: rest => return ([(key, value)], rest)
        | ',' :: rest => do
          let (fields, rest) ← readFields fuel (skipBlanks rest)
          return ((key, value) :: fields, rest)
        | _ => none
      | _ => none
    | _ => none

end

/-- The value of a text. -/
def read (text : String) : Option Datum :=
  let cs := text.toList
  match readValue (2 * cs.length + 2) (skipBlanks cs) with
  | some (datum, rest) => if (skipBlanks rest).isEmpty then some datum else none
  | none => none

end PlacementTree.Json
