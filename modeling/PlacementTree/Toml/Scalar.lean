import PlacementTree.Datum
import PlacementTree.Decimal.Numeral
import PlacementTree.Text.Hex
import PlacementTree.Toml.Moment

/-!
# Bare values of TOML

A value that is not quoted and not bracketed is a run of characters up to the next blank, line end, comment, comma or closing
bracket. What the run stands for is decided by the run alone (`scalar?`): a truth value, a moment, a whole number of 64 bits or
a double. In numbers single underscores may stand between digits.

A double too large to be represented is refused; a negative one of that size is minus infinity.
-/

namespace PlacementTree.Toml

open Decimal (ofDigits splitSign Numeral)

/-- The digits of a run of at least one digit in which single underscores may stand between digits. -/
def ungrouped? (isDigit : Char → Bool) : List Char → Option (List Char)
  | [] => none
  | [c] => if isDigit c then some [c] else none
  | c :: '_' :: rest => if isDigit c then (ungrouped? isDigit rest).map (c :: ·) else none
  | c :: rest => if isDigit c then (ungrouped? isDigit rest).map (c :: ·) else none

/-- The first natural that does not fit 64 bits with a sign. -/
def signedLimit : Nat := 0x8000000000000000

/-- A whole number that fits 64 bits with a sign. -/
def wholeDatum? (negative : Bool) (n : Nat) : Option Datum :=
  if negative then if n ≤ signedLimit then some (.int (-Int.ofNat n)) else none
  else if n < signedLimit then some (.int (Int.ofNat n)) else none

def isOctalDigit (c : Char) : Bool := decide ('0' ≤ c ∧ c ≤ '7')

def isBinaryDigit (c : Char) : Bool := c == '0' || c == '1'

/-- A whole number in another base, without a sign, after the mark of the base. -/
def inBase? (base : Nat) (isDigit : Char → Bool) (cs : List Char) : Option Datum := do
  let digits ← ungrouped? isDigit cs
  let values ← digits.mapM Text.hexValue?
  wholeDatum? false (values.foldl (fun n v => n * base + v) 0)

/-- Whether a character may stand in a run of decimal digits. -/
def isDigitOrUnderscore (c : Char) : Bool := c.isDigit || c == '_'

/-- The decimal digits before a point: more than one only if the first is no zero. -/
def wholeDigits? (cs : List Char) : Option (List Char) := do
  let digits ← ungrouped? Char.isDigit cs
  if digits.head? == some '0' && digits.length != 1 then none
  return digits

/-- The power of ten that ends a number, after its mark. -/
def exponent? (cs : List Char) : Option Int := do
  let (negative, rest) := splitSign cs
  let digits ← ungrouped? Char.isDigit rest
  return if negative then -Int.ofNat (ofDigits digits) else Int.ofNat (ofDigits digits)

def isExponentMark (c : Char) : Bool := c == 'e' || c == 'E'

/-- A double, unless it is too large. -/
def doubleDatum? (n : Numeral) : Option Datum :=
  let value := n.value
  if value.isInf && !n.negative then none else some (.float value)

/-- A decimal number after its sign. -/
def decimal? (negative : Bool) (cs : List Char) : Option Datum := do
  let whole ← wholeDigits? (cs.takeWhile isDigitOrUnderscore)
  match cs.dropWhile isDigitOrUnderscore with
  | [] => wholeDatum? negative (ofDigits whole)
  | '.' :: rest =>
    let fraction ← ungrouped? Char.isDigit (rest.takeWhile isDigitOrUnderscore)
    match rest.dropWhile isDigitOrUnderscore with
    | [] => doubleDatum? { negative, whole, fraction, exponent := 0 }
    | mark :: rest =>
      if isExponentMark mark then doubleDatum? { negative, whole, fraction, exponent := ← exponent? rest } else none
  | mark :: rest =>
    if isExponentMark mark then doubleDatum? { negative, whole, fraction := [], exponent := ← exponent? rest } else none

/-- A number, or a name of what is no number. -/
def number? (cs : List Char) : Option Datum :=
  match cs with
  | '0' :: 'x' :: rest => inBase? 16 (fun c => (Text.hexValue? c).isSome) rest
  | '0' :: 'o' :: rest => inBase? 8 isOctalDigit rest
  | '0' :: 'b' :: rest => inBase? 2 isBinaryDigit rest
  | cs =>
    let (negative, rest) := splitSign cs
    match rest with
    | ['i', 'n', 'f'] => some (.float (if negative then -(1.0 / 0.0) else 1.0 / 0.0))
    | ['n', 'a', 'n'] => some (.float (0.0 / 0.0))
    | rest => decimal? negative rest

/-- The name of the only field of the record that a moment is read as. -/
def momentField : String := "$__toml_private_datetime"

/-- A moment as a record. -/
def Moment.toDatum (m : Moment) : Datum := .record [(momentField, .string m.text)]

/-- What a run of characters stands for. -/
def scalar? (cs : List Char) : Option Datum :=
  match cs with
  | ['t', 'r', 'u', 'e'] => some (.bool true)
  | ['f', 'a', 'l', 's', 'e'] => some (.bool false)
  | cs =>
    match Moment.read cs with
    | some moment => some moment.toDatum
    | none => number? cs

end PlacementTree.Toml
