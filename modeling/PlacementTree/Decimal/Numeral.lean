import PlacementTree.Decimal.Nearest

/-!
# Decimal numerals

A numeral taken apart into its sign, its digits and its power of ten, as the readers of numbers find them. What it stands for is
one double, the nearest (`Numeral.value`), wherever the point stands and however many digits there are.
-/

namespace PlacementTree.Decimal

/-- The number that decimal digits stand for. -/
def ofDigits (digits : List Char) : Nat := Nat.ofDigitChars 10 digits 0

/-- A numeral: a sign, the digits before and after the point, and the power of ten. -/
structure Numeral where
  negative : Bool
  whole : List Char
  fraction : List Char
  exponent : Int

/-- The double nearest to a numeral. -/
def Numeral.value (n : Numeral) : Float :=
  nearestSigned n.negative (ofDigits (n.whole ++ n.fraction)) (n.exponent - Int.ofNat n.fraction.length)

/-- The digits in front of a text and what follows them. -/
def splitDigits (cs : List Char) : List Char × List Char := (cs.takeWhile Char.isDigit, cs.dropWhile Char.isDigit)

/-- An optional sign in front of a text and what follows it. -/
def splitSign : List Char → Bool × List Char
  | '-' :: rest => (true, rest)
  | '+' :: rest => (false, rest)
  | cs => (false, cs)

end PlacementTree.Decimal
