import PlacementTree.Binary64
import PlacementTree.Decimal.Shortest

/-!
# How a double is written

`Style.write` writes a double with the fewest digits that read back. A `Style` holds what the places that write numbers decide
on their own: whether a whole number keeps `.0`, from which exponent on the number is written with a power of ten, which way
the digits go from half way, and the texts of the values that are no numbers.
-/

namespace PlacementTree.Decimal

/-- The decisions of one place that writes doubles. With `positional := some (low, high)` a decimal whose point stands after
`p` of its digits is written with a power of ten unless `low < p` and `p ≤ high`; with `none` it never is. -/
structure Style where
  wholeSuffix : String
  positional : Option (Int × Int)
  tie : Tie
  notANumber : String
  infinity : String

/-- The text of digits whose decimal point stands after `point` of them: zeros fill the gap where it stands outside. -/
def positionalText (wholeSuffix : String) (digits : List Char) (point : Int) : String :=
  let count := Int.ofNat digits.length
  if count ≤ point then String.ofList (digits ++ List.replicate (point - count).toNat '0') ++ wholeSuffix
  else if 0 < point then String.ofList (digits.take point.toNat ++ '.' :: digits.drop point.toNat)
  else String.ofList ('0' :: '.' :: (List.replicate (-point).toNat '0' ++ digits))

/-- The text of digits with a power of ten: one digit before the point, and no point after a single digit. -/
def scientificText (digits : List Char) (point : Int) : String :=
  let mantissa := match digits with
    | first :: second :: rest => first :: '.' :: second :: rest
    | short => short
  String.ofList mantissa ++ "e" ++ toString (point - 1)

/-- The text of a positive decimal. -/
def Style.writeDecimal (style : Style) (d : Scaled) : String :=
  let digits := Nat.toDigits 10 d.digits
  let point := Int.ofNat digits.length + d.exponent
  match style.positional with
  | none => positionalText style.wholeSuffix digits point
  | some (low, high) =>
    if low < point ∧ point ≤ high then positionalText style.wholeSuffix digits point else scientificText digits point

/-- The text of a double: a sign, also before zero, and the fewest digits that read back. -/
def Style.write (style : Style) (x : Float) : String :=
  if x.isNaN then style.notANumber
  else
    let pattern : Binary64 := { bits := x.toBits }
    let sign := if pattern.negative then "-" else ""
    if x.isInf then sign ++ style.infinity
    else if pattern.magnitude = 0 then sign ++ "0" ++ style.wholeSuffix
    else sign ++ style.writeDecimal (shortest style.tie pattern.magnitude)

/-- Numbers in messages: never a power of ten, whole numbers without a point. -/
def Style.message : Style :=
  { wholeSuffix := "", positional := none, tie := .up, notANumber := "NaN", infinity := "inf" }

/-- Numbers in a configuration file: never a power of ten, whole numbers end in `.0`, which marks them as doubles. -/
def Style.configuration : Style :=
  { wholeSuffix := ".0", positional := none, tie := .up, notANumber := "nan", infinity := "inf" }

/-- Numbers in JSON: whole numbers end in `.0`, and a power of ten is written where the point stands more than sixteen digits
after the first digit or at least five zeros before it. -/
def Style.json : Style :=
  { wholeSuffix := ".0", positional := some (-5, 16), tie := .toEven, notANumber := "null", infinity := "null" }

end PlacementTree.Decimal
