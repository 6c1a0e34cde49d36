/-!
# The fewest digits that read back

A finite double other than zero is `m * 2 ^ q` for one natural `m` (`Decimal.Dyadic`). The numbers that round to it form an
interval around it, whose ends belong to it exactly when `m` is even. `Decimal.shortest` looks for a decimal in that interval,
first with one digit, then with two, and so on: on each grid it tries the two neighbours of the number, and of two hits it
takes the nearer. Seventeen digits are always enough.

If any point of a grid lies in the interval then so does one of the two neighbours of the number on that grid, which is why no
other point has to be tried.
-/

namespace PlacementTree.Decimal

/-- The positive number `mantissa * 2 ^ exponent`. `wideBelow` says that the next double below is as far away as the one above;
it is nearer, by half, only below a power of two. -/
structure Dyadic where
  mantissa : Nat
  exponent : Int
  wideBelow : Bool

/-- The unit of the exponent field in the bits of a double: the field stands left of 52 bits of fraction. -/
def exponentUnit : Nat := 0x10000000000000

/-- The number that the low 63 bits of a finite double stand for. -/
def Dyadic.ofMagnitude (magnitude : Nat) : Dyadic :=
  let fraction := magnitude % exponentUnit
  let scale := magnitude / exponentUnit
  if scale = 0 then { mantissa := fraction, exponent := -1074, wideBelow := true }
  else { mantissa := exponentUnit + fraction, exponent := Int.ofNat scale - 1075, wideBelow := fraction != 0 || scale == 1 }

/-- The positive decimal `digits * 10 ^ exponent`. -/
structure Scaled where
  digits : Nat
  exponent : Int
  deriving DecidableEq, Repr

/-- Which neighbour a number exactly half way between two decimals goes to. -/
inductive Tie where
  | up | toEven
  deriving DecidableEq, Repr

/-- An interval of positive numbers with a number in it, all four over one denominator. -/
structure Interval where
  low : Nat
  value : Nat
  high : Nat
  denominator : Nat
  closed : Bool

/-- The numbers that round to a double, in quarters of its last place. -/
def Dyadic.interval (x : Dyadic) : Interval :=
  let value := 4 * x.mantissa
  let low := if x.wideBelow then value - 2 else value - 1
  let numerator := Nat.pow 2 (x.exponent - 2).toNat
  { low := low * numerator, value := value * numerator, high := (value + 2) * numerator,
    denominator := Nat.pow 2 (2 - x.exponent).toNat, closed := x.mantissa % 2 == 0 }

/-- The same interval in the unit `10 ^ exponent`. -/
def Interval.scale (i : Interval) (exponent : Int) : Interval :=
  let up := Nat.pow 10 (-exponent).toNat
  { i with low := i.low * up, value := i.value * up, high := i.high * up, denominator := i.denominator * Nat.pow 10 exponent.toNat }

/-- Whether the interval holds a number of units. -/
def Interval.holds (i : Interval) (units : Nat) : Bool :=
  let scaled := units * i.denominator
  if i.closed then i.low ≤ scaled && scaled ≤ i.high else i.low < scaled && scaled < i.high

/-- The nearest number of units in the interval, of the two neighbours of the value. -/
def Interval.nearestUnits? (i : Interval) (tie : Tie) : Option Nat :=
  let below := i.value / i.denominator
  let above := below + 1
  match i.holds below, i.holds above with
  | false, false => none
  | true, false => some below
  | false, true => some above
  | true, true =>
    let downward := i.value - below * i.denominator
    let upward := above * i.denominator - i.value
    if downward < upward then some below
    else if upward < downward then some above
    else match tie with
      | .up => some above
      | .toEven => some (if below % 2 == 0 then below else above)

/-- The exponent of the leading digit of `numerator / denominator`: the largest `k` with `10 ^ k` not above it. It is read off the
number of digits of the quotient, or of the inverse quotient when the number is below one. -/
def leadingExponent (numerator denominator : Nat) : Int :=
  if denominator ≤ numerator then
    Int.ofNat (Nat.toDigits 10 (numerator / denominator)).length - 1
  else
    let digits := (Nat.toDigits 10 (denominator / numerator)).length
    if denominator ≤ numerator * Nat.pow 10 (digits - 1) then 1 - Int.ofNat digits else -Int.ofNat digits

/-- A decimal without trailing zeros of its digits. `fuel` bounds the zeros dropped. -/
def Scaled.trimmed : Nat → Scaled → Scaled
  | 0, d => d
  | fuel + 1, d =>
    if d.digits % 10 == 0 && d.digits != 0 then
      Scaled.trimmed fuel { digits := d.digits / 10, exponent := d.exponent + 1 }
    else d

/-- The first decimal in the interval on the grids of `count`, `count + 1`, … digits, with at most `fuel` grids tried. -/
def firstOnGrids (i : Interval) (tie : Tie) (lead : Int) : Nat → Nat → Option Scaled
  | 0, _ => none
  | fuel + 1, count =>
    let exponent := lead + 1 - Int.ofNat count
    match (i.scale exponent).nearestUnits? tie with
    | some units => some (Scaled.trimmed 20 { digits := units, exponent })
    | none => firstOnGrids i tie lead fuel (count + 1)

/-- The decimal with the fewest digits that reads back as the double with these low 63 bits, which are not zero and not those of
an infinity or a not-a-number; of several the nearest. -/
def shortest (tie : Tie) (magnitude : Nat) : Scaled :=
  let i := (Dyadic.ofMagnitude magnitude).interval
  let lead := leadingExponent i.value i.denominator
  (firstOnGrids i tie lead 17 1).getD { digits := i.value, exponent := 0 }

end PlacementTree.Decimal
