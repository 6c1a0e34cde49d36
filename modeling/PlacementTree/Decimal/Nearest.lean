/-!
# The double nearest to a decimal

`Decimal.nearest` gives the double nearest to `digits * 10 ^ exponent`, of two equally near ones the even one. Powers of ten far
outside the range of doubles are answered without computing them: their result is infinity or zero.
-/

namespace PlacementTree.Decimal

/-- The nearest double to `digits * 10 ^ exponent`. A decimal of `n` digits lies between `10 ^ (exponent + n - 1)` and
`10 ^ (exponent + n)`; above `10 ^ 310` every decimal rounds to infinity, below `10 ^ -330` every one rounds to zero. -/
def nearest (digits : Nat) (exponent : Int) : Float :=
  if digits = 0 then 0.0
  else
    let reach := exponent + Int.ofNat (Nat.toDigits 10 digits).length
    if 310 < reach then 1.0 / 0.0
    else if reach < -330 then 0.0
    else Float.ofScientific digits (decide (exponent < 0)) exponent.natAbs

/-- The nearest double with a sign. A negative zero keeps it. -/
def nearestSigned (negative : Bool) (digits : Nat) (exponent : Int) : Float :=
  if negative then -(nearest digits exponent) else nearest digits exponent

end PlacementTree.Decimal
