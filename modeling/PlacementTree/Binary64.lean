/-!
# Doubles as they travel: 64 bits

A score may come from a child that computed it elsewhere, so every pattern of 64 bits is a possible score: both zeros, the
infinities, and not-a-numbers of either sign. Numbers are computed as `Float`; a `Binary64` is what is stored, compared and
passed on.

The order of scores is the total order of the patterns, `Binary64.totalCompare`: it puts `-0` below `+0`, a positive
not-a-number above infinity, a negative one below minus infinity, and agrees with `<` wherever `<` holds. It is the order of
the integers `Binary64.rank`.
-/

namespace PlacementTree

/-- A double as its 64 bits. Every pattern is a value of its own, so equality is equality of bits. -/
structure Binary64 where
  bits : UInt64
  deriving DecidableEq, Repr, Inhabited

namespace Binary64

/-- The number the bits stand for. All not-a-numbers become one. -/
def toFloat (x : Binary64) : Float := Float.ofBits x.bits

/-- The pattern of an operation without a number as its result: quiet, with the sign bit set. It ranks below every number. -/
def indefinite : Binary64 := ⟨0xfff8000000000000⟩

/-- The bits of a computed number. A computation without a result is stored as `indefinite`. That the sign bit is set there is the choice of
x86-64: it is left open by the standard for doubles, and other processors clear it. Where such a mark ranks depends on it. -/
def ofFloat (x : Float) : Binary64 := if x.isNaN then indefinite else ⟨x.toBits⟩

/-- The sign bit. -/
def signBit : Nat := 0x8000000000000000

/-- The bits without the sign. -/
def magnitude (x : Binary64) : Nat := x.bits.toNat % signBit

/-- Whether the sign bit is set. -/
def negative (x : Binary64) : Bool := decide (signBit ≤ x.bits.toNat)

/-- The bits without the sign of both infinities. Every larger magnitude is a not-a-number. -/
def infinityMagnitude : Nat := 0x7ff0000000000000

/-- Neither infinite nor a not-a-number. -/
def isFinite (x : Binary64) : Bool := decide (x.magnitude < infinityMagnitude)

def isNaN (x : Binary64) : Bool := decide (infinityMagnitude < x.magnitude)

/-- The place of a pattern in the total order: positive patterns count up from 0, negative ones count down from -1. -/
def rank (x : Binary64) : Int := if x.negative then -1 - Int.ofNat x.magnitude else Int.ofNat x.magnitude

/-- The total order of the patterns. -/
def totalCompare (x y : Binary64) : Ordering := compare x.rank y.rank

end Binary64

end PlacementTree
