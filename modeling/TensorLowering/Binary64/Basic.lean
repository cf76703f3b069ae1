/-!
# Double-precision bit patterns

A `Binary64` is one of the `2^64` bit patterns of a double. Two patterns are equal when their
bits are, so `NaN`s are told apart by their bits and the two zeros differ. Beside equality there
are two orders:

* `totalKey` gives the total order of the floating-point standard, in which the patterns ascend
  from the negative `NaN`s over the negative infinity, the numbers and the positive infinity to
  the positive `NaN`s, and `-0` stands before `+0`;
* `numericKey` gives the order of the finite numbers themselves, in which the zeros agree.

Both are keys into the integers: no statement about them needs floating-point arithmetic.
-/

namespace TensorLowering

/-- The bit pattern of a double. -/
structure Binary64 where
  /-- Sign, exponent and fraction, from the most significant bit down. -/
  bits : UInt64
deriving DecidableEq, Repr, Inhabited

namespace Binary64

/-- Whether the sign bit is set. -/
def negative (x : Binary64) : Bool := 1 <<< 63 ≤ x.bits.toNat

/-- The pattern without its sign bit, as a number. -/
def magnitude (x : Binary64) : Nat := x.bits.toNat % 1 <<< 63

/-- The biased exponent. -/
def exponentField (x : Binary64) : Nat := x.magnitude / 1 <<< 52

/-- The stored fraction. -/
def fractionField (x : Binary64) : Nat := x.magnitude % 1 <<< 52

/-- Neither infinite nor a `NaN`. -/
def isFinite (x : Binary64) : Bool := x.exponentField < 2047

/-- Not a number: the largest exponent with a fraction. -/
def isNaN (x : Binary64) : Bool := x.exponentField == 2047 && x.fractionField != 0

/-- The place of a pattern in the total order of the floating-point standard. -/
def totalKey (x : Binary64) : Int :=
  if x.negative then -(x.magnitude : Int) - 1 else x.magnitude

/-- The place of a finite pattern in the order of the numbers; both zeros are at `0`. -/
def numericKey (x : Binary64) : Int :=
  if x.negative then -(x.magnitude : Int) else x.magnitude

/-- `x` comes before `y` in the total order. -/
def totalLt (x y : Binary64) : Bool := x.totalKey < y.totalKey

/-- The finite number `x` is less than the finite number `y`. -/
def numericLt (x y : Binary64) : Bool := x.numericKey < y.numericKey

end Binary64

end TensorLowering
