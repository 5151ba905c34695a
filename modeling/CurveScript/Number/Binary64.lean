/-! # Binary64 numbers

A floating-point number is kept as its 64 bits: a sign, eleven bits of exponent and
fifty-two bits of fraction. A finite number is a whole multiple of the least positive
one, `2 ^ -1074`, and that is how its magnitude is described here: the number is
`significand · 2 ^ shift` of these units. -/

namespace CurveScript

structure Binary64 where
  bits : UInt64
  deriving DecidableEq, Repr

namespace Binary64

def signBit : Nat := 0x8000000000000000

/-- The leading bit of a normal significand, `2 ^ 52`, which its fraction leaves out. It
    is also the lowest bit of the exponent. -/
def leadingBit : Nat := 0x10000000000000

/-- The bits of positive infinity. Every larger magnitude is no number. -/
def infinityBits : Nat := 0x7FF0000000000000

def isNegative (x : Binary64) : Bool :=
  signBit ≤ x.bits.toNat

/-- The bits without the sign. They are ordered as the magnitudes are. -/
def magnitude (x : Binary64) : Nat :=
  x.bits.toNat % signBit

def isNaN (x : Binary64) : Bool :=
  infinityBits < x.magnitude

def isInfinite (x : Binary64) : Bool :=
  x.magnitude == infinityBits

/-- The power of two of a unit in the last place. It is zero for subnormal numbers and
    for the smallest normal ones. -/
def shift (x : Binary64) : Nat :=
  x.magnitude / leadingBit - 1

/-- The fraction, with the leading bit of a normal number put back. -/
def significand (x : Binary64) : Nat :=
  if x.magnitude < leadingBit then x.magnitude
  else x.magnitude % leadingBit + leadingBit

/-- Equality as numbers: the two zeros are equal, and what is no number equals nothing. -/
def sameNumber (x y : Binary64) : Bool :=
  !x.isNaN && !y.isNaN && (x.bits == y.bits || (x.magnitude == 0 && y.magnitude == 0))

end Binary64

end CurveScript
