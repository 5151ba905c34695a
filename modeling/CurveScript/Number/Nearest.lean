import CurveScript.Number.Binary64
import CurveScript.Number.Decimal

/-! # The nearest binary64 number

Rounding to nearest, in exact arithmetic. A ratio is measured in units of
`2 ^ -1074`, shifted down until fifty-three bits remain, and rounded there; a ratio
halfway between two neighbours goes to the even one. Main ingredients:

* `roundHalfEven`, the whole number nearest to a ratio;
* `Binary64.ofRatio`, the number nearest to a ratio;
* `Decimal.nearest`, the number nearest to a decimal. -/

namespace CurveScript

/-- The whole number nearest to `num / den`, the even one of two equally near. -/
def roundHalfEven (num den : Nat) : Nat :=
  let quotient := num / den
  let twice := 2 * (num % den)
  if twice < den then quotient
  else if den < twice then quotient + 1
  else quotient + quotient % 2

/-- The number nearest to `num / den`. Fields are packed by adding: a significand that
    reaches the next power of two carries into the exponent, and past the largest
    finite number it carries into infinity. -/
def Binary64.ofRatio (num den : Nat) : Binary64 :=
  let scaled := num * Nat.pow 2 1074
  let shift := (scaled / den).log2 - 52
  let significand := roundHalfEven scaled (den * Nat.pow 2 shift)
  ⟨UInt64.ofNat (min (shift * leadingBit + significand) infinityBits)⟩

/-- The number nearest to a decimal. Two tests keep the powers of ten small: from
    `10 ^ 310` on every number overflows, and below `10 ^ -324` every number is nearer
    to zero than to anything else. -/
def Decimal.nearest (d : Decimal) : Binary64 :=
  if d.digits == 0 then ⟨0⟩
  else if 310 ≤ d.exponent then ⟨UInt64.ofNat Binary64.infinityBits⟩
  else if d.exponent + d.digits.log2 + 1 ≤ -324 then ⟨0⟩
  else if 0 ≤ d.exponent then Binary64.ofRatio (d.digits * Nat.pow 10 d.exponent.toNat) 1
  else Binary64.ofRatio d.digits (Nat.pow 10 (-d.exponent).toNat)

end CurveScript
