import CurveScript.Number.Binary64
import CurveScript.Number.Decimal

/-! # The shortest decimal of a binary64 number

A finite number is written with the fewest digits that are nearer to it than to any
other number. The numbers that round to it form an interval around it, whose ends
belong to it when the significand is even. For one digit, two digits and so on, the two
decimals next to the number are tried, and the first that lies in the interval is
taken; of two, the nearer. Seventeen digits always suffice. Main ingredients:

* `RoundingInterval.ofNumber`, the interval in units of `10 ^ -1076`;
* `RoundingInterval.shortest`, the shortest decimal inside it;
* `Decimal.positional`, a decimal written without an exponent;
* `Binary64.render`, the text of any number. -/

namespace CurveScript

/-! ## The interval of decimals that round to a number -/

/-- The decimals that round to a number, as multiples of `10 ^ -1076`. -/
structure RoundingInterval where
  low : Nat
  center : Nat
  high : Nat
  closed : Bool

namespace RoundingInterval

def contains (i : RoundingInterval) (x : Nat) : Bool :=
  if i.closed then i.low ≤ x && x ≤ i.high else i.low < x && x < i.high

/-- The interval of a finite number. It reaches halfway to the neighbours, of which the
    lower one is only half as far away when the significand is a power of two. A
    quarter of the least positive number is the unit `2 ^ -1076`, which is
    `5 ^ 1076 · 10 ^ -1076`. -/
def ofNumber (x : Binary64) : RoundingInterval :=
  let unit := Nat.pow 2 x.shift * Nat.pow 5 1076
  let below := if x.significand == Binary64.leadingBit && x.shift != 0 then unit else 2 * unit
  let center := 4 * x.significand * unit
  ⟨center - below, center, center + 2 * unit, x.significand % 2 == 0⟩

/-- Of the two multiples of `grid` next to the number, the one that rounds to it, as a
    factor of `grid`. If both do, the nearer is taken, and the upper of two equally
    near. -/
def onGrid? (i : RoundingInterval) (grid : Nat) : Option Nat :=
  let lower := i.center / grid
  let upper := lower + 1
  match i.contains (lower * grid), i.contains (upper * grid) with
  | true, true =>
    if i.center - lower * grid < upper * grid - i.center then some lower else some upper
  | true, false => some lower
  | false, true => some upper
  | false, false => none

/-- The decimal with the fewest digits inside the interval. -/
def shortest (i : RoundingInterval) : Decimal :=
  let places := (Nat.toDigits 10 i.center).length
  let found := (List.range 17).findSome? fun n =>
    let exponent := places - (n + 1)
    (i.onGrid? (Nat.pow 10 exponent)).map fun digits => (⟨digits, exponent - 1076⟩ : Decimal)
  found.getD ⟨i.center, -1076⟩

end RoundingInterval

/-! ## Text -/

/-- A decimal written in full, without an exponent. The point is left out of a whole
    number, and a fraction ends in no zero. -/
def Decimal.positional (d : Decimal) : String :=
  let written := Nat.toDigits 10 d.digits
  let zeros := (written.reverse.takeWhile (· == '0')).length
  let digits := written.take (written.length - zeros)
  let exponent := d.exponent + zeros
  if 0 ≤ exponent then String.ofList (digits ++ List.replicate exponent.toNat '0')
  else
    let places := (-exponent).toNat
    let padded := List.replicate (places + 1 - digits.length) '0' ++ digits
    let whole := padded.length - places
    String.ofList (padded.take whole ++ '.' :: padded.drop whole)

/-- The text of a number: the shortest decimal that reads back as it. -/
def Binary64.render (x : Binary64) : String :=
  let sign := if x.isNegative then "-" else ""
  if x.isNaN then "NaN"
  else if x.isInfinite then sign ++ "inf"
  else if x.magnitude == 0 then sign ++ "0"
  else sign ++ (RoundingInterval.ofNumber x).shortest.positional

end CurveScript
