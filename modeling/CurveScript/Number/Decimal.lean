import CurveScript.Byte

/-! # Decimal numerals

The number that a numeral denotes, as a pair of integers: the decimal `⟨d, e⟩` stands
for `d · 10 ^ e`. A numeral has digits, optionally a point and more digits, and
optionally an exponent with a sign of its own. -/

namespace CurveScript

/-! ## Digit strings -/

namespace Digits

def value (w : List Byte) : Nat :=
  w.foldl (fun n b => 10 * n + b.digitValue) 0

/-- The value of a string that has digits only, and at least one of them. -/
def value? (w : List Byte) : Option Nat :=
  if !w.isEmpty && w.all Byte.isDigit then some (value w) else none

end Digits

/-! ## Numerals -/

/-- The number `digits · 10 ^ exponent`. -/
structure Decimal where
  digits : Nat
  exponent : Int
  deriving DecidableEq, Repr

namespace Decimal

/-- The digits behind a decimal point, and what follows them. Without a point there are
    no such digits. -/
def splitFraction : List Byte → List Byte × List Byte
  | [] => ([], [])
  | b :: rest =>
    if b == Byte.dot then (rest.takeWhile Byte.isDigit, rest.dropWhile Byte.isDigit)
    else ([], b :: rest)

def signed? : List Byte → Option Int
  | [] => none
  | b :: rest =>
    if b == Byte.minus then (Digits.value? rest).map fun n => -(n : Int)
    else if b == Byte.plus then (Digits.value? rest).map Int.ofNat
    else (Digits.value? (b :: rest)).map Int.ofNat

/-- The value of an exponent, zero when it is absent. -/
def exponent? : List Byte → Option Int
  | [] => some 0
  | b :: rest => if b.isExponentMark then signed? rest else none

/-- The number that a numeral denotes. Each digit behind the point counts a tenth of
    the digit before it. -/
def ofBytes? (w : List Byte) : Option Decimal := do
  let whole := w.takeWhile Byte.isDigit
  let (fraction, tail) := splitFraction (w.dropWhile Byte.isDigit)
  let digits ← Digits.value? (whole ++ fraction)
  let exponent ← exponent? tail
  return ⟨digits, exponent - fraction.length⟩

end Decimal

end CurveScript
