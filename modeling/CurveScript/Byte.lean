/-! # Bytes of command text

A command is scanned byte by byte. This module fixes the alphabet:

* named bytes for the marks that begin a token of their own;
* the byte classes: white space, digits, letters, the bytes of a name;
* `charWidth`, the width of a UTF-8 character read off its first byte;
* `run p w`, the length of the longest leading run of `w` inside a class.

Every class is a range of ASCII, so no class contains a byte of a multi-byte
character and none contains zero. -/

namespace CurveScript

abbrev Byte := UInt8

namespace Byte

/-! ## Marks -/

abbrev quote : Byte := 0x27
abbrev hash : Byte := 0x23
abbrev dollar : Byte := 0x24
abbrev percent : Byte := 0x25
abbrev ampersat : Byte := 0x40
abbrev star : Byte := 0x2A
abbrev plus : Byte := 0x2B
abbrev minus : Byte := 0x2D
abbrev dot : Byte := 0x2E
abbrev semicolon : Byte := 0x3B
abbrev underscore : Byte := 0x5F

/-! ## Classes -/

/-- White space: the blank and the five control bytes from tab to carriage return. -/
def isSpace (b : Byte) : Bool :=
  b == 0x20 || (0x09 ≤ b && b ≤ 0x0D)

def isDigit (b : Byte) : Bool :=
  0x30 ≤ b && b ≤ 0x39

def isUpper (b : Byte) : Bool :=
  0x41 ≤ b && b ≤ 0x5A

def isLower (b : Byte) : Bool :=
  0x61 ≤ b && b ≤ 0x7A

def isLetter (b : Byte) : Bool :=
  b.isUpper || b.isLower

def isAlphanumeric (b : Byte) : Bool :=
  b.isLetter || b.isDigit

/-- A byte that may continue a name. -/
def isNameByte (b : Byte) : Bool :=
  b.isAlphanumeric || b == underscore

/-- A byte that may continue a name pattern, where `*` is a wildcard. -/
def isPatternByte (b : Byte) : Bool :=
  b.isNameByte || b == star

/-- A byte that may follow a sigil. -/
def isSigilStart (b : Byte) : Bool :=
  b.isLetter || b == underscore || b == star

def isExponentMark (b : Byte) : Bool :=
  b == 0x65 || b == 0x45

def isSign (b : Byte) : Bool :=
  b == plus || b == minus

/-- A byte of a bare word: anything but zero, white space, `;` and `#`. -/
def isWordByte (b : Byte) : Bool :=
  b != 0 && b != semicolon && b != hash && !b.isSpace

/-- A byte beyond ASCII, which is part of a multi-byte character. -/
def isNonAscii (b : Byte) : Bool :=
  0x80 ≤ b

def digitValue (b : Byte) : Nat :=
  b.toNat - 0x30

/-- The width in bytes of the UTF-8 character whose first byte is `b`. A byte that
    starts no multi-byte character counts as one character. -/
def charWidth (b : Byte) : Nat :=
  if 0xC0 ≤ b && b ≤ 0xDF then 2
  else if 0xE0 ≤ b && b ≤ 0xEF then 3
  else if 0xF0 ≤ b && b ≤ 0xF7 then 4
  else 1

/-! ## Runs -/

/-- The length of the longest leading run of bytes in the class `p`. -/
def run (p : Byte → Bool) (w : List Byte) : Nat :=
  (w.takeWhile p).length

@[simp] theorem run_nil (p : Byte → Bool) : run p [] = 0 := rfl

theorem run_cons (p : Byte → Bool) (b : Byte) (w : List Byte) :
    run p (b :: w) = if p b then run p w + 1 else 0 := by
  by_cases h : p b <;> simp [run, h]

theorem run_le_length (p : Byte → Bool) (w : List Byte) : run p w ≤ w.length :=
  (List.takeWhile_prefix p).length_le

theorem charWidth_pos (b : Byte) : 0 < b.charWidth := by
  unfold charWidth
  repeat' split
  all_goals decide

end Byte

end CurveScript
