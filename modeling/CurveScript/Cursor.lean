import CurveScript.Source

/-! # Cursors

A cursor is a place in a source. It moves forward through the fragment, or is put at
any offset; a move never takes it past the end. Reading at the end gives a zero byte,
which occurs nowhere in a fragment. Main ingredients:

* `rest`, the bytes from the cursor to the end of the fragment;
* `advance` and `moveTo`, the two clamped moves;
* `skipWhile`, `seek?` and `seekEither`, which stop at a byte they look for. -/

namespace CurveScript

structure Cursor where
  source : Source
  pos : Nat

namespace Cursor

def ofText (text : String) : Cursor :=
  ⟨Source.ofText text, 0⟩

/-! ## Looking -/

/-- The bytes from the cursor to the end of the fragment. -/
def rest (c : Cursor) : List Byte :=
  c.source.bytes.drop c.pos

def current (c : Cursor) : Byte :=
  c.source.byteAt c.pos

def peek (c : Cursor) : Byte :=
  c.source.byteAt (c.pos + 1)

def peekSecond (c : Cursor) : Byte :=
  c.source.byteAt (c.pos + 2)

def atEnd (c : Cursor) : Bool :=
  c.source.size ≤ c.pos

def slice? (c : Cursor) (start stop : Nat) : Option String :=
  c.source.slice? start stop

def sliceFrom? (c : Cursor) (start : Nat) : Option String :=
  c.slice? start c.pos

/-! ## Moving -/

/-- Put the cursor at an offset, or at the end if that comes first. -/
def moveTo (c : Cursor) (pos : Nat) : Cursor :=
  { c with pos := min pos c.source.size }

/-- Move `n` bytes ahead, or to the end if that comes first. -/
def advance (c : Cursor) (n : Nat) : Cursor :=
  c.moveTo (c.pos + n)

def advanceChar (c : Cursor) : Cursor :=
  c.advance c.current.charWidth

def skipToEnd (c : Cursor) : Cursor :=
  { c with pos := c.source.size }

def skipWhile (p : Byte → Bool) (c : Cursor) : Cursor :=
  { c with pos := c.pos + Byte.run p c.rest }

def skipSpace (c : Cursor) : Cursor :=
  c.skipWhile Byte.isSpace

def skipWord (c : Cursor) : Cursor :=
  c.skipWhile Byte.isWordByte

def seek? (b : Byte) (c : Cursor) : Option Cursor :=
  (c.rest.idxOf? b).map fun n => { c with pos := c.pos + n }

/-- Move to the next byte that is `a` or `b`, or to the end. -/
def seekEither (a b : Byte) (c : Cursor) : Cursor :=
  match c.rest.findIdx? fun x => x == a || x == b with
  | some n => { c with pos := c.pos + n }
  | none => c.skipToEnd

/-- Move to the end of the command: the next `;` or `#`, or the end. -/
def skipCommand (c : Cursor) : Cursor :=
  c.seekEither Byte.semicolon Byte.hash

/-! ## How much is left -/

theorem rest_length (c : Cursor) : c.rest.length = c.source.size - c.pos := by
  simp [rest, Source.size]

theorem rest_skipWhile (p : Byte → Bool) (c : Cursor) :
    (c.skipWhile p).rest = c.rest.drop (Byte.run p c.rest) := by
  simp [rest, skipWhile, List.drop_drop]

/-- Moving ahead leaves that much less. -/
theorem rest_length_advance (c : Cursor) (n : Nat) :
    (c.advance n).rest.length = c.rest.length - n := by
  simp only [rest_length, advance, moveTo]
  omega

end Cursor

end CurveScript
