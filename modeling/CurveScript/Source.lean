import CurveScript.Text

/-! # The source of one command

A source is a text of which only a leading fragment is ever scanned: the bytes
before the first zero byte, and of these no more than a 32-bit offset can address.
The whole text is kept, because pieces of it are cut at byte offsets. -/

namespace CurveScript

/-- The largest 32-bit number. -/
def maxFragment : Nat := 0xFFFFFFFF

/-- The bytes of a text that are scanned: those before the first zero byte, cut off
    after `maxFragment`. -/
def fragment (text : String) : List Byte :=
  ((Text.bytes text).takeWhile (· != 0)).take maxFragment

/-- A text with its scanned fragment. The text determines the fragment, which is kept
    so that it is computed once. -/
structure Source where
  text : String
  bytes : List Byte
  bytes_eq : bytes = fragment text

namespace Source

def ofText (text : String) : Source :=
  ⟨text, fragment text, rfl⟩

def size (source : Source) : Nat :=
  source.bytes.length

/-- The byte at an offset, zero from the end of the fragment on. -/
def byteAt (source : Source) (pos : Nat) : Byte :=
  source.bytes.getD pos 0

/-- The piece of text between two offsets of the fragment, if both are boundaries. -/
def slice? (source : Source) (start stop : Nat) : Option String :=
  if stop ≤ source.size then Text.slice? source.text start stop else none

end Source

end CurveScript
