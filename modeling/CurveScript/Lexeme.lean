import CurveScript.Cursor
import CurveScript.Munch

/-! # Lexemes

A lexeme is a tagged piece of a fragment, given by where it starts and how long it
is. A cursor scans one lexeme at a time: it skips white space, takes the longest
munch and moves behind it. At a terminator it stays, so that the terminator comes
again. Main ingredients:

* `Cursor.scan`, one lexeme and the cursor behind it;
* `Cursor.scan_progress`, which says that less is left behind every lexeme that is no
  terminator;
* `Cursor.lexemes`, all lexemes up to the first terminator. -/

namespace CurveScript

structure Lexeme where
  tag : Tag
  start : Nat
  length : Nat
  deriving DecidableEq, Repr

def Lexeme.stop (lexeme : Lexeme) : Nat :=
  lexeme.start + lexeme.length

namespace Cursor

/-- Scan the next lexeme. Errors are lexemes too, with a tag of their own. -/
def scan (mode : Mode) (c : Cursor) : Lexeme × Cursor :=
  let c := c.skipSpace
  let munch := Munch.ofBytes mode c.rest
  (⟨munch.tag, c.pos, munch.length⟩, c.advance munch.length)

/-- Behind a lexeme that is no terminator, less is left. -/
theorem scan_progress {mode : Mode} {c : Cursor}
    (h : (c.scan mode).1.tag.isTerminator = false) :
    (c.scan mode).2.rest.length < c.rest.length := by
  have hpos : 0 < (Munch.ofBytes mode c.skipSpace.rest).length := Munch.length_pos h
  have hle := Munch.length_le mode c.skipSpace.rest
  have hskip : c.skipSpace.rest.length ≤ c.rest.length := by
    rw [skipSpace, rest_skipWhile, List.length_drop]
    omega
  have hrest : (c.scan mode).2.rest.length =
      c.skipSpace.rest.length - (Munch.ofBytes mode c.skipSpace.rest).length :=
    rest_length_advance _ _
  omega

/-- The lexemes from the cursor up to the first terminator, which is included. -/
def lexemes (mode : Mode) (c : Cursor) : List Lexeme :=
  let lexeme := (c.scan mode).1
  if lexeme.tag.isTerminator then [lexeme]
  else lexeme :: lexemes mode (c.scan mode).2
termination_by c.rest.length
decreasing_by exact scan_progress (Bool.eq_false_iff.mpr ‹_›)

end Cursor

end CurveScript
