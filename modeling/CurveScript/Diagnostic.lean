import CurveScript.Text

/-! # Diagnostics

A diagnostic is a cause, the byte offset at which reading stopped, and the text right
before that offset, which shows where in a long command something went wrong. -/

namespace CurveScript

inductive Cause where
  | unclosedString
  | badSigil (sigil : Char)
  | badSelector
  | badChar (found : Char)
  -- Nothing is found where the text ends.
  | mismatch (expected : String) (found : Option String)
  | badNumber (text : String)
  -- A message of the parser's own.
  | raised (message : String)
  deriving DecidableEq, Repr

def Cause.message : Cause → String
  | .unclosedString => "unfinished string"
  | .badSigil sigil => "unexpected character after '" ++ sigil.toString ++ "'"
  | .badSelector => "unexpected character after '@'"
  | .badChar found => "unexpected character: " ++ found.toString
  | .mismatch expected none => "expected " ++ expected
  | .mismatch expected (some found) => "expected " ++ expected ++ " instead of " ++ found
  | .badNumber text => "invalid number: " ++ text
  | .raised message => message

structure Diagnostic where
  cause : Cause
  offset : Nat
  near : Option String
  deriving DecidableEq, Repr

namespace Diagnostic

/-- How many bytes of text before the offset are shown. -/
def nearLength : Nat := 10

/-- The diagnostic for a cause at an offset of a text. -/
def locate (cause : Cause) (text : String) (offset : Nat) : Diagnostic :=
  ⟨cause, offset, Text.window? text nearLength offset⟩

def message (d : Diagnostic) : String :=
  d.cause.message

/-- The place, the text before it where there is enough, and the message. -/
def render (d : Diagnostic) : String :=
  let place := "at " ++ toString d.offset
  match d.near with
  | some near => place ++ ", near `" ++ near ++ "': " ++ d.message
  | none => place ++ ": " ++ d.message

end Diagnostic

end CurveScript
