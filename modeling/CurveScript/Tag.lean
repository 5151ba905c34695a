import CurveScript.Class

/-! # Tags

A scan puts a tag on every piece of text it cuts. Besides the lexical classes there
are two terminators, which have no length, and four tags for text that begins like a
lexeme and is none. -/

namespace CurveScript

inductive Tag where
  | lexeme (c : Class)
  -- A comment reaches to the end of the text.
  | comment
  | endOfText
  | unclosedString
  -- A sigil without a name behind it.
  | badSigil
  -- An `@` without a selector behind it.
  | badSelector
  -- A character that starts no lexeme.
  | badChar
  deriving DecidableEq, Repr

namespace Tag

/-- The text that every piece with this tag has, if there is only one. -/
def fixed? : Tag → Option String
  | .lexeme c => c.fixed?
  | _ => none

/-- Terminators are numbered from 112 on, errors from 240 on. -/
def code : Tag → Nat
  | .lexeme c => c.code
  | .comment => 112
  | .endOfText => 113
  | .unclosedString => 240
  | .badSigil => 241
  | .badSelector => 242
  | .badChar => 243

def isError : Tag → Bool
  | .unclosedString | .badSigil | .badSelector | .badChar => true
  | .lexeme _ | .comment | .endOfText => false

def isTerminator : Tag → Bool
  | .comment | .endOfText => true
  | _ => false

end Tag

end CurveScript
