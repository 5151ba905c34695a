import CurveScript.Diagnostic
import CurveScript.Token

/-! # Expectations

What a parser may ask of the next token: that it is of some kind, that it has some
text, or one of two such things. An expectation is a test of tokens together with the
words for what was expected and for what was found instead. -/

namespace CurveScript

inductive Expectation where
  | kind (k : Kind)
  | eitherKind (first second : Kind)
  | text (t : String)
  | eitherText (first second : String)
  | kindOrText (k : Kind) (t : String)
  deriving DecidableEq, Repr

namespace Expectation

def accepts : Expectation → Token → Bool
  | .kind k, token => token.kind == k
  | .eitherKind first second, token => token.kind == first || token.kind == second
  | .text t, token => token.text == t
  | .eitherText first second, token => token.text == first || token.text == second
  | .kindOrText k t, token => token.kind == k || token.text == t

def quoted (text : String) : String :=
  "`" ++ text ++ "'"

def describe : Expectation → String
  | .kind k => k.name
  | .eitherKind first second => first.name ++ " or " ++ second.name
  | .text t => quoted t
  | .eitherText first second => quoted first ++ " or " ++ quoted second
  | .kindOrText k t => k.name ++ " or " ++ quoted t

/-- The word for a token that was not expected: its kind where only kinds were asked for, its
    text otherwise. -/
def nameFound : Expectation → Token → String
  | .kind _, token | .eitherKind _ _, token => token.kind.name
  | .text _, token | .eitherText _ _, token | .kindOrText _ _, token => quoted token.text

/-- The cause that reports a token which was not expected. At the end nothing is found. -/
def mismatch (e : Expectation) (token : Token) : Cause :=
  .mismatch e.describe (if token.isNop then none else some (e.nameFound token))

end Expectation

end CurveScript
