import CurveScript.Reader

/-! # Fetches

The calls that ask a reader for a token, as data: a parser's dealings with a reader are
then a list of fetches, tokens given back in between. -/

namespace CurveScript

inductive Fetch where
  | next
  | peek
  | glob
  | word
  | restOfCommand
  | restOfLine
  | expect (e : Expectation)
  | takeIf (k : Kind)
  deriving DecidableEq, Repr

def Reader.fetch : Fetch → Reader → Except Failure Token × Reader
  | .next => next
  | .peek => peek
  | .glob => nextGlob
  | .word => word
  | .restOfCommand => restOfCommand
  | .restOfLine => restOfLine
  | .expect e => expect e
  | .takeIf k => takeIf k

end CurveScript
