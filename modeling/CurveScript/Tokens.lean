import CurveScript.Decode

/-! # Streams of tokens

A cursor reads one token at a time: it scans a lexeme, cuts its text and decodes it.
When the lexeme is refused, the cursor is put back where it was. Main ingredients:

* `Failure`, the two ways in which reading can fail;
* `Cursor.read`, one token and the cursor behind it;
* `Cursor.tokens`, all tokens up to the end;
* `tokenize`, all tokens of a text. -/

namespace CurveScript

/-- Why there is no token: the text is wrong, or an end of the token lies inside a character, so
    that no text can be cut there. -/
inductive Failure where
  | diagnostic (d : Diagnostic)
  | misaligned
  deriving DecidableEq, Repr

namespace Cursor

/-- Read the next token. The scan has moved the cursor before the lexeme can be refused, so that
    it is moved back then. -/
def read (mode : Mode) (c : Cursor) : Except Failure Token × Cursor :=
  let before := c.pos
  let (lexeme, behind) := c.scan mode
  match behind.slice? lexeme.start lexeme.stop with
  | none => (.error .misaligned, c)
  | some text =>
    match Token.ofLexeme c.source.text lexeme text with
    | .ok token => (.ok token, behind)
    | .error d => (.error (.diagnostic d), behind.moveTo before)

/-- Behind a token that does not mark the end, less is left. -/
theorem read_progress {mode : Mode} {c next : Cursor} {t : Token}
    (fetched : c.read mode = (.ok t, next)) (proper : t.isNop = false) :
    next.rest.length < c.rest.length := by
  unfold read at fetched
  dsimp only at fetched
  split at fetched
  · cases fetched
  · split at fetched
    · next decoded =>
      cases fetched
      exact scan_progress (Token.isTerminator_of_ofLexeme decoded proper)
    · cases fetched

/-- The tokens from the cursor to the end, less the token that marks it. -/
def tokens (c : Cursor) : Except Failure (List Token) :=
  match _fetched : c.read .normal with
  | (.error failure, _) => .error failure
  | (.ok token, next) =>
    if token.isNop then .ok [] else (tokens next).map (token :: ·)
termination_by c.rest.length
decreasing_by exact read_progress _fetched (Bool.eq_false_iff.mpr ‹_›)

end Cursor

/-- The tokens of a text, up to its end or to a comment. -/
def tokenize (text : String) : Except Failure (List Token) :=
  (Cursor.ofText text).tokens

end CurveScript
