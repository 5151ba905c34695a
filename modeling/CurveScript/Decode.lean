import CurveScript.Diagnostic
import CurveScript.Lexeme
import CurveScript.Number.Nearest
import CurveScript.Token

/-! # From lexemes to tokens

A lexeme and its text become a token, or the diagnostic that its tag stands for. Two
classes carry a payload: a number denotes the nearest binary64 number, and a dataset
selector denotes an index of 64 bits, which a long run of digits may exceed. -/

namespace CurveScript

/-- The kind of the token that a lexeme becomes. -/
def Kind.lexeme : Class → Kind
  | .lowerName => .lowerName
  | .camelName => .camelName
  | .upperLetter => .upperLetter
  | .quoted => .quoted
  | .variable => .variable
  | .function => .function
  | .number => .number
  | .dataset => .dataset
  | .operator .lessEq => .lessEq
  | .operator .greaterEq => .greaterEq
  | .operator .notEq => .notEq
  | .operator .eqEq => .eqEq
  | .operator .append => .append
  | .operator .dots => .dots
  | .operator .plusMinus => .plusMinus
  | .operator .addAssign => .addAssign
  | .operator .subAssign => .subAssign
  | .operator .lparen => .lparen
  | .operator .rparen => .rparen
  | .operator .lbracket => .lbracket
  | .operator .rbracket => .rbracket
  | .operator .lbrace => .lbrace
  | .operator .rbrace => .rbrace
  | .operator .plus => .plus
  | .operator .minus => .minus
  | .operator .star => .star
  | .operator .slash => .slash
  | .operator .caret => .caret
  | .operator .less => .less
  | .operator .greater => .greater
  | .operator .assign => .assign
  | .operator .comma => .comma
  | .operator .semicolon => .semicolon
  | .operator .dot => .dot
  | .operator .colon => .colon
  | .operator .tilde => .tilde
  | .operator .question => .question
  | .operator .bang => .bang

/-- What the bytes of a selector behind its `@` select. -/
def Dataset.ofSelector? (w : List Byte) : Option Dataset :=
  if w == [Byte.star] then some .all
  else if w == [Byte.plus] then some .new
  else (Digits.value? w).bind fun n =>
    if n < UInt64.size then some (.index (UInt64.ofNat n)) else none

/-- The payload of a lexeme, given its bytes. Only numbers and selectors have one. -/
def Payload.ofBytes? : Class → List Byte → Option Payload
  | .number, w => (Decimal.ofBytes? w).map fun d => .number d.nearest
  | .dataset, w => (Dataset.ofSelector? (w.drop 1)).map .dataset
  | _, _ => some .absent

def Text.firstChar (text : String) (default : Char) : Char :=
  text.toList.head?.getD default

/-- The token of a lexeme whose text is `text`. A diagnostic names the place where
    reading stopped: the start of a lexeme that is wrong as a whole, and the place
    behind a sigil or `@` that lacks what should follow. -/
def Token.ofLexeme (source : String) (lexeme : Lexeme) (text : String) :
    Except Diagnostic Token :=
  match lexeme.tag with
  | .lexeme c =>
    match Payload.ofBytes? c (Text.bytes text) with
    | some payload => .ok ⟨.lexeme c, text, ⟨lexeme.start, lexeme.stop⟩, payload⟩
    | none => .error (.locate (.badNumber text) source lexeme.start)
  | .comment | .endOfText => .ok (.nop lexeme.start)
  | .unclosedString => .error (.locate .unclosedString source lexeme.start)
  | .badSigil => .error (.locate (.badSigil (Text.firstChar text '$')) source lexeme.stop)
  | .badSelector => .error (.locate .badSelector source lexeme.stop)
  | .badChar =>
    .error (.locate (.badChar (Text.firstChar text (Char.ofNat 0xFFFD))) source lexeme.start)

/-- A token that does not mark the end comes from no terminator. -/
theorem Token.isTerminator_of_ofLexeme {source : String} {lexeme : Lexeme} {text : String}
    {t : Token} (decoded : Token.ofLexeme source lexeme text = .ok t)
    (proper : t.isNop = false) : lexeme.tag.isTerminator = false := by
  unfold Token.ofLexeme at decoded
  cases tagged : lexeme.tag with
  | comment | endOfText =>
    rw [tagged] at decoded
    cases decoded
    cases proper
  | _ => rfl

end CurveScript
