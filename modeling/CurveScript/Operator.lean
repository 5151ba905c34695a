/-! # Operators and punctuation

The operators of the command language. Most are always written the same way, and `fixed?` is the
table of their texts. Inequality and the range have two spellings each, so that they have no text
of their own. -/

namespace CurveScript

inductive Operator where
  | lessEq
  | greaterEq
  | notEq
  | eqEq
  | append
  | dots
  | plusMinus
  | addAssign
  | subAssign
  | lparen
  | rparen
  | lbracket
  | rbracket
  | lbrace
  | rbrace
  | plus
  | minus
  | star
  | slash
  | caret
  | less
  | greater
  | assign
  | comma
  | semicolon
  | dot
  | colon
  | tilde
  | question
  | bang
  deriving DecidableEq, Repr

namespace Operator

def all : List Operator :=
  [.lessEq, .greaterEq, .notEq, .eqEq, .append, .dots, .plusMinus, .addAssign, .subAssign,
   .lparen, .rparen, .lbracket, .rbracket, .lbrace, .rbrace, .plus, .minus, .star, .slash,
   .caret, .less, .greater, .assign, .comma, .semicolon, .dot, .colon, .tilde, .question, .bang]

theorem mem_all (op : Operator) : op ∈ all := by
  cases op <;> decide

/-- The text of an operator that has only one spelling. -/
def fixed? : Operator → Option String
  | .lessEq => some "<="
  | .greaterEq => some ">="
  | .eqEq => some "=="
  | .append => some ">>"
  | .plusMinus => some "+-"
  | .addAssign => some "+="
  | .subAssign => some "-="
  | .lparen => some "("
  | .rparen => some ")"
  | .lbracket => some "["
  | .rbracket => some "]"
  | .lbrace => some "\x7b"
  | .rbrace => some "\x7d"
  | .plus => some "+"
  | .minus => some "-"
  | .star => some "*"
  | .slash => some "/"
  | .caret => some "^"
  | .less => some "<"
  | .greater => some ">"
  | .assign => some "="
  | .comma => some ","
  | .semicolon => some ";"
  | .dot => some "."
  | .colon => some ":"
  | .tilde => some "~"
  | .question => some "?"
  | .bang => some "!"
  | .notEq | .dots => none

end Operator

end CurveScript
