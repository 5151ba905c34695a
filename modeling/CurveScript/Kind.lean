/-! # Token kinds

The closed catalogue of what a token is. Names, literals and operators are scanned. Words and
rests of a command are fetched on request, the two kinds of expression stand for a parsed piece of
a command and are never scanned, and `nop` marks the end of the text or the start of a comment. -/

namespace CurveScript

inductive Kind where
  | lowerName
  | camelName
  | upperLetter
  | quoted
  | variable
  | function
  | number
  | dataset
  | word
  | expr
  | varExpr
  | rest
  | nop
  | lessEq
  | greaterEq
  | notEq
  | eqEq
  | append
  | dots
  | plusMinus
  | addAssign
  | subAssign
  | lparen
  | rparen
  | lbracket
  | rbracket
  | lbrace
  | rbrace
  | plus
  | minus
  | star
  | slash
  | caret
  | less
  | greater
  | assign
  | comma
  | semicolon
  | dot
  | colon
  | tilde
  | question
  | bang
  deriving DecidableEq, Repr

namespace Kind

/-- The name of a kind in messages. An operator is named by the way it is written. -/
def name : Kind → String
  | .lowerName => "lower_case_name"
  | .camelName => "CamelCaseName"
  | .upperLetter => "Upper-case-letter"
  | .quoted => "'quoted-string'"
  | .variable => "$variable_name"
  | .function => "%func_name"
  | .number => "number"
  | .dataset => "@dataset"
  | .word => "word"
  | .expr => "expr"
  | .varExpr => "var-expr"
  | .rest => "rest-of-line"
  | .nop => "Nop"
  | .lessEq => "<="
  | .greaterEq => ">="
  | .notEq => "!="
  | .eqEq => "=="
  | .append => ">>"
  | .dots => ".."
  | .plusMinus => "+-"
  | .addAssign => "+="
  | .subAssign => "-="
  | .lparen => "("
  | .rparen => ")"
  | .lbracket => "["
  | .rbracket => "]"
  | .lbrace => "\x7b"
  | .rbrace => "\x7d"
  | .plus => "+"
  | .minus => "-"
  | .star => "*"
  | .slash => "/"
  | .caret => "^"
  | .less => "<"
  | .greater => ">"
  | .assign => "="
  | .comma => ","
  | .semicolon => ";"
  | .dot => "."
  | .colon => ":"
  | .tilde => "~"
  | .question => "?"
  | .bang => "!"

/-- The text that every token of a kind has, if there is only one. Inequality and the range can be
    written in two ways. -/
def fixed? : Kind → Option String
  | .lowerName | .camelName | .upperLetter | .quoted | .variable | .function => none
  | .number | .dataset | .word | .expr | .varExpr | .rest | .nop => none
  | .dots | .notEq => none
  | kind => some kind.name

/-- Whether the text of a token is shown along with its kind. -/
def showsText : Kind → Bool
  | .lowerName | .camelName | .upperLetter | .quoted | .variable | .function => true
  | .word | .rest | .varExpr => true
  | _ => false

end Kind

end CurveScript
