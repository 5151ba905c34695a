import CurveScript.Operator

/-! # Lexical classes

The classes of lexeme that command text is cut into: three sorts of bare name, quoted
strings, the two sorts of name behind a sigil, numbers, dataset selectors and
operators. Each has a numeric code. -/

namespace CurveScript

inductive Class where
  -- `foo`, `_x1`
  | lowerName
  -- `Gaussian`
  | camelName
  -- `F`
  | upperLetter
  | quoted
  -- `$name`
  | variable
  -- `%name`
  | function
  | number
  | dataset
  | operator (op : Operator)
  deriving DecidableEq, Repr

def Class.all : List Class :=
  [.lowerName, .camelName, .upperLetter, .quoted, .variable, .function, .number, .dataset] ++
    Operator.all.map .operator

theorem Class.mem_all (k : Class) : k ∈ all := by
  cases k with
  | operator op => exact List.mem_append_right _ (List.mem_map_of_mem op.mem_all)
  | _ => decide

/-- The text that every lexeme of a class has, if there is only one. -/
def Class.fixed? : Class → Option String
  | .operator op => op.fixed?
  | _ => none

/-- Operators of two or more characters are numbered from 32 on, those of one character from 64
    on. -/
def Operator.code : Operator → Nat
  | .lessEq => 32
  | .greaterEq => 33
  | .notEq => 34
  | .eqEq => 35
  | .append => 36
  | .dots => 37
  | .plusMinus => 38
  | .addAssign => 39
  | .subAssign => 40
  | .lparen => 64
  | .rparen => 65
  | .lbracket => 66
  | .rbracket => 67
  | .lbrace => 68
  | .rbrace => 69
  | .plus => 70
  | .minus => 71
  | .star => 72
  | .slash => 73
  | .caret => 74
  | .less => 75
  | .greater => 76
  | .assign => 77
  | .comma => 78
  | .semicolon => 79
  | .dot => 80
  | .colon => 81
  | .tilde => 82
  | .question => 83
  | .bang => 84

/-- Names and literals are numbered from 0 on. -/
def Class.code : Class → Nat
  | .lowerName => 0
  | .camelName => 1
  | .upperLetter => 2
  | .quoted => 3
  | .variable => 4
  | .function => 5
  | .number => 6
  | .dataset => 7
  | .operator op => op.code

end CurveScript
