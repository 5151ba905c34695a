import CurveScript.Kind
import CurveScript.Number.Binary64
import CurveScript.Number.Shortest
import CurveScript.Span

/-! # Tokens

A token is a kind, the text it was cut from, the place of that text and a decoded
payload. Nothing ties the four together here: a parser may build tokens of its own.

* `Token.decoded`, the text without quotes and sigils;
* `Token.render`, a token as messages show it;
* `Token.sameAs`, equality with payloads compared as numbers. -/

namespace CurveScript

/-! ## Payloads -/

/-- What a dataset selector selects: `@*`, `@+`, or one dataset by its index. -/
inductive Dataset where
  | all
  | new
  | index (n : UInt64)
  deriving DecidableEq, Repr

inductive Payload where
  | absent
  | number (x : Binary64)
  | dataset (d : Dataset)
  deriving DecidableEq, Repr

def Dataset.render : Dataset → String
  | .all => "'*'"
  | .new => "'+'"
  | .index n => toString n.toNat

/-- Equality of payloads, with numbers compared as numbers and not by their bits. -/
def Payload.sameAs : Payload → Payload → Bool
  | .absent, .absent => true
  | .number x, .number y => x.sameNumber y
  | .dataset d, .dataset e => d == e
  | _, _ => false

/-! ## Tokens -/

structure Token where
  kind : Kind
  text : String
  span : Span
  payload : Payload
  deriving DecidableEq, Repr

namespace Token

def nop (pos : Nat) : Token :=
  ⟨.nop, "", .point pos, .absent⟩

def isNop (t : Token) : Bool :=
  t.kind == .nop

def number? (t : Token) : Option Binary64 :=
  match t.payload with
  | .number x => some x
  | _ => none

def dataset? (t : Token) : Option Dataset :=
  match t.payload with
  | .dataset d => some d
  | _ => none

def behind? (c : Char) : List Char → Option (List Char)
  | [] => none
  | d :: rest => if d == c then some rest else none

def before? (c : Char) (chars : List Char) : Option (List Char) :=
  (behind? c chars.reverse).map List.reverse

def quoteChar : Char := Char.ofNat 0x27

/-- The characters between the delimiters that a kind of token has. -/
def inner? : Kind → List Char → Option (List Char)
  | .quoted, chars => (behind? quoteChar chars).bind (before? quoteChar)
  | .variable, chars => behind? '$' chars
  | .function, chars => behind? '%' chars
  | _, _ => none

/-- The text without its delimiters: the two quotes of a string, the sigil of a
    variable or function. Text that lacks them is left as it is. -/
def decoded (t : Token) : String :=
  match inner? t.kind t.text.toList with
  | some chars => String.ofList chars
  | none => t.text

def shown (text : String) : String :=
  "\"" ++ text ++ "\""

def detail? (t : Token) : Option String :=
  if t.kind.showsText then some (shown t.text)
  else match t.kind, t.payload with
    | .expr, .number x => some (shown t.text ++ " (" ++ x.render ++ ")")
    | .expr, _ => some (shown t.text)
    | .number, .number x => some x.render
    | .dataset, .dataset d => some d.render
    | _, _ => none

/-- A token as messages show it: the kind, then the text or the value. -/
def render (t : Token) : String :=
  match t.detail? with
  | some detail => t.kind.name ++ " " ++ detail
  | none => t.kind.name

def sameAs (t u : Token) : Bool :=
  t.kind == u.kind && t.text == u.text && t.span == u.span && t.payload.sameAs u.payload

end Token

end CurveScript
