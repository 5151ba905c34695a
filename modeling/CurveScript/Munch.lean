import CurveScript.Byte
import CurveScript.Tag

/-! # Maximal munch

What the longest lexeme at the front of some bytes is, and how long it is. The first
byte decides which rule applies, and each rule then takes as much as it can, with no more
than two bytes of lookahead. Main ingredients:

* `Mode`, whether a wildcard may continue a name behind a sigil;
* `Opening.ofChar? c`, the operators that begin with the character `c`;
* `Munch.ofBytes mode w`, the tag and the length of what `w` begins with;
* `Munch.length_le` and `Munch.length_pos`, which say that a munch stays inside the
  bytes and that only a terminator is empty. -/

namespace CurveScript

/-- Whether `*` continues a name behind a sigil. In `$p*` it is a wildcard where a
    pattern is meant, and a multiplication elsewhere, which is the default. -/
inductive Mode where
  | normal
  | glob
  deriving DecidableEq, Inhabited, Repr

def Mode.continues : Mode → Byte → Bool
  | .normal => Byte.isNameByte
  | .glob => Byte.isPatternByte

/-- The operators that begin with one character: the one that it is by itself, and those that it
    is together with a second character. -/
structure Opening where
  alone : Operator
  longer : List (Char × Operator)
  deriving DecidableEq, Repr

/-- Dots are not listed here, since three of them may stand together and a number may begin with
    one. -/
def Opening.ofChar? : Char → Option Opening
  | '>' => some ⟨.greater, [('=', .greaterEq), ('>', .append)]⟩
  | '<' => some ⟨.less, [('=', .lessEq), ('>', .notEq)]⟩
  | '=' => some ⟨.assign, [('=', .eqEq)]⟩
  | '+' => some ⟨.plus, [('-', .plusMinus), ('=', .addAssign)]⟩
  | '-' => some ⟨.minus, [('=', .subAssign)]⟩
  | '!' => some ⟨.bang, [('=', .notEq)]⟩
  | '(' => some ⟨.lparen, []⟩
  | ')' => some ⟨.rparen, []⟩
  | '[' => some ⟨.lbracket, []⟩
  | ']' => some ⟨.rbracket, []⟩
  | '\x7b' => some ⟨.lbrace, []⟩
  | '\x7d' => some ⟨.rbrace, []⟩
  | '*' => some ⟨.star, []⟩
  | '/' => some ⟨.slash, []⟩
  | '^' => some ⟨.caret, []⟩
  | ',' => some ⟨.comma, []⟩
  | ';' => some ⟨.semicolon, []⟩
  | ':' => some ⟨.colon, []⟩
  | '~' => some ⟨.tilde, []⟩
  | '?' => some ⟨.question, []⟩
  | _ => none

structure Munch where
  tag : Tag
  length : Nat
  deriving DecidableEq, Repr

namespace Munch

/-! ## Numbers -/

/-- The length of a decimal point and the digits behind it. -/
def fractionLength : List Byte → Nat
  | [] => 0
  | b :: rest => if b == Byte.dot then 1 + Byte.run Byte.isDigit rest else 0

/-- The length of a sign, which may be absent. -/
def signLength (w : List Byte) : Nat :=
  if w.head?.any Byte.isSign then 1 else 0

/-- The length of an exponent: the mark, at most one sign, and digits. Without a digit
    there is no exponent. -/
def exponentLength : List Byte → Nat
  | [] => 0
  | b :: rest =>
    let digits := Byte.run Byte.isDigit (rest.drop (signLength rest))
    if b.isExponentMark && digits != 0 then 1 + signLength rest + digits else 0

/-- The length of a number: digits, a fraction and an exponent, each as far as present. -/
def numberLength (w : List Byte) : Nat :=
  let whole := Byte.run Byte.isDigit w
  let mantissa := whole + fractionLength (w.drop whole)
  mantissa + exponentLength (w.drop mantissa)

/-! ## The other rules, by the bytes behind the first one -/

/-- A string reaches to the next quote, and an unclosed one to the end. -/
def ofQuoted (rest : List Byte) : Munch :=
  let body := Byte.run (· != Byte.quote) rest
  if body < rest.length then ⟨.lexeme .quoted, body + 2⟩ else ⟨.unclosedString, body + 1⟩

/-- A sigil needs a name or a pattern behind it. -/
def ofSigil (mode : Mode) (c : Class) : List Byte → Munch
  | [] => ⟨.badSigil, 1⟩
  | b :: rest =>
    if b.isSigilStart then ⟨.lexeme c, Byte.run mode.continues rest + 2⟩ else ⟨.badSigil, 1⟩

/-- A selector is `*`, `+` or a run of digits. -/
def ofSelector : List Byte → Munch
  | [] => ⟨.badSelector, 1⟩
  | b :: rest =>
    if b == Byte.star || b == Byte.plus then ⟨.lexeme .dataset, 2⟩
    else if b.isDigit then ⟨.lexeme .dataset, Byte.run Byte.isDigit rest + 2⟩
    else ⟨.badSelector, 1⟩

/-- An upper-case letter begins a camel-case name if a letter or digit follows it. -/
def ofUpper (rest : List Byte) : Munch :=
  let more := Byte.run Byte.isAlphanumeric rest
  if more == 0 then ⟨.lexeme .upperLetter, 1⟩ else ⟨.lexeme .camelName, more + 1⟩

/-- A lower-case letter or underscore begins a name. -/
def ofLower (rest : List Byte) : Munch :=
  ⟨.lexeme .lowerName, Byte.run Byte.isNameByte rest + 1⟩

/-- A dot begins a number if a digit follows it. Two or three dots are a range. -/
def ofDot : List Byte → Munch
  | [] => ⟨.lexeme (.operator .dot), 1⟩
  | b :: rest =>
    if b.isDigit then ⟨.lexeme .number, numberLength (Byte.dot :: b :: rest)⟩
    else if b == Byte.dot then
      ⟨.lexeme (.operator .dots), if rest.head? == some Byte.dot then 3 else 2⟩
    else ⟨.lexeme (.operator .dot), 1⟩

/-- A second character is taken if it makes a longer operator. -/
def ofOpening (opening : Opening) (rest : List Byte) : Munch :=
  match rest.head?.bind fun b => opening.longer.lookup (Char.ofUInt8 b) with
  | some op => ⟨.lexeme (.operator op), 2⟩
  | none => ⟨.lexeme (.operator opening.alone), 1⟩

/-- A character that begins no operator either is taken whole. -/
def ofSymbol (b : Byte) (rest : List Byte) : Munch :=
  match Opening.ofChar? (Char.ofUInt8 b) with
  | some opening => ofOpening opening rest
  | none => ⟨.badChar, min b.charWidth (rest.length + 1)⟩

/-- What the bytes `w` begin with. White space before a lexeme has been skipped. -/
def ofBytes (mode : Mode) (w : List Byte) : Munch :=
  match w with
  | [] => ⟨.endOfText, 0⟩
  | b :: rest =>
    if b == Byte.hash then ⟨.comment, 0⟩
    else if b == Byte.quote then ofQuoted rest
    else if b == Byte.dollar then ofSigil mode .variable rest
    else if b == Byte.percent then ofSigil mode .function rest
    else if b == Byte.ampersat then ofSelector rest
    else if b == Byte.dot then ofDot rest
    else if b.isDigit then ⟨.lexeme .number, numberLength w⟩
    else if b.isUpper then ofUpper rest
    else if b.isLower || b == Byte.underscore then ofLower rest
    else ofSymbol b rest

/-! ## A munch stays inside its bytes -/

theorem fractionLength_le (w : List Byte) : fractionLength w ≤ w.length := by
  cases w with
  | nil => simp [fractionLength]
  | cons b rest =>
    have := Byte.run_le_length Byte.isDigit rest
    simp only [fractionLength, List.length_cons]
    split <;> omega

theorem exponentLength_le (w : List Byte) : exponentLength w ≤ w.length := by
  cases w with
  | nil => simp [exponentLength]
  | cons b rest =>
    have hrun := Byte.run_le_length Byte.isDigit (rest.drop (signLength rest))
    rw [List.length_drop] at hrun
    simp only [exponentLength, List.length_cons]
    split
    · next h =>
      have hpos : Byte.run Byte.isDigit (rest.drop (signLength rest)) ≠ 0 := by
        simpa using (Bool.and_eq_true_iff.mp h).2
      omega
    · omega

theorem numberLength_le (w : List Byte) : numberLength w ≤ w.length := by
  have hw := Byte.run_le_length Byte.isDigit w
  have hf := fractionLength_le (w.drop (Byte.run Byte.isDigit w))
  have he := exponentLength_le
    (w.drop (Byte.run Byte.isDigit w + fractionLength (w.drop (Byte.run Byte.isDigit w))))
  simp only [List.length_drop] at hf he
  simp only [numberLength]
  omega

/-- A number has at least the digit or the dot it starts with. -/
theorem numberLength_pos {b : Byte} (h : b.isDigit = true ∨ b = Byte.dot) (rest : List Byte) :
    0 < numberLength (b :: rest) := by
  rcases h with hd | rfl
  · simp only [numberLength, Byte.run_cons, hd, if_true]
    omega
  · have hd : Byte.dot.isDigit = false := by decide
    simp only [numberLength, Byte.run_cons, hd, Bool.false_eq_true, if_false, List.drop_zero,
      fractionLength, beq_self_eq_true, if_true]
    omega

theorem ofQuoted_length (rest : List Byte) :
    0 < (ofQuoted rest).length ∧ (ofQuoted rest).length ≤ rest.length + 1 := by
  have := Byte.run_le_length (· != Byte.quote) rest
  simp only [ofQuoted]
  split <;> dsimp only <;> omega

theorem ofSigil_length (mode : Mode) (c : Class) (rest : List Byte) :
    0 < (ofSigil mode c rest).length ∧ (ofSigil mode c rest).length ≤ rest.length + 1 := by
  cases rest with
  | nil => simp [ofSigil]
  | cons b rest =>
    have := Byte.run_le_length mode.continues rest
    simp only [ofSigil, List.length_cons]
    split <;> dsimp only <;> omega

theorem ofSelector_length (rest : List Byte) :
    0 < (ofSelector rest).length ∧ (ofSelector rest).length ≤ rest.length + 1 := by
  cases rest with
  | nil => simp [ofSelector]
  | cons b rest =>
    have := Byte.run_le_length Byte.isDigit rest
    simp only [ofSelector, List.length_cons]
    split
    · dsimp only
      omega
    · split <;> dsimp only <;> omega

theorem ofUpper_length (rest : List Byte) :
    0 < (ofUpper rest).length ∧ (ofUpper rest).length ≤ rest.length + 1 := by
  have := Byte.run_le_length Byte.isAlphanumeric rest
  simp only [ofUpper]
  split <;> dsimp only <;> omega

theorem ofLower_length (rest : List Byte) :
    0 < (ofLower rest).length ∧ (ofLower rest).length ≤ rest.length + 1 := by
  have := Byte.run_le_length Byte.isNameByte rest
  simp only [ofLower]
  omega

theorem ofDot_length (rest : List Byte) :
    0 < (ofDot rest).length ∧ (ofDot rest).length ≤ rest.length + 1 := by
  cases rest with
  | nil => simp [ofDot]
  | cons b rest =>
    simp only [ofDot]
    split
    · exact ⟨numberLength_pos (.inr rfl) _, numberLength_le _⟩
    split
    · -- A third dot is there if it is taken.
      cases rest with
      | nil => simp
      | cons c rest =>
        simp only [List.length_cons]
        split <;> omega
    · simp

theorem ofOpening_length (opening : Opening) (rest : List Byte) :
    0 < (ofOpening opening rest).length ∧ (ofOpening opening rest).length ≤ rest.length + 1 := by
  cases rest with
  | nil => simp [ofOpening]
  | cons b rest =>
    simp only [ofOpening, List.length_cons]
    split <;> dsimp only <;> omega

theorem ofSymbol_length (b : Byte) (rest : List Byte) :
    0 < (ofSymbol b rest).length ∧ (ofSymbol b rest).length ≤ rest.length + 1 := by
  have := b.charWidth_pos
  simp only [ofSymbol]
  split
  · exact ofOpening_length _ rest
  · dsimp only
    omega

/-- Anything but a terminator has at least one byte and stays inside the bytes it is
    taken from. -/
theorem ofBytes_cons_length (mode : Mode) {b : Byte} (rest : List Byte) (h : b ≠ Byte.hash) :
    0 < (ofBytes mode (b :: rest)).length ∧
      (ofBytes mode (b :: rest)).length ≤ rest.length + 1 := by
  simp only [ofBytes, beq_eq_false_iff_ne.mpr h, Bool.false_eq_true, if_false]
  split
  · exact ofQuoted_length rest
  split
  · exact ofSigil_length mode .variable rest
  split
  · exact ofSigil_length mode .function rest
  split
  · exact ofSelector_length rest
  split
  · exact ofDot_length rest
  split
  · next hd => exact ⟨numberLength_pos (.inl hd) rest, numberLength_le (b :: rest)⟩
  split
  · exact ofUpper_length rest
  split
  · exact ofLower_length rest
  · exact ofSymbol_length b rest

@[simp] theorem ofBytes_nil (mode : Mode) : ofBytes mode [] = ⟨.endOfText, 0⟩ := rfl

@[simp] theorem ofBytes_hash (mode : Mode) (rest : List Byte) :
    ofBytes mode (Byte.hash :: rest) = ⟨.comment, 0⟩ := rfl

/-- A munch is no longer than the bytes it is taken from. -/
theorem length_le (mode : Mode) (w : List Byte) : (ofBytes mode w).length ≤ w.length := by
  cases w with
  | nil => simp
  | cons b rest =>
    by_cases h : b = Byte.hash
    · subst h
      simp
    · exact (ofBytes_cons_length mode rest h).2

/-- Only a terminator is empty. -/
theorem length_pos {mode : Mode} {w : List Byte}
    (h : (ofBytes mode w).tag.isTerminator = false) : 0 < (ofBytes mode w).length := by
  cases w with
  | nil => simp [Tag.isTerminator] at h
  | cons b rest =>
    by_cases hb : b = Byte.hash
    · subst hb
      simp [Tag.isTerminator] at h
    · exact (ofBytes_cons_length mode rest hb).1

end Munch

end CurveScript
