import CurveScript.Proofs.Reading
import Mathlib.Computability.Language

/-! # The grammar of lexemes

Each lexical class is a regular language, `Class.words`, written with the operations on
languages over sorts of characters and a list of the operators, and without any reference to
how a munch is computed. Main ingredients:

* `Operator.spellings`, the ways to write an operator;
* `Class.words mode k`, the words of the class `k`;
* `Class.words_eq`, which says the same in the classes of bytes that a munch tests;
* `Operator.spelling_cases` and `Opening.mem_spellings`, which say that a munch tells apart what
  the list of operators has, and nothing else;
* `Munched mode w m`, all that a munch `m` of `w` can be, one constructor for each outcome;
* `Munch.ofBytes_munched`, which says that `Munch.ofBytes` has one of these outcomes. -/

namespace CurveScript

open scoped Computability

/-! ## Bytes and runs -/

namespace Byte

/-- A byte that begins neither a comment nor a lexeme of a class other than the operators.
    Only a dot can begin a number all the same. -/
def isPlain (b : Byte) : Bool :=
  b != hash && b != quote && b != dollar && b != percent && b != ampersat && b != underscore &&
    !b.isDigit && !b.isLetter

theorem run_append {p : Byte → Bool} {u : List Byte} (all : ∀ b ∈ u, p b = true) (s : List Byte) :
    run p (u ++ s) = u.length + run p s := by
  induction u with
  | nil => simp
  | cons b u inductionHypothesis =>
    have tail := inductionHypothesis fun c member => all c (List.mem_cons_of_mem b member)
    rw [List.cons_append, run_cons, all b List.mem_cons_self, if_pos rfl, tail, List.length_cons]
    omega

theorem run_of_head {p : Byte → Bool} {b : Byte} (refused : p b = false) (s : List Byte) :
    run p (b :: s) = 0 := by
  rw [run_cons, refused, if_neg (by simp)]

theorem head_of_run_eq_zero {p : Byte → Bool} {b : Byte} {s : List Byte}
    (nothing : run p (b :: s) = 0) : p b = false := by
  rw [run_cons] at nothing
  split at nothing
  · omega
  · next refused => simpa using refused

end Byte

/-! ## Languages -/

namespace Grammar

/-- One byte of a class. -/
def one (p : Byte → Bool) : Language Byte :=
  {w | ∃ b, p b = true ∧ w = [b]}

/-- Any number of bytes of a class. -/
def many (p : Byte → Bool) : Language Byte :=
  (one p)∗

/-- At least one byte of a class. -/
def many1 (p : Byte → Bool) : Language Byte :=
  one p * many p

/-- A given byte. -/
def mark (b : Byte) : Language Byte :=
  {[b]}

/-- A word of a language or nothing. -/
def optional (l : Language Byte) : Language Byte :=
  1 + l

/-- A byte that is an ASCII character of some sort. -/
def ascii (p : Char → Bool) (b : Byte) : Bool :=
  b < 0x80 && p (Char.ofUInt8 b)

/-- A given character. -/
def char (c : Char) : Language Byte :=
  {String.utf8EncodeChar c}

/-- The characters that continue a name. -/
def nameChar (c : Char) : Bool :=
  c.isAlphanum || c == '_'

/-- The characters that may follow a sigil. -/
def sigilChar (c : Char) : Bool :=
  c.isAlpha || c == '_' || c == '*'

/-- The characters that continue a name behind a sigil. -/
def patternChar : Mode → Char → Bool
  | .normal => nameChar
  | .glob => fun c => nameChar c || c == '*'

/-- The digits behind a decimal point, which may be absent. -/
def fraction : Language Byte :=
  char '.' * many (ascii Char.isDigit)

/-- A decimal exponent, with a sign or without. -/
def exponent : Language Byte :=
  one (ascii fun c => c == 'e' || c == 'E') * optional (char '+' + char '-') *
    many1 (ascii Char.isDigit)

variable {p : Byte → Bool} {b : Byte} {w : List Byte}

theorem mem_one : w ∈ one p ↔ ∃ b, p b = true ∧ w = [b] := Iff.rfl

theorem mem_mark : w ∈ mark b ↔ w = [b] := Iff.rfl

theorem mem_many : w ∈ many p ↔ ∀ b ∈ w, p b = true := by
  constructor
  · rintro ⟨pieces, rfl, single⟩ b member
    obtain ⟨piece, inPieces, inPiece⟩ := List.mem_flatten.mp member
    obtain ⟨c, holds, rfl⟩ := single piece inPieces
    rw [List.mem_singleton] at inPiece
    rw [inPiece]
    exact holds
  · intro all
    -- The pieces are the single bytes of the word.
    refine ⟨w.map fun b => [b], (List.flatMap_singleton' w).symm, ?_⟩
    intro piece member
    obtain ⟨b, inside, rfl⟩ := List.mem_map.mp member
    exact ⟨b, all b inside, rfl⟩

theorem mem_many1 : w ∈ many1 p ↔ ∃ b u, w = b :: u ∧ p b = true ∧ ∀ c ∈ u, p c = true := by
  constructor
  · rintro ⟨first, ⟨b, holds, rfl⟩, u, all, rfl⟩
    exact ⟨b, u, rfl, holds, mem_many.mp all⟩
  · rintro ⟨b, u, rfl, holds, all⟩
    exact ⟨[b], ⟨b, holds, rfl⟩, u, mem_many.mpr all, rfl⟩

/-- A word of `many1 p` is a word of `many p` that is not empty. -/
theorem mem_many1_iff : w ∈ many1 p ↔ w ≠ [] ∧ ∀ b ∈ w, p b = true := by
  rw [mem_many1]
  cases w with
  | nil => simp
  | cons b u => simp

end Grammar

/-- All the ways to write an operator. -/
def Operator.spellings : Operator → List String
  | .lessEq => ["<="]
  | .greaterEq => [">="]
  | .notEq => ["!=", "<>"]
  | .eqEq => ["=="]
  | .append => [">>"]
  | .dots => ["..", "..."]
  | .plusMinus => ["+-"]
  | .addAssign => ["+="]
  | .subAssign => ["-="]
  | .lparen => ["("]
  | .rparen => [")"]
  | .lbracket => ["["]
  | .rbracket => ["]"]
  | .lbrace => ["\x7b"]
  | .rbrace => ["\x7d"]
  | .plus => ["+"]
  | .minus => ["-"]
  | .star => ["*"]
  | .slash => ["/"]
  | .caret => ["^"]
  | .less => ["<"]
  | .greater => [">"]
  | .assign => ["="]
  | .comma => [","]
  | .semicolon => [";"]
  | .dot => ["."]
  | .colon => [":"]
  | .tilde => ["~"]
  | .question => ["?"]
  | .bang => ["!"]

open Grammar in
/-- The words of a lexical class. The mode decides which characters continue a name behind a
    sigil. -/
def Class.words (mode : Mode) : Class → Language Byte
  | .lowerName => one (ascii fun c => c.isLower || c == '_') * many (ascii nameChar)
  | .camelName => one (ascii Char.isUpper) * many1 (ascii Char.isAlphanum)
  | .upperLetter => one (ascii Char.isUpper)
  | .quoted => char '\x27' * many (fun b => !ascii (· == '\x27') b) * char '\x27'
  | .variable => char '$' * one (ascii sigilChar) * many (ascii (patternChar mode))
  | .function => char '%' * one (ascii sigilChar) * many (ascii (patternChar mode))
  | .number =>
    (many1 (ascii Char.isDigit) * optional fraction + char '.' * many1 (ascii Char.isDigit)) *
      optional exponent
  | .dataset => char '@' * (char '*' + char '+' + many1 (ascii Char.isDigit))
  | .operator op => {w | ∃ s ∈ op.spellings, w = Text.bytes s}

/-! ## Sorts of characters as classes of bytes -/

namespace Grammar

theorem ascii_eq {p : Char → Bool} {q : Byte → Bool} (checked : (List.range 256).all
      (fun n => ascii p (UInt8.ofNat n) == q (UInt8.ofNat n)) = true) : ascii p = q := by
  funext b
  exact eq_of_beq (Byte.forall_of_all (p := fun b => ascii p b == q b) checked b)

theorem ascii_isDigit : ascii Char.isDigit = Byte.isDigit := ascii_eq (by decide +kernel)

theorem ascii_sigilChar : ascii sigilChar = Byte.isSigilStart := ascii_eq (by decide +kernel)

theorem ascii_patternChar (mode : Mode) : ascii (patternChar mode) = mode.continues := by
  cases mode with
  | normal => exact ascii_eq (q := Byte.isNameByte) (by decide +kernel)
  | glob => exact ascii_eq (q := Byte.isPatternByte) (by decide +kernel)

theorem fraction_eq : fraction = mark Byte.dot * many Byte.isDigit := by
  rw [fraction, ascii_isDigit]
  rfl

theorem exponent_eq :
    exponent = one Byte.isExponentMark * optional (one Byte.isSign) * many1 Byte.isDigit := by
  have mark : ascii (fun c => c == 'e' || c == 'E') = Byte.isExponentMark :=
    ascii_eq (by decide +kernel)
  have sign : char '+' + char '-' = one Byte.isSign := by
    ext w
    constructor
    · rintro (plus | minus)
      · exact ⟨Byte.plus, rfl, plus⟩
      · exact ⟨Byte.minus, rfl, minus⟩
    · rintro ⟨b, signed, rfl⟩
      rcases Bool.or_eq_true_iff.mp signed with plus | minus
      · rw [eq_of_beq plus]
        exact .inl rfl
      · rw [eq_of_beq minus]
        exact .inr rfl
  rw [exponent, mark, sign, ascii_isDigit]

end Grammar

open Grammar in
/-- The words of a class in the classes of bytes that a munch tests. -/
theorem Class.words_eq (mode : Mode) (k : Class) : k.words mode = match k with
    | .lowerName => one (fun b => b.isLower || b == Byte.underscore) * many Byte.isNameByte
    | .camelName => one Byte.isUpper * many1 Byte.isAlphanumeric
    | .upperLetter => one Byte.isUpper
    | .quoted => mark Byte.quote * many (· != Byte.quote) * mark Byte.quote
    | .variable => mark Byte.dollar * one Byte.isSigilStart * many mode.continues
    | .function => mark Byte.percent * one Byte.isSigilStart * many mode.continues
    | .number =>
      (many1 Byte.isDigit * optional fraction + mark Byte.dot * many1 Byte.isDigit) *
        optional exponent
    | .dataset => mark Byte.ampersat * (mark Byte.star + mark Byte.plus + many1 Byte.isDigit)
    | .operator op => (Class.operator op).words mode := by
  have upper : ascii Char.isUpper = Byte.isUpper := ascii_eq (by decide +kernel)
  match k with
  | .lowerName =>
    have first : ascii (fun c => c.isLower || c == '_') =
        fun b => b.isLower || b == Byte.underscore := ascii_eq (by decide +kernel)
    have continues : ascii nameChar = Byte.isNameByte := ascii_patternChar .normal
    rw [words, first, continues]
  | .camelName =>
    have continues : ascii Char.isAlphanum = Byte.isAlphanumeric := ascii_eq (by decide +kernel)
    rw [words, upper, continues]
  | .upperLetter => rw [words, upper]
  | .quoted =>
    have body : (fun b => !ascii (· == '\x27') b) = (· != Byte.quote) := by
      have quote : ascii (· == '\x27') = (· == Byte.quote) := ascii_eq (by decide +kernel)
      rw [quote]
      rfl
    rw [words, body]
    rfl
  | .variable | .function =>
    rw [words, ascii_sigilChar, ascii_patternChar]
    rfl
  | .number | .dataset =>
    rw [words, ascii_isDigit]
    rfl
  | .operator op => rfl

/-! ## Operators -/

namespace Operator

/-- A spelling is ASCII text. Its first byte begins no lexeme of another sort, unless a dot begins
    a number. -/
theorem spelling_cons {op : Operator} {s : String} (inSpellings : s ∈ op.spellings) :
    ∃ b rest, Text.bytes s = b :: rest ∧ b.isPlain = true ∧
      ∀ c ∈ b :: rest, c.isNonAscii = false := by
  have listed : ∀ op ∈ all, ∀ s ∈ op.spellings,
      (Text.bytes s).head?.any Byte.isPlain = true ∧ ∀ c ∈ Text.bytes s, c.isNonAscii = false := by
    decide +kernel
  obtain ⟨plain, ascii⟩ := listed op (mem_all op) s inSpellings
  cases spelled : Text.bytes s with
  | nil => rw [spelled] at plain; cases plain
  | cons b rest =>
    rw [spelled] at plain ascii
    exact ⟨b, rest, rfl, plain, ascii⟩

/-- The spellings that are made of dots. -/
def dotted : List (Operator × List Byte) :=
  [(.dot, [Byte.dot]), (.dots, [Byte.dot, Byte.dot]), (.dots, [Byte.dot, Byte.dot, Byte.dot])]

end Operator

namespace Opening

/-- Whether the opening of a word tells that it is an operator. -/
def tells (op : Operator) : List Byte → Bool
  | [b] => (ofChar? (Char.ofUInt8 b)).any (·.alone == op)
  | [b, c] => (ofChar? (Char.ofUInt8 b)).any (·.longer.lookup (Char.ofUInt8 c) == some op)
  | _ => false

/-- What an opening tells apart are spellings. -/
theorem mem_spellings {op : Operator} {w : List Byte} (told : tells op w = true) :
    ∃ s ∈ op.spellings, w = Text.bytes s := by
  have spelled : ∀ {op : Operator} {w : List Byte}, op.spellings.any (w == Text.bytes ·) = true →
      ∃ s ∈ op.spellings, w = Text.bytes s := by
    intro op w listed
    obtain ⟨s, inSpellings, same⟩ := List.any_eq_true.mp listed
    exact ⟨s, inSpellings, eq_of_beq same⟩
  match w with
  | [b] =>
    have listed := Byte.forall_of_all (p := fun b => (ofChar? (Char.ofUInt8 b)).all fun opening =>
      opening.alone.spellings.any ([b] == Text.bytes ·)) (by decide +kernel) b
    obtain ⟨opening, found, alone⟩ := (Option.any_eq_true _ _).mp told
    rw [found, Option.all_some] at listed
    rw [← eq_of_beq alone]
    exact spelled listed
  | [b, c] =>
    have listed := Byte.forall_of_all (p := fun b => (ofChar? (Char.ofUInt8 b)).all fun opening =>
      opening.longer.all fun entry => entry.2.spellings.any ([b, entry.1.toUInt8] == Text.bytes ·))
      (by decide +kernel) b
    obtain ⟨opening, found, longer⟩ := (Option.any_eq_true _ _).mp told
    rw [found, Option.all_some] at listed
    obtain ⟨before, after, split, _⟩ := List.lookup_eq_some_iff.mp (eq_of_beq longer)
    have here := List.all_eq_true.mp listed (Char.ofUInt8 c, op) (by simp [split])
    have same : (Char.ofUInt8 c).toUInt8 = c :=
      eq_of_beq (Byte.forall_of_all (p := fun c => (Char.ofUInt8 c).toUInt8 == c)
        (by decide +kernel) c)
    dsimp only at here
    rw [same] at here
    exact spelled here

end Opening

/-- Every spelling is told apart by its opening, unless it is made of dots. -/
theorem Operator.spelling_cases {op : Operator} {s : String} (inSpellings : s ∈ op.spellings) :
    Opening.tells op (Text.bytes s) = true ∨ (op, Text.bytes s) ∈ dotted := by
  have listed : ∀ op ∈ all, ∀ s ∈ op.spellings,
      Opening.tells op (Text.bytes s) = true ∨ (op, Text.bytes s) ∈ dotted := by
    decide +kernel
  exact listed op (mem_all op) s inSpellings

/-- A byte that begins neither a lexeme nor a comment. -/
def Byte.isStray (b : Byte) : Bool :=
  b.isPlain && Operator.all.all fun op => op.spellings.all fun s => (Text.bytes s).head? != some b

theorem Byte.isStray_iff {b : Byte} : b.isStray = true ↔
    b.isPlain = true ∧ ∀ op : Operator, ∀ s ∈ op.spellings, (Text.bytes s).head? ≠ some b := by
  simp [isStray, Operator.mem_all]

theorem Opening.ofChar?_eq_none_iff {b : Byte} (plain : b.isPlain = true) (single : b ≠ Byte.dot) :
    ofChar? (Char.ofUInt8 b) = none ↔ b.isStray = true := by
  rw [Byte.isStray_iff]
  constructor
  · intro unopened
    refine ⟨plain, fun op s inSpellings begins => ?_⟩
    obtain ⟨rest, spelled⟩ := List.head?_eq_some_iff.mp begins
    cases Operator.spelling_cases inSpellings with
    | inl told =>
      rw [spelled] at told
      match rest with
      | [] | [_] => simp [tells, unopened] at told
      | _ :: _ :: _ => cases told
    | inr dotted =>
      rw [spelled] at dotted
      simp [Operator.dotted, single] at dotted
  · rintro ⟨_, absent⟩
    cases found : ofChar? (Char.ofUInt8 b) with
    | none => rfl
    | some opening =>
      have told : tells opening.alone [b] = true := by simp [tells, found]
      obtain ⟨s, inSpellings, spelled⟩ := mem_spellings told
      exact absurd (by rw [← spelled]; rfl) (absent opening.alone s inSpellings)

/-! ## Outcomes of a munch -/

/-- What a munch of `w` can be. A munch that is no word says what the bytes lack. -/
inductive Munched (mode : Mode) : List Byte → Munch → Prop where
  | ended : Munched mode [] ⟨.endOfText, 0⟩
  | comment (rest : List Byte) : Munched mode (Byte.hash :: rest) ⟨.comment, 0⟩
  | word (k : Class) {w : List Byte} (rest : List Byte) :
      w ∈ k.words mode → Munched mode (w ++ rest) ⟨.lexeme k, w.length⟩
  | unclosedString {rest : List Byte} :
      Byte.quote ∉ rest → Munched mode (Byte.quote :: rest) ⟨.unclosedString, rest.length + 1⟩
  | badSigil {b : Byte} {rest : List Byte} :
      b = Byte.dollar ∨ b = Byte.percent → rest.head?.any Byte.isSigilStart = false →
      Munched mode (b :: rest) ⟨.badSigil, 1⟩
  | badSelector {rest : List Byte} :
      (rest.head?.any fun b => b == Byte.star || b == Byte.plus || b.isDigit) = false →
      Munched mode (Byte.ampersat :: rest) ⟨.badSelector, 1⟩
  | badChar {b : Byte} {rest : List Byte} : b.isStray = true →
      Munched mode (b :: rest) ⟨.badChar, min b.charWidth (rest.length + 1)⟩

namespace Munch

open Grammar

variable {mode : Mode}

theorem ofQuoted_munched (rest : List Byte) :
    Munched mode (Byte.quote :: rest) (ofQuoted rest) := by
  obtain ⟨u, s, rfl, length, all, stops⟩ := Byte.run_split (· != Byte.quote) rest
  rw [ofQuoted, length]
  cases s with
  | nil =>
    rw [List.append_nil, if_neg (Nat.lt_irrefl _)]
    refine .unclosedString fun member => ?_
    simpa using all _ member
  | cons q s =>
    have closed : q = Byte.quote := by simpa using Byte.head_of_run_eq_zero stops
    have member : [Byte.quote] ++ u ++ [Byte.quote] ∈ Class.quoted.words mode := by
      rw [Class.words_eq]
      exact Language.append_mem_mul (Language.append_mem_mul (mem_mark.mpr rfl) (mem_many.mpr all))
        (mem_mark.mpr rfl)
    have munched := Munched.word .quoted s member
    rw [if_pos (by simp), closed]
    simpa using munched

theorem ofSigil_munched {b : Byte} {k : Class} (sigil : b = Byte.dollar ∨ b = Byte.percent)
    (words : k.words mode = mark b * one Byte.isSigilStart * many mode.continues)
    (rest : List Byte) : Munched mode (b :: rest) (ofSigil mode k rest) := by
  cases rest with
  | nil => exact .badSigil sigil rfl
  | cons c rest =>
    by_cases starts : c.isSigilStart = true
    · obtain ⟨u, s, rfl, length, all, _⟩ := Byte.run_split mode.continues rest
      have member : [b] ++ [c] ++ u ∈ k.words mode := by
        rw [words]
        exact Language.append_mem_mul (Language.append_mem_mul (mem_mark.mpr rfl)
          (mem_one.mpr ⟨c, starts, rfl⟩)) (mem_many.mpr all)
      have munched := Munched.word k s member
      rw [ofSigil, if_pos starts, length]
      simpa using munched
    · rw [ofSigil, if_neg starts]
      exact .badSigil sigil (by simpa using starts)

theorem ofSelector_munched (rest : List Byte) :
    Munched mode (Byte.ampersat :: rest) (ofSelector rest) := by
  cases rest with
  | nil => exact .badSelector rfl
  | cons c rest =>
    rw [ofSelector]
    by_cases single : (c == Byte.star || c == Byte.plus) = true
    · rw [if_pos single]
      have member : [Byte.ampersat] ++ [c] ∈ Class.dataset.words mode := by
        rw [Class.words_eq]
        refine Language.append_mem_mul (mem_mark.mpr rfl) (.inl ?_)
        rcases Bool.or_eq_true_iff.mp single with star | plus
        · exact .inl (mem_mark.mpr (by rw [eq_of_beq star]))
        · exact .inr (mem_mark.mpr (by rw [eq_of_beq plus]))
      exact Munched.word .dataset rest member
    · rw [if_neg single]
      by_cases digit : c.isDigit = true
      · rw [if_pos digit]
        obtain ⟨u, s, rfl, length, all, _⟩ := Byte.run_split Byte.isDigit rest
        have member : [Byte.ampersat] ++ (c :: u) ∈ Class.dataset.words mode := by
          rw [Class.words_eq]
          exact Language.append_mem_mul (mem_mark.mpr rfl)
            (.inr (mem_many1.mpr ⟨c, u, rfl, digit, all⟩))
        have munched := Munched.word .dataset s member
        rw [length]
        simpa using munched
      · rw [if_neg digit]
        refine .badSelector ?_
        simp only [List.head?_cons, Option.any_some, Bool.or_eq_false_iff]
        simp only [Bool.or_eq_true, not_or, Bool.not_eq_true] at single
        exact ⟨single, by simpa using digit⟩

theorem fraction_split (w : List Byte) :
    ∃ f s, w = f ++ s ∧ fractionLength w = f.length ∧ f ∈ optional fraction := by
  rw [fraction_eq]
  cases w with
  | nil => exact ⟨[], [], rfl, rfl, .inl rfl⟩
  | cons b rest =>
    rw [fractionLength]
    by_cases dot : (b == Byte.dot) = true
    · obtain ⟨u, s, rfl, length, all, _⟩ := Byte.run_split Byte.isDigit rest
      refine ⟨b :: u, s, rfl, ?_, .inr ⟨[b], ?_, u, mem_many.mpr all, rfl⟩⟩
      · rw [if_pos dot, length, List.length_cons, Nat.add_comm]
      · exact mem_mark.mpr (by rw [eq_of_beq dot])
    · rw [if_neg dot]
      exact ⟨[], b :: rest, rfl, rfl, .inl rfl⟩

theorem sign_split (w : List Byte) :
    ∃ g s, w = g ++ s ∧ signLength w = g.length ∧ g ∈ optional (one Byte.isSign) := by
  cases w with
  | nil => exact ⟨[], [], rfl, rfl, .inl rfl⟩
  | cons b rest =>
    by_cases sign : b.isSign = true
    · exact ⟨[b], rest, rfl, by simp [signLength, sign], .inr ⟨b, sign, rfl⟩⟩
    · exact ⟨[], b :: rest, rfl, by simp [signLength, sign], .inl rfl⟩

theorem exponent_split (w : List Byte) :
    ∃ e s, w = e ++ s ∧ exponentLength w = e.length ∧ e ∈ optional exponent := by
  rw [exponent_eq]
  cases w with
  | nil => exact ⟨[], [], rfl, rfl, .inl rfl⟩
  | cons b rest =>
    obtain ⟨g, tail, rfl, signLength, sign⟩ := sign_split rest
    rw [exponentLength, signLength, List.drop_left]
    obtain ⟨u, s, rfl, length, all, _⟩ := Byte.run_split Byte.isDigit tail
    rw [length]
    split
    · next present =>
      obtain ⟨marked, digits⟩ := Bool.and_eq_true_iff.mp present
      refine ⟨[b] ++ g ++ u, s, by simp, by simp; omega, .inr ?_⟩
      refine Language.append_mem_mul (Language.append_mem_mul ⟨b, marked, rfl⟩ sign) ?_
      refine mem_many1_iff.mpr ⟨?_, all⟩
      rintro rfl
      simp at digits
    · exact ⟨[], _, rfl, rfl, .inl rfl⟩

/-- Whether a number starts here: with a digit, or with a point and a digit. -/
def startsNumber : List Byte → Bool
  | [] => false
  | b :: rest => b.isDigit || (b == Byte.dot && rest.head?.any Byte.isDigit)

theorem number_munched {w : List Byte} (starts : startsNumber w = true) :
    Munched mode w ⟨.lexeme .number, numberLength w⟩ := by
  obtain ⟨u, s, rfl, length, all, stops⟩ := Byte.run_split Byte.isDigit w
  obtain ⟨f, s, rfl, fractionLength_eq, fractional⟩ := fraction_split s
  obtain ⟨e, s, rfl, exponentLength_eq, exponential⟩ := exponent_split s
  have total : numberLength (u ++ (f ++ (e ++ s))) = (u ++ f ++ e).length := by
    have behind : (u ++ (f ++ (e ++ s))).drop (u.length + f.length) = e ++ s := by
      rw [← List.append_assoc, ← List.length_append, List.drop_left]
    rw [numberLength, length, List.drop_left, fractionLength_eq, behind, exponentLength_eq,
      List.length_append, List.length_append]
  have mantissa : u ++ f ∈ many1 Byte.isDigit * optional fraction +
      mark Byte.dot * many1 Byte.isDigit := by
    by_cases empty : u = []
    · -- Without a digit in front there are a point and a digit behind it.
      subst empty
      refine .inr ?_
      have long : 2 ≤ f.length := by
        rw [← fractionLength_eq]
        cases fraction : f ++ (e ++ s) with
        | nil => rw [List.nil_append, fraction] at starts; cases starts
        | cons b rest =>
          rw [List.nil_append, fraction] at starts
          rw [fraction] at stops
          have noDigit := Byte.head_of_run_eq_zero stops
          simp only [startsNumber, noDigit, Bool.false_or, Bool.and_eq_true] at starts
          obtain ⟨dot, digit⟩ := starts
          cases rest with
          | nil => cases digit
          | cons d rest =>
            have digit : d.isDigit = true := digit
            rw [fractionLength, if_pos dot, Byte.run_cons, if_pos digit]
            omega
      rcases fractional with rfl | fractional
      · simp at long
      · rw [fraction_eq] at fractional
        obtain ⟨point, pointed, digits, allDigits, rfl⟩ := Language.mem_mul.mp fractional
        rw [List.nil_append]
        refine Language.append_mem_mul pointed (mem_many1_iff.mpr ⟨?_, mem_many.mp allDigits⟩)
        rintro rfl
        rw [mem_mark.mp pointed] at long
        simp at long
    · exact .inl (Language.append_mem_mul (mem_many1_iff.mpr ⟨empty, all⟩) fractional)
  have member : u ++ f ++ e ∈ Class.number.words mode := by
    rw [Class.words_eq]
    exact Language.append_mem_mul mantissa exponential
  have munched := Munched.word .number s member
  rw [total]
  simpa using munched

theorem ofUpper_munched {b : Byte} (upper : b.isUpper = true) (rest : List Byte) :
    Munched mode (b :: rest) (ofUpper rest) := by
  obtain ⟨u, s, rfl, length, all, _⟩ := Byte.run_split Byte.isAlphanumeric rest
  rw [ofUpper, length]
  cases u with
  | nil =>
    have member : [b] ∈ Class.upperLetter.words mode := by
      rw [Class.words_eq]
      exact mem_one.mpr ⟨b, upper, rfl⟩
    have munched := Munched.word .upperLetter s member
    simpa using munched
  | cons c u =>
    have member : [b] ++ (c :: u) ∈ Class.camelName.words mode := by
      rw [Class.words_eq]
      exact Language.append_mem_mul (mem_one.mpr ⟨b, upper, rfl⟩) (mem_many1_iff.mpr ⟨by simp, all⟩)
    have munched := Munched.word .camelName s member
    simpa using munched

theorem ofLower_munched {b : Byte} (lower : (b.isLower || b == Byte.underscore) = true)
    (rest : List Byte) : Munched mode (b :: rest) (ofLower rest) := by
  obtain ⟨u, s, rfl, length, all, _⟩ := Byte.run_split Byte.isNameByte rest
  have member : [b] ++ u ∈ Class.lowerName.words mode := by
    rw [Class.words_eq]
    exact Language.append_mem_mul (mem_one.mpr ⟨b, lower, rfl⟩) (mem_many.mpr all)
  have munched := Munched.word .lowerName s member
  rw [ofLower, length]
  simpa using munched

/-- What an opening takes is what it tells apart. -/
theorem ofOpening_told {b : Byte} {opening : Opening}
    (found : Opening.ofChar? (Char.ofUInt8 b) = some opening) (rest : List Byte) :
    ∃ op w s, b :: rest = w ++ s ∧ Opening.tells op w = true ∧
      ofOpening opening rest = ⟨.lexeme (.operator op), w.length⟩ := by
  have alone : Opening.tells opening.alone [b] = true := by simp [Opening.tells, found]
  cases rest with
  | nil => exact ⟨opening.alone, [b], [], rfl, alone, rfl⟩
  | cons c rest =>
    cases longer : opening.longer.lookup (Char.ofUInt8 c) with
    | none => exact ⟨opening.alone, [b], c :: rest, rfl, alone, by simp [ofOpening, longer]⟩
    | some op =>
      refine ⟨op, [b, c], rest, rfl, ?_, by simp [ofOpening, longer]⟩
      simp [Opening.tells, found, longer]

theorem ofSymbol_munched {b : Byte} (plain : b.isPlain = true) (single : b ≠ Byte.dot)
    (rest : List Byte) : Munched mode (b :: rest) (ofSymbol b rest) := by
  rw [ofSymbol]
  cases found : Opening.ofChar? (Char.ofUInt8 b) with
  | none => exact .badChar ((Opening.ofChar?_eq_none_iff plain single).mp found)
  | some opening =>
    obtain ⟨op, w, s, split, told, taken⟩ := ofOpening_told found rest
    dsimp only
    rw [split, taken]
    exact .word (.operator op) s (Opening.mem_spellings told)

theorem dotted_munched {w s : List Byte} (op : Operator) (listed : (op, w) ∈ Operator.dotted) :
    Munched mode (w ++ s) ⟨.lexeme (.operator op), w.length⟩ := by
  have spelled : ∀ entry ∈ Operator.dotted, ∃ s ∈ entry.1.spellings, entry.2 = Text.bytes s := by
    decide +kernel
  exact .word (.operator op) s (spelled _ listed)

theorem ofDot_munched (rest : List Byte) : Munched mode (Byte.dot :: rest) (ofDot rest) := by
  have single : Munched mode (Byte.dot :: rest) ⟨.lexeme (.operator .dot), 1⟩ :=
    dotted_munched (w := [Byte.dot]) .dot (by decide)
  cases rest with
  | nil => exact single
  | cons b rest =>
    rw [ofDot]
    by_cases digit : b.isDigit = true
    · rw [if_pos digit]
      exact number_munched (by simp [startsNumber, digit])
    rw [if_neg digit]
    by_cases second : b = Byte.dot
    · subst second
      rw [if_pos (by decide)]
      -- A third dot belongs to the range.
      cases rest with
      | nil => exact dotted_munched (w := [Byte.dot, Byte.dot]) .dots (by decide)
      | cons c rest =>
        by_cases third : c = Byte.dot
        · subst third
          exact dotted_munched (w := [Byte.dot, Byte.dot, Byte.dot]) .dots (by decide)
        · rw [List.head?_cons, if_neg (by simpa using third)]
          exact dotted_munched (w := [Byte.dot, Byte.dot]) .dots (by decide)
    · rw [if_neg (by simpa using second)]
      exact single

/-- Every munch is one of the outcomes. -/
theorem ofBytes_munched (mode : Mode) (w : List Byte) : Munched mode w (ofBytes mode w) := by
  cases w with
  | nil => exact .ended
  | cons b rest =>
    rw [ofBytes]
    -- The cases come in the order in which the rules are tried.
    by_cases comment : b = Byte.hash
    · subst comment
      exact .comment rest
    by_cases quote : b = Byte.quote
    · subst quote
      exact ofQuoted_munched rest
    by_cases dollar : b = Byte.dollar
    · subst dollar
      exact ofSigil_munched (.inl rfl) (Class.words_eq mode .variable) rest
    by_cases percent : b = Byte.percent
    · subst percent
      exact ofSigil_munched (.inr rfl) (Class.words_eq mode .function) rest
    by_cases ampersat : b = Byte.ampersat
    · subst ampersat
      exact ofSelector_munched rest
    by_cases dot : b = Byte.dot
    · subst dot
      exact ofDot_munched rest
    simp only [beq_iff_eq, comment, quote, dollar, percent, ampersat, dot, if_false]
    split
    · next digit => exact number_munched (by simp [startsNumber, digit])
    next noDigit =>
    split
    · next upper => exact ofUpper_munched upper rest
    next noUpper =>
    split
    · next lower => exact ofLower_munched (by simpa using lower) rest
    next noLower =>
    -- What no other rule takes is plain.
    refine ofSymbol_munched ?_ dot rest
    simp only [beq_iff_eq, not_or, Bool.or_eq_true, Bool.not_eq_true] at noDigit noUpper noLower
    simp [Byte.isPlain, Byte.isLetter, *]

end Munch

end CurveScript
