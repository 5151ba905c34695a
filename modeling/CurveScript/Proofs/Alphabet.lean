import CurveScript.Proofs.Boundary
import CurveScript.Proofs.Grammar

/-! # The bytes of words

Which bytes the words of the classes are made of. Strings hold any bytes between their quotes.
All other words are made of the bytes of names and a few marks, `Byte.isLexical`, except that
operators have marks of their own. Two facts follow by a look at the single bytes: such words
are ASCII (`Class.words_ascii`), and none of their bytes but the first can end a bare word
(`Class.words_solid`). -/

namespace CurveScript

/-- A byte of a word that is neither a string nor an operator. -/
def Byte.isLexical (b : Byte) : Bool :=
  b.isPatternByte || b == dollar || b == percent || b == ampersat || b == dot || b.isSign

namespace Grammar

/-- All bytes of all words lie in a class. -/
def Within (p : Byte → Bool) (l : Language Byte) : Prop :=
  ∀ w ∈ l, ∀ b ∈ w, p b = true

variable {p test : Byte → Bool} {l m : Language Byte}

theorem within_one (inside : ∀ b, test b = true → p b = true) : Within p (one test) := by
  intro w ⟨b, holds, single⟩ c member
  rw [single, List.mem_singleton] at member
  rw [member]
  exact inside b holds

theorem within_mark {b : Byte} (inside : p b = true) : Within p (mark b) := by
  intro w single c member
  rw [mem_mark.mp single, List.mem_singleton] at member
  rw [member]
  exact inside

theorem within_many (inside : ∀ b, test b = true → p b = true) : Within p (many test) := by
  intro w all b member
  exact inside b (mem_many.mp all b member)

theorem within_add (left : Within p l) (right : Within p m) : Within p (l + m) := by
  intro w member
  cases member with
  | inl member => exact left w member
  | inr member => exact right w member

theorem within_optional (inside : Within p l) : Within p (optional l) := by
  intro w member
  cases member with
  | inl empty =>
    intro b absent
    rw [Set.mem_singleton_iff.mp empty] at absent
    cases absent
  | inr member => exact inside w member

theorem within_mul (left : Within p l) (right : Within p m) : Within p (l * m) := by
  intro w member b inside
  obtain ⟨u, inLeft, v, inRight, rfl⟩ := Language.mem_mul.mp member
  cases List.mem_append.mp inside with
  | inl inside => exact left u inLeft b inside
  | inr inside => exact right v inRight b inside

theorem within_many1 (inside : ∀ b, test b = true → p b = true) : Within p (many1 test) :=
  within_mul (within_one inside) (within_many inside)

end Grammar

namespace Class

open Grammar

variable {mode : Mode} {k : Class}

theorem words_lexical (unquoted : k ≠ .quoted) (other : ∀ op, k ≠ .operator op) :
    Within Byte.isLexical (k.words mode) := by
  have digit : ∀ b : Byte, b.isDigit = true → b.isLexical = true :=
    fun _ => Byte.imp_of_all (by decide +kernel)
  have upper : ∀ b : Byte, b.isUpper = true → b.isLexical = true :=
    fun _ => Byte.imp_of_all (by decide +kernel)
  have continues : ∀ b : Byte, mode.continues b = true → b.isLexical = true := by
    cases mode with
    | normal => exact fun _ => Byte.imp_of_all (p := Byte.isNameByte) (by decide +kernel)
    | glob => exact fun _ => Byte.imp_of_all (p := Byte.isPatternByte) (by decide +kernel)
  have sigil : ∀ b : Byte, b.isSigilStart = true → b.isLexical = true :=
    fun _ => Byte.imp_of_all (by decide +kernel)
  rw [words_eq]
  match k with
  | .lowerName =>
    have first : ∀ b : Byte, (b.isLower || b == Byte.underscore) = true → b.isLexical = true :=
      fun _ => Byte.imp_of_all (p := fun b => b.isLower || b == Byte.underscore)
        (by decide +kernel)
    exact within_mul (within_one first)
      (within_many fun _ => Byte.imp_of_all (by decide +kernel))
  | .camelName =>
    exact within_mul (within_one upper)
      (within_many1 fun _ => Byte.imp_of_all (by decide +kernel))
  | .upperLetter => exact within_one upper
  | .quoted => exact absurd rfl unquoted
  | .variable | .function =>
    exact within_mul (within_mul (within_mark (by decide)) (within_one sigil))
      (within_many continues)
  | .number =>
    have fraction : Within Byte.isLexical fraction := by
      rw [fraction_eq]
      exact within_mul (within_mark (by decide)) (within_many digit)
    have exponent : Within Byte.isLexical exponent := by
      rw [exponent_eq]
      exact within_mul (within_mul (within_one fun _ => Byte.imp_of_all (by decide +kernel))
        (within_optional (within_one fun _ => Byte.imp_of_all (by decide +kernel))))
        (within_many1 digit)
    exact within_mul (within_add (within_mul (within_many1 digit) (within_optional fraction))
      (within_mul (within_mark (by decide)) (within_many1 digit))) (within_optional exponent)
  | .dataset =>
    exact within_mul (within_mark (by decide))
      (within_add (within_add (within_mark (by decide)) (within_mark (by decide)))
        (within_many1 digit))
  | .operator op => exact absurd rfl (other op)

theorem words_cases {w : List Byte} (member : w ∈ k.words mode) :
    k = .quoted ∨ (∃ op : Operator, ∃ s ∈ op.spellings, w = Text.bytes s) ∨
      ∀ b ∈ w, b.isLexical = true := by
  by_cases quoted : k = .quoted
  · exact .inl quoted
  by_cases symbol : ∃ op, k = .operator op
  · obtain ⟨op, rfl⟩ := symbol
    exact .inr (.inl ⟨op, member⟩)
  · exact .inr (.inr (words_lexical quoted (fun op same => symbol ⟨op, same⟩) w member))

theorem words_ascii (mode : Mode) {k : Class} (unquoted : k ≠ .quoted) {w : List Byte}
    (member : w ∈ k.words mode) : ∀ b ∈ w, b.isNonAscii = false := by
  rcases words_cases member with quoted | ⟨op, s, inSpellings, rfl⟩ | lexical
  · exact absurd quoted unquoted
  · obtain ⟨b, rest, spelled, _, ascii⟩ := Operator.spelling_cons inSpellings
    rw [spelled]
    exact ascii
  · intro b inside
    exact Byte.ascii_of_test (by decide +kernel) b (lexical b inside)

/-- A byte that ends a bare word can stand at the front of a word, but nowhere else unless
    there are quotes around it. -/
theorem words_solid (unquoted : k ≠ .quoted) {w : List Byte} (member : w ∈ k.words mode) :
    ∀ b ∈ w.tail, b.isWordByte = true := by
  rcases words_cases member with quoted | ⟨op, s, inSpellings, rfl⟩ | lexical
  · exact absurd quoted unquoted
  · have listed : ∀ op ∈ Operator.all, ∀ s ∈ op.spellings,
        ∀ b ∈ (Text.bytes s).tail, b.isWordByte = true := by
      decide +kernel
    exact listed op (Operator.mem_all op) s inSpellings
  · intro b inside
    exact Byte.imp_of_all (by decide +kernel) (lexical b (List.mem_of_mem_tail inside))

end Class

end CurveScript
