import CurveScript.Decode
import CurveScript.Proofs.Positional

/-! # Which lexemes have a value

Two classes of lexeme carry a payload, and the scan promises different things of them. A
number always denotes a decimal: `Decimal.ofBytes?_whole` and `Decimal.ofBytes?_pointed` read off
its digits and its exponent. A dataset selector may be too large for an index of 64 bits, and
`Dataset.ofSelector?_isSome_iff` says when it is not.

The parts of a numeral can be told apart because no exponent starts with a digit or a point
(`Decimal.Exponent.head`). -/

namespace CurveScript

open Grammar

/-! ## Selectors -/

/-- What may follow the mark of a selector: a star, a plus, or digits that denote a number of
    64 bits. -/
def Selectable (w : List Byte) : Prop :=
  w = [Byte.star] ∨ w = [Byte.plus] ∨
    (w ≠ [] ∧ ∀ b ∈ w, b.isDigit = true) ∧ Digits.value w < UInt64.size

theorem Digits.value?_eq_some_iff {w : List Byte} {n : Nat} :
    value? w = some n ↔ (w ≠ [] ∧ ∀ b ∈ w, b.isDigit = true) ∧ value w = n := by
  simp [value?]

theorem Dataset.ofSelector?_isSome_iff {w : List Byte} :
    (ofSelector? w).isSome = true ↔ Selectable w := by
  unfold ofSelector? Selectable
  by_cases star : w = [Byte.star]
  · simp [star]
  by_cases plus : w = [Byte.plus]
  · have unstarred : Byte.plus ≠ Byte.star := by decide
    simp [plus, unstarred]
  simp only [beq_iff_eq, star, plus, if_false, false_or]
  cases read : Digits.value? w with
  | none =>
    simp only [Option.bind_none, Option.isSome_none, Bool.false_eq_true, false_iff]
    rintro ⟨digits, _⟩
    rw [Digits.value?_eq_some_iff.mpr ⟨digits, rfl⟩] at read
    cases read
  | some n =>
    obtain ⟨digits, value⟩ := Digits.value?_eq_some_iff.mp read
    rw [value]
    by_cases small : n < UInt64.size
    · simpa [small, digits.1] using digits.2
    · simp [small]

/-! ## Numbers -/

namespace Decimal

/-- An exponent, and the power of ten that it stands for. -/
inductive Exponent : List Byte → Int → Prop where
  | absent : Exponent [] 0
  | unsigned {b : Byte} {w : List Byte} : b.isExponentMark = true → w ∈ many1 Byte.isDigit →
      Exponent (b :: w) (Digits.positional w)
  | plus {b : Byte} {w : List Byte} : b.isExponentMark = true → w ∈ many1 Byte.isDigit →
      Exponent (b :: Byte.plus :: w) (Digits.positional w)
  | minus {b : Byte} {w : List Byte} : b.isExponentMark = true → w ∈ many1 Byte.isDigit →
      Exponent (b :: Byte.minus :: w) (-Digits.positional w)

theorem exponent_of_mem {e : List Byte} (member : e ∈ optional Grammar.exponent) :
    ∃ x, Exponent e x := by
  rw [Grammar.exponent_eq] at member
  rcases member with rfl | member
  · exact ⟨0, .absent⟩
  · obtain ⟨front, joined, digits, many, rfl⟩ := Language.mem_mul.mp member
    obtain ⟨mark, ⟨b, marked, rfl⟩, sign, signed, rfl⟩ := Language.mem_mul.mp joined
    rcases signed with rfl | ⟨c, isSign, rfl⟩
    · exact ⟨_, .unsigned marked many⟩
    · rcases Bool.or_eq_true_iff.mp isSign with plus | minus
      · rw [eq_of_beq plus]
        exact ⟨_, .plus marked many⟩
      · rw [eq_of_beq minus]
        exact ⟨_, .minus marked many⟩

namespace Exponent

variable {e : List Byte} {x : Int}

theorem exponent?_eq (exponent : Exponent e x) : exponent? e = some x := by
  have value : ∀ {w}, w ∈ many1 Byte.isDigit → Digits.value? w = some (Digits.positional w) :=
    fun many => Digits.value?_eq_some_iff.mpr ⟨mem_many1_iff.mp many, Digits.value_eq_positional _⟩
  cases exponent with
  | absent => rfl
  | unsigned marked many =>
    have read := value many
    obtain ⟨d, u, rfl, digit, _⟩ := mem_many1.mp many
    -- The digits start with no sign, so that they are taken as they stand.
    have unsigned := Byte.imp_of_all (p := Byte.isDigit)
      (q := fun b => b != Byte.minus && b != Byte.plus) (by decide +kernel) digit
    simp only [Bool.and_eq_true, bne_iff_ne] at unsigned
    simp [exponent?, marked, signed?, unsigned, read]
  | plus marked many =>
    have positive : Byte.plus ≠ Byte.minus := by decide
    simp [exponent?, marked, signed?, positive, value many]
  | minus marked many => simp [exponent?, marked, signed?, value many]

/-- An exponent starts with neither a digit nor a point. -/
theorem head (exponent : Exponent e x) : e.takeWhile Byte.isDigit = [] ∧
    e.dropWhile Byte.isDigit = e ∧ splitFraction e = ([], e) := by
  cases exponent with
  | absent => exact ⟨rfl, rfl, rfl⟩
  | unsigned marked _ | plus marked _ | minus marked _ =>
    have proper := Byte.imp_of_all (p := Byte.isExponentMark)
      (q := fun b => !b.isDigit && b != Byte.dot) (by decide +kernel) marked
    simp only [Bool.and_eq_true, Bool.not_eq_true', bne_iff_ne] at proper
    simp [splitFraction, proper]

end Exponent

/-- The digits of a numeral on both sides of the point, and its exponent. -/
theorem number_parts {mode : Mode} {w : List Byte} (member : w ∈ Class.number.words mode) :
    ∃ u v e x, (w = u ++ e ∧ v = [] ∨ w = u ++ Byte.dot :: (v ++ e)) ∧
      u ++ v ∈ many1 Byte.isDigit ∧ Exponent e x := by
  rw [Class.words_eq] at member
  obtain ⟨m, mantissa, e, exponential, rfl⟩ := Language.mem_mul.mp member
  obtain ⟨x, exponent⟩ := exponent_of_mem exponential
  rcases mantissa with integral | fractional
  · obtain ⟨u, many, f, fractional, rfl⟩ := Language.mem_mul.mp integral
    rcases fractional with rfl | fractional
    · exact ⟨u, [], e, x, .inl ⟨by simp, rfl⟩, by simpa using many, exponent⟩
    · rw [Grammar.fraction_eq] at fractional
      obtain ⟨point, isPoint, v, digits, rfl⟩ := Language.mem_mul.mp fractional
      obtain ⟨nonempty, whole⟩ := mem_many1_iff.mp many
      rw [mem_mark.mp isPoint]
      refine ⟨u, v, e, x, .inr (by simp), mem_many1_iff.mpr ⟨by simp [nonempty], ?_⟩, exponent⟩
      exact List.forall_mem_append.mpr ⟨whole, mem_many.mp digits⟩
  · obtain ⟨point, isPoint, v, many, rfl⟩ := Language.mem_mul.mp fractional
    rw [mem_mark.mp isPoint]
    exact ⟨[], v, e, x, .inr (by simp), many, exponent⟩

section

variable {u v e : List Byte} {x : Int}

theorem ofBytes?_whole (many : u ∈ many1 Byte.isDigit) (exponent : Exponent e x) :
    ofBytes? (u ++ e) = some ⟨Digits.positional u, x⟩ := by
  obtain ⟨noDigit, same, noPoint⟩ := exponent.head
  have digits := (mem_many1_iff.mp many).2
  have read := Digits.value?_eq_some_iff.mpr ⟨mem_many1_iff.mp many, Digits.value_eq_positional u⟩
  have whole : (u ++ e).takeWhile Byte.isDigit = u := by
    rw [List.takeWhile_append_of_pos digits, noDigit, List.append_nil]
  have tail : (u ++ e).dropWhile Byte.isDigit = e := by
    rw [List.dropWhile_append_of_pos digits, same]
  simp [ofBytes?, whole, tail, noPoint, read, exponent.exponent?_eq]

theorem ofBytes?_pointed (many : u ++ v ∈ many1 Byte.isDigit) (exponent : Exponent e x) :
    ofBytes? (u ++ Byte.dot :: (v ++ e)) =
      some ⟨Digits.positional (u ++ v), x - v.length⟩ := by
  obtain ⟨noDigit, same, _⟩ := exponent.head
  obtain ⟨left, right⟩ := List.forall_mem_append.mp (mem_many1_iff.mp many).2
  have read := Digits.value?_eq_some_iff.mpr
    ⟨mem_many1_iff.mp many, Digits.value_eq_positional (u ++ v)⟩
  have point : Byte.dot.isDigit = false := by decide
  have whole : (u ++ Byte.dot :: (v ++ e)).takeWhile Byte.isDigit = u := by
    rw [List.takeWhile_append_of_pos left, List.takeWhile_cons_of_neg (by simp [point]),
      List.append_nil]
  have tail : (u ++ Byte.dot :: (v ++ e)).dropWhile Byte.isDigit = Byte.dot :: (v ++ e) := by
    rw [List.dropWhile_append_of_pos left, List.dropWhile_cons_of_neg (by simp [point])]
  have fraction : splitFraction (Byte.dot :: (v ++ e)) = (v, e) := by
    simp [splitFraction, List.takeWhile_append_of_pos right, List.dropWhile_append_of_pos right,
      noDigit, same]
  simp [ofBytes?, whole, tail, fraction, read, exponent.exponent?_eq]

end

theorem ofBytes?_of_mem {mode : Mode} {w : List Byte} (member : w ∈ Class.number.words mode) :
    ∃ d, ofBytes? w = some d := by
  obtain ⟨u, v, e, x, ⟨rfl, rfl⟩ | rfl, many, exponent⟩ := number_parts member
  · rw [List.append_nil] at many
    exact ⟨_, ofBytes?_whole many exponent⟩
  · exact ⟨_, ofBytes?_pointed many exponent⟩

end Decimal

/-- Of all lexemes, only a selector may lack a value. -/
theorem Payload.ofBytes?_eq_none_iff {mode : Mode} {k : Class} {w : List Byte}
    (member : w ∈ k.words mode) :
    ofBytes? k w = none ↔ k = .dataset ∧ ¬ Selectable (w.drop 1) := by
  match k with
  | .number =>
    obtain ⟨d, read⟩ := Decimal.ofBytes?_of_mem member
    simp [ofBytes?, read]
  | .dataset => simp [ofBytes?, ← Dataset.ofSelector?_isSome_iff]
  | .lowerName | .camelName | .upperLetter | .quoted | .variable | .function | .operator op =>
    simp [ofBytes?]

end CurveScript
