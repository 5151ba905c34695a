import CurveScript.Proofs.Boundary
import CurveScript.Proofs.Grammar

/-! # A scan takes the longest match

No word of any class that begins the rest of a fragment is longer than what a scan takes
there, and one that is as long has the same class. The words are those of `Class.words`,
which know nothing of the scan; one lemma for each class shows that its rule takes no less
than a given word. Only three rules look at more than a run of bytes: a number, whose
exponent counts only with a digit in it, an upper-case letter, which is a class of its own
when it stands alone, and an operator, of which a longer one may begin with a shorter. -/

namespace CurveScript

/-! ## Which rule applies -/

namespace Munch

open Grammar

variable {mode : Mode} {b : Byte}

theorem ofBytes_number {w : List Byte} (starts : startsNumber w = true) :
    ofBytes mode w = ⟨.lexeme .number, numberLength w⟩ := by
  cases w with
  | nil => cases starts
  | cons b rest =>
    rcases Bool.or_eq_true_iff.mp starts with digit | pointed
    · have proper := Byte.imp_of_all (p := Byte.isDigit)
        (q := fun b => b != Byte.hash && b != Byte.quote && b != Byte.dollar && b != Byte.percent &&
          b != Byte.ampersat && b != Byte.dot) (by decide +kernel) digit
      simp only [Bool.and_eq_true, bne_iff_ne] at proper
      simp [ofBytes, proper, digit]
    · obtain ⟨dot, digit⟩ := Bool.and_eq_true_iff.mp pointed
      cases eq_of_beq dot
      cases rest with
      | nil => cases digit
      | cons c rest =>
        have digit : c.isDigit = true := digit
        change ofDot (c :: rest) = _
        rw [ofDot, if_pos digit]

theorem ofBytes_upper (upper : b.isUpper = true) (rest : List Byte) :
    ofBytes mode (b :: rest) = ofUpper rest := by
  have proper := Byte.imp_of_all (p := Byte.isUpper)
    (q := fun b => b != Byte.hash && b != Byte.quote && b != Byte.dollar && b != Byte.percent &&
      b != Byte.ampersat && !b.isDigit && b != Byte.dot) (by decide +kernel) upper
  simp only [Bool.and_eq_true, bne_iff_ne, Bool.not_eq_eq_eq_not] at proper
  simp [ofBytes, proper, upper]

theorem ofBytes_lower (lower : (b.isLower || b == Byte.underscore) = true) (rest : List Byte) :
    ofBytes mode (b :: rest) = ofLower rest := by
  have proper := Byte.imp_of_all (p := fun b => b.isLower || b == Byte.underscore)
    (q := fun b => b != Byte.hash && b != Byte.quote && b != Byte.dollar && b != Byte.percent &&
      b != Byte.ampersat && !b.isDigit && b != Byte.dot && !b.isUpper) (by decide +kernel) lower
  simp only [Bool.and_eq_true, bne_iff_ne, Bool.not_eq_eq_eq_not] at proper
  simp [ofBytes, proper, -Bool.or_eq_true, lower]

theorem ofBytes_plain (plain : b.isPlain = true) (single : b ≠ Byte.dot) (rest : List Byte) :
    ofBytes mode (b :: rest) = ofSymbol b rest := by
  simp only [Byte.isPlain, Byte.isLetter, Bool.and_eq_true, bne_iff_ne, Bool.not_eq_eq_eq_not,
    Bool.not_true, Bool.or_eq_false_iff] at plain
  simp [ofBytes, plain, single]

/-! ## Each rule takes every word of its class -/

/-- The munch is a lexeme that takes at least `n` bytes, and one of class `k` if no more. -/
def Covers (m : Munch) (k : Class) (n : Nat) : Prop :=
  ∃ k', m.tag = .lexeme k' ∧ n ≤ m.length ∧ (n = m.length → k' = k)

theorem covers_of_le {m : Munch} {k : Class} {n : Nat} (tagged : m.tag = .lexeme k)
    (long : n ≤ m.length) : m.Covers k n :=
  ⟨k, tagged, long, fun _ => rfl⟩

theorem ofLower_covers {w : List Byte} (member : w ∈ Class.lowerName.words mode) (s : List Byte) :
    (ofBytes mode (w ++ s)).Covers .lowerName w.length := by
  rw [Class.words_eq] at member
  obtain ⟨first, ⟨b, lower, rfl⟩, u, all, rfl⟩ := Language.mem_mul.mp member
  rw [List.append_assoc, List.singleton_append, List.singleton_append, ofBytes_lower lower]
  refine covers_of_le rfl ?_
  rw [ofLower, Byte.run_append (mem_many.mp all), List.length_cons]
  dsimp only
  omega

theorem ofUpper_covers_camelName {w : List Byte} (member : w ∈ Class.camelName.words mode)
    (s : List Byte) : (ofBytes mode (w ++ s)).Covers .camelName w.length := by
  rw [Class.words_eq] at member
  obtain ⟨first, ⟨b, upper, rfl⟩, u, many, rfl⟩ := Language.mem_mul.mp member
  obtain ⟨nonempty, all⟩ := mem_many1_iff.mp many
  have positive := List.length_pos_iff.mpr nonempty
  have more : ¬ (u.length + Byte.run Byte.isAlphanumeric s == 0) = true := by
    rw [beq_iff_eq]
    omega
  rw [List.append_assoc, List.singleton_append, List.singleton_append, ofBytes_upper upper,
    ofUpper, Byte.run_append all, if_neg more]
  refine covers_of_le rfl ?_
  rw [List.length_cons]
  dsimp only
  omega

theorem ofUpper_covers_upperLetter {w : List Byte} (member : w ∈ Class.upperLetter.words mode)
    (s : List Byte) : (ofBytes mode (w ++ s)).Covers .upperLetter w.length := by
  rw [Class.words_eq] at member
  obtain ⟨b, upper, rfl⟩ := member
  rw [List.singleton_append, ofBytes_upper upper, ofUpper]
  split
  · exact covers_of_le rfl (Nat.le_refl 1)
  · next more =>
    -- A name of more than one letter is longer than the letter.
    refine ⟨.camelName, rfl, Nat.succ_le_succ (Nat.zero_le _), fun short => ?_⟩
    have none : Byte.run Byte.isAlphanumeric s = 0 := (Nat.succ.inj short).symm
    simp [none] at more

/-- Nothing behind a string can change it. -/
theorem ofBytes_quoted {w : List Byte} (member : w ∈ Class.quoted.words mode) (s : List Byte) :
    ofBytes mode (w ++ s) = ⟨.lexeme .quoted, w.length⟩ := by
  rw [Class.words_eq] at member
  obtain ⟨opened, joined, close, closed, rfl⟩ := Language.mem_mul.mp member
  obtain ⟨start, started, u, all, rfl⟩ := Language.mem_mul.mp joined
  rw [mem_mark.mp started, mem_mark.mp closed]
  have body : Byte.run (· != Byte.quote) (u ++ Byte.quote :: s) = u.length := by
    rw [Byte.run_append (mem_many.mp all), Byte.run_of_head (by decide), Nat.add_zero]
  rw [List.append_assoc, List.append_assoc, List.singleton_append, List.singleton_append]
  change ofQuoted (u ++ Byte.quote :: s) = _
  rw [ofQuoted, body, if_pos (by simp)]
  simp

theorem ofQuoted_covers {w : List Byte} (member : w ∈ Class.quoted.words mode) (s : List Byte) :
    (ofBytes mode (w ++ s)).Covers .quoted w.length := by
  rw [ofBytes_quoted member]
  exact covers_of_le rfl (Nat.le_refl _)

/-- A name behind a sigil goes on over every byte behind it that continues a name. -/
theorem ofBytes_of_sigil {k : Class} {w : List Byte}
    (member : w ∈ mark b * one Byte.isSigilStart * many mode.continues) (s : List Byte)
    (rule : ∀ rest, ofBytes mode (b :: rest) = ofSigil mode k rest) :
    ofBytes mode (w ++ s) = ⟨.lexeme k, w.length + Byte.run mode.continues s⟩ := by
  obtain ⟨front, joined, u, all, rfl⟩ := Language.mem_mul.mp member
  obtain ⟨start, started, second, ⟨c, starts, rfl⟩, rfl⟩ := Language.mem_mul.mp joined
  rw [mem_mark.mp started, List.append_assoc, List.append_assoc, List.singleton_append,
    List.singleton_append, rule, ofSigil, if_pos starts, Byte.run_append (mem_many.mp all)]
  congr 1
  simp only [List.length_append, List.length_singleton]
  omega

theorem ofSigil_covers {k : Class} {w : List Byte}
    (member : w ∈ mark b * one Byte.isSigilStart * many mode.continues) (s : List Byte)
    (rule : ∀ rest, ofBytes mode (b :: rest) = ofSigil mode k rest) :
    (ofBytes mode (w ++ s)).Covers k w.length := by
  rw [ofBytes_of_sigil member s rule]
  exact covers_of_le rfl (Nat.le_add_right _ _)

theorem ofSelector_covers {w : List Byte} (member : w ∈ Class.dataset.words mode) (s : List Byte) :
    (ofBytes mode (w ++ s)).Covers .dataset w.length := by
  rw [Class.words_eq] at member
  obtain ⟨start, started, selector, selects, rfl⟩ := Language.mem_mul.mp member
  rw [mem_mark.mp started, List.append_assoc, List.singleton_append]
  change (ofSelector (selector ++ s)).Covers _ _
  rcases selects with (star | plus) | digits
  · rw [mem_mark.mp star]
    exact covers_of_le rfl (Nat.le_refl 2)
  · rw [mem_mark.mp plus]
    exact covers_of_le rfl (Nat.le_refl 2)
  · obtain ⟨d, u, rfl, digit, all⟩ := mem_many1.mp digits
    have unmarked := Byte.imp_of_all (p := Byte.isDigit)
      (q := fun b => !(b == Byte.star || b == Byte.plus)) (by decide +kernel) digit
    rw [Bool.not_eq_true'] at unmarked
    rw [List.cons_append, ofSelector, if_neg (by rw [unmarked]; simp), if_pos digit,
      Byte.run_append all]
    exact covers_of_le rfl (by simp)

/-! ## Numbers -/

/-- The length of the digits and the fraction of a number. -/
def mantissaLength (w : List Byte) : Nat :=
  Byte.run Byte.isDigit w + fractionLength (w.drop (Byte.run Byte.isDigit w))

theorem numberLength_eq (w : List Byte) :
    numberLength w = mantissaLength w + exponentLength (w.drop (mantissaLength w)) := rfl

theorem exponentLength_of_mem {e : List Byte} (member : e ∈ exponent) (s : List Byte) :
    e.length ≤ exponentLength (e ++ s) := by
  rw [exponent_eq] at member
  obtain ⟨front, joined, u, many, rfl⟩ := Language.mem_mul.mp member
  obtain ⟨start, ⟨b, marked, rfl⟩, g, sign, rfl⟩ := Language.mem_mul.mp joined
  obtain ⟨d, v, rfl, digit, all⟩ := mem_many1.mp many
  have run : Byte.run Byte.isDigit (d :: v ++ s) = v.length + 1 + Byte.run Byte.isDigit s :=
    Byte.run_append (by simpa using ⟨digit, all⟩) s
  have signed : signLength (g ++ (d :: v ++ s)) = g.length := by
    rcases sign with rfl | ⟨c, isSign, rfl⟩
    · have unsigned := Byte.imp_of_all (p := Byte.isDigit) (q := fun b => !b.isSign)
        (by decide +kernel) digit
      rw [Bool.not_eq_true'] at unsigned
      simp [signLength, unsigned]
    · simp [signLength, isSign]
  have shape : [b] ++ g ++ (d :: v) ++ s = b :: (g ++ (d :: v ++ s)) := by simp
  rw [shape, exponentLength, signed, List.drop_left, run, if_pos (by simp [marked])]
  simp
  omega

/-- The mantissa is taken whole, and nothing more unless a digit or a point follows. -/
theorem mantissaLength_of_mem {m : List Byte}
    (member : m ∈ many1 Byte.isDigit * optional fraction + mark Byte.dot * many1 Byte.isDigit)
    (t : List Byte) :
    m.length ≤ mantissaLength (m ++ t) ∧
      (Byte.run Byte.isDigit t = 0 → fractionLength t = 0 → mantissaLength (m ++ t) = m.length) := by
  -- With a point, the digits on both of its sides may be absent as far as lengths go.
  have pointed : ∀ u v, (∀ b ∈ u, b.isDigit = true) → (∀ b ∈ v, b.isDigit = true) →
      mantissaLength (u ++ Byte.dot :: v ++ t) =
        (u ++ Byte.dot :: v).length + Byte.run Byte.isDigit t := by
    intro u v whole digits
    have run : Byte.run Byte.isDigit (u ++ Byte.dot :: (v ++ t)) = u.length := by
      rw [Byte.run_append whole, Byte.run_of_head (by decide), Nat.add_zero]
    rw [List.append_assoc, List.cons_append, mantissaLength, run, List.drop_left, fractionLength,
      if_pos (by decide), Byte.run_append digits]
    simp
    omega
  rcases member with integral | fractional
  · obtain ⟨u, many, f, fractional, rfl⟩ := Language.mem_mul.mp integral
    obtain ⟨_, whole⟩ := mem_many1_iff.mp many
    rcases fractional with rfl | fractional
    · rw [List.append_nil, mantissaLength, Byte.run_append whole]
      refine ⟨by omega, fun noDigit noPoint => ?_⟩
      rw [noDigit, Nat.add_zero, List.drop_left, noPoint, Nat.add_zero]
    · rw [fraction_eq] at fractional
      obtain ⟨point, isPoint, v, digits, rfl⟩ := Language.mem_mul.mp fractional
      rw [mem_mark.mp isPoint, List.singleton_append, pointed u v whole (mem_many.mp digits)]
      exact ⟨Nat.le_add_right _ _, fun noDigit _ => by rw [noDigit, Nat.add_zero]⟩
  · obtain ⟨point, isPoint, v, many, rfl⟩ := Language.mem_mul.mp fractional
    obtain ⟨_, digits⟩ := mem_many1_iff.mp many
    have length := pointed [] v (by simp) digits
    rw [List.nil_append] at length
    rw [mem_mark.mp isPoint, List.singleton_append, length]
    exact ⟨Nat.le_add_right _ _, fun noDigit _ => by rw [noDigit, Nat.add_zero]⟩

theorem numberLength_of_mem {w : List Byte} (member : w ∈ Class.number.words mode) (s : List Byte) :
    w.length ≤ numberLength (w ++ s) := by
  rw [Class.words_eq] at member
  obtain ⟨m, mantissa, e, exponential, rfl⟩ := Language.mem_mul.mp member
  rw [List.append_assoc, numberLength_eq]
  obtain ⟨least, exact⟩ := mantissaLength_of_mem mantissa (e ++ s)
  rcases exponential with rfl | exponential
  · rw [List.append_nil]
    omega
  · -- The mark of the exponent is no digit and no point, so that the mantissa stops there.
    have stops : Byte.run Byte.isDigit (e ++ s) = 0 ∧ fractionLength (e ++ s) = 0 := by
      rw [exponent_eq] at exponential
      obtain ⟨front, joined, u, _, rfl⟩ := Language.mem_mul.mp exponential
      obtain ⟨start, ⟨b, marked, rfl⟩, g, _, rfl⟩ := Language.mem_mul.mp joined
      have proper := Byte.imp_of_all (p := Byte.isExponentMark)
        (q := fun b => !b.isDigit && b != Byte.dot) (by decide +kernel) marked
      simp only [Bool.and_eq_true, bne_iff_ne, Bool.not_eq_true'] at proper
      simp only [List.append_assoc, List.singleton_append]
      exact ⟨Byte.run_of_head proper.1 _, by simp [fractionLength, proper.2]⟩
    have taken := exponentLength_of_mem exponential s
    rw [exact stops.1 stops.2, List.drop_left, List.length_append]
    omega

theorem startsNumber_of_mem {w : List Byte} (member : w ∈ Class.number.words mode) (s : List Byte) :
    startsNumber (w ++ s) = true := by
  rw [Class.words_eq] at member
  obtain ⟨m, mantissa, e, _, rfl⟩ := Language.mem_mul.mp member
  rcases mantissa with integral | fractional
  · obtain ⟨u, many, f, _, rfl⟩ := Language.mem_mul.mp integral
    obtain ⟨d, v, rfl, digit, _⟩ := mem_many1.mp many
    simp [startsNumber, digit]
  · obtain ⟨point, isPoint, v, many, rfl⟩ := Language.mem_mul.mp fractional
    obtain ⟨d, v, rfl, digit, _⟩ := mem_many1.mp many
    rw [mem_mark.mp isPoint]
    simp [startsNumber, digit]

theorem number_covers {w : List Byte} (member : w ∈ Class.number.words mode) (s : List Byte) :
    (ofBytes mode (w ++ s)).Covers .number w.length := by
  rw [ofBytes_number (startsNumber_of_mem member s)]
  exact covers_of_le rfl (numberLength_of_mem member s)

/-! ## Operators -/

/-- An opening takes all of a word that it tells apart, and more only as another operator. -/
theorem ofOpening_covers {op : Operator} {w : List Byte} (told : Opening.tells op w = true)
    (s : List Byte) :
    ∃ b opening, w.head? = some b ∧ Opening.ofChar? (Char.ofUInt8 b) = some opening ∧
      (ofOpening opening ((w ++ s).drop 1)).Covers (.operator op) w.length := by
  match w with
  | [b] =>
    obtain ⟨opening, found, alone⟩ := (Option.any_eq_true _ _).mp told
    refine ⟨b, opening, rfl, found, ?_⟩
    cases s with
    | nil => exact covers_of_le (by simp [ofOpening, eq_of_beq alone]) (Nat.le_refl 1)
    | cons c s =>
      cases longer : opening.longer.lookup (Char.ofUInt8 c) with
      | none =>
        exact covers_of_le (by simp [ofOpening, longer, eq_of_beq alone])
          (by simp [ofOpening, longer])
      | some op' =>
        refine ⟨.operator op', ?_⟩
        simp [ofOpening, longer]
  | [b, c] =>
    obtain ⟨opening, found, longer⟩ := (Option.any_eq_true _ _).mp told
    refine ⟨b, opening, rfl, found, ?_⟩
    exact covers_of_le (by simp [ofOpening, eq_of_beq longer])
      (by simp [ofOpening, eq_of_beq longer])

/-- Dots are taken as far as they are a range, and a dot before a digit belongs to a number. -/
theorem ofDot_covers {op : Operator} {w : List Byte} (listed : (op, w) ∈ Operator.dotted)
    (s : List Byte) : (ofBytes mode (w ++ s)).Covers (.operator op) w.length := by
  simp only [Operator.dotted, List.mem_cons, Prod.mk.injEq, List.not_mem_nil, or_false] at listed
  rcases listed with ⟨rfl, rfl⟩ | ⟨rfl, rfl⟩ | ⟨rfl, rfl⟩
  · change (ofDot s).Covers _ 1
    cases s with
    | nil => exact covers_of_le rfl (Nat.le_refl 1)
    | cons b s =>
      rw [ofDot]
      split
      · next digit =>
        have two : [Byte.dot, b] ∈ Class.number.words mode := by
          rw [Class.words_eq]
          exact ⟨[Byte.dot, b], .inr ⟨[Byte.dot], rfl, [b],
            mem_many1.mpr ⟨b, [], rfl, digit, by simp⟩, rfl⟩, [], .inl rfl, rfl⟩
        have long : 2 ≤ numberLength (Byte.dot :: b :: s) := numberLength_of_mem two s
        refine ⟨.number, rfl, ?_, fun same => ?_⟩ <;> dsimp only at * <;> omega
      split
      · refine ⟨.operator .dots, rfl, ?_, fun same => ?_⟩
        · dsimp only
          split <;> omega
        · dsimp only at same
          split at same <;> omega
      · exact covers_of_le rfl (Nat.le_refl 1)
  · change (ofDot (Byte.dot :: s)).Covers _ 2
    refine covers_of_le rfl ?_
    change 2 ≤ if s.head? == some Byte.dot then 3 else 2
    split <;> omega
  · exact covers_of_le rfl (Nat.le_refl 3)

theorem ofSymbol_covers {op : Operator} {w : List Byte}
    (member : w ∈ (Class.operator op).words mode) (s : List Byte) :
    (ofBytes mode (w ++ s)).Covers (.operator op) w.length := by
  obtain ⟨text, inSpellings, rfl⟩ := member
  rcases Operator.spelling_cases inSpellings with told | dotted
  · obtain ⟨b, opening, head, found, covers⟩ := ofOpening_covers told s
    obtain ⟨b', rest, spelled, plain, _⟩ := Operator.spelling_cons inSpellings
    rw [spelled] at head covers ⊢
    cases head
    have single : b ≠ Byte.dot := by
      rintro rfl
      cases found
    rw [List.cons_append, ofBytes_plain plain single, ofSymbol, found]
    exact covers
  · exact ofDot_covers dotted s

/-- Whatever word begins some bytes, their munch takes at least as much. -/
theorem ofBytes_covers {k : Class} {w : List Byte} (member : w ∈ k.words mode) (s : List Byte) :
    (ofBytes mode (w ++ s)).Covers k w.length := by
  match k with
  | .lowerName => exact ofLower_covers member s
  | .camelName => exact ofUpper_covers_camelName member s
  | .upperLetter => exact ofUpper_covers_upperLetter member s
  | .quoted => exact ofQuoted_covers member s
  | .variable | .function =>
    rw [Class.words_eq] at member
    exact ofSigil_covers member s fun _ => rfl
  | .number => exact number_covers member s
  | .dataset => exact ofSelector_covers member s
  | .operator op => exact ofSymbol_covers member s

end Munch

/-! ## The answer of a scan -/

/-- What a scan says of bytes that no word begins: a string that is not closed reaches to
    the end, a sigil or `@` is left alone, and any other character is taken whole. -/
inductive Malformed : List Byte → Tag → Nat → Prop where
  | string (rest : List Byte) :
      Malformed (Byte.quote :: rest) .unclosedString (Byte.quote :: rest).length
  | variableSigil (rest : List Byte) : Malformed (Byte.dollar :: rest) .badSigil 1
  | functionSigil (rest : List Byte) : Malformed (Byte.percent :: rest) .badSigil 1
  | selector (rest : List Byte) : Malformed (Byte.ampersat :: rest) .badSelector 1
  | character (c : Char) (rest : List Byte) :
      (String.utf8EncodeChar c).head?.any Byte.isPlain = true →
      Malformed (String.utf8EncodeChar c ++ rest) .badChar c.utf8Size

/-- The first `n` bytes of `r` are a word of class `k`, no word that begins `r` is longer,
    and none that is as long is of another class. -/
structure IsLongestWord (mode : Mode) (r : List Byte) (k : Class) (n : Nat) : Prop where
  word : ∃ w ∈ k.words mode, w <+: r ∧ w.length = n
  longest : ∀ k', ∀ v ∈ k'.words mode, v <+: r → v.length ≤ n ∧ (v.length = n → k' = k)

/-- The tag and the length that the grammar gives to bytes with no white space in front. -/
structure LongestMatch (mode : Mode) (r : List Byte) (tag : Tag) (n : Nat) : Prop where
  ended : r = [] → tag = .endOfText ∧ n = 0
  comment : r.head? = some Byte.hash → tag = .comment ∧ n = 0
  word : (∃ k, ∃ v ∈ Class.words mode k, v <+: r) → ∃ k, tag = .lexeme k ∧ IsLongestWord mode r k n
  malformed : r ≠ [] → r.head? ≠ some Byte.hash → (∀ k, ∀ v ∈ Class.words mode k, ¬ v <+: r) →
    Malformed r tag n

namespace Munch

variable {mode : Mode} {r : List Byte}

theorem isLongestWord {k : Class} {v : List Byte} (member : v ∈ k.words mode) (begins : v <+: r) :
    ∃ k', (ofBytes mode r).tag = .lexeme k' ∧ IsLongestWord mode r k' (ofBytes mode r).length := by
  obtain ⟨s, rfl⟩ := begins
  obtain ⟨k', tagged, _, _⟩ := ofBytes_covers member s
  refine ⟨k', tagged, ?_, ?_⟩
  · -- A munch with the tag of a lexeme is a word.
    generalize joined : v ++ s = r at tagged ⊢
    cases outcome : ofBytes mode r with
    | mk tag n =>
      rw [outcome] at tagged
      cases tagged
      have munched := ofBytes_munched mode r
      rw [outcome] at munched
      cases munched with
      | word _ rest found => exact ⟨_, found, List.prefix_append _ rest, rfl⟩
  · rintro k'' u found ⟨t, same⟩
    obtain ⟨k₀, tagged', long, unique⟩ := ofBytes_covers found t
    rw [same] at tagged' long unique
    rw [tagged] at tagged'
    cases tagged'
    exact ⟨long, fun equal => (unique equal).symm⟩

theorem longestMatch {source : Source} {p : Nat} (fits : source.Fits) (aligned : source.Aligned p)
    (ahead : source.bytes.drop p = r) :
    LongestMatch mode r (ofBytes mode r).tag (ofBytes mode r).length where
  ended := by
    rintro rfl
    exact ⟨rfl, rfl⟩
  comment := by
    intro head
    cases r with
    | nil => cases head
    | cons b rest =>
      cases head
      exact ⟨rfl, rfl⟩
  word := by
    rintro ⟨k, v, member, begins⟩
    exact isLongestWord member begins
  malformed := by
    intro nonempty proper wordless
    generalize outcome : ofBytes mode r = munch
    have munched := ofBytes_munched mode r
    rw [outcome] at munched
    cases munched with
    | ended => exact absurd rfl nonempty
    | comment rest => exact absurd rfl proper
    | word k rest member => exact absurd (List.prefix_append _ rest) (wordless k _ member)
    | unclosedString _ => exact .string _
    | badSigil sigil _ =>
      rcases sigil with rfl | rfl
      · exact .variableSigil _
      · exact .functionSigil _
    | badSelector _ => exact .selector _
    | badChar stray =>
      obtain ⟨c, ⟨tail, joined⟩, first, width, _⟩ := Source.char_ahead fits aligned ahead
      rw [width, ← joined]
      refine .character c tail ?_
      rw [first]
      exact (Bool.and_eq_true_iff.mp stray).1

end Munch

/-- A scan skips all white space and takes the longest match of what follows. -/
theorem Cursor.scan_longest_match (mode : Mode) {c : Cursor} (fits : c.source.Fits)
    (aligned : c.source.Aligned c.pos) :
    ∃ gap r, c.rest = gap ++ r ∧ (∀ b ∈ gap, b.isSpace = true) ∧
      r.head?.any Byte.isSpace = false ∧
      (c.scan mode).1.start = c.pos + gap.length ∧
      (c.scan mode).2.pos = (c.scan mode).1.stop ∧
      LongestMatch mode r (c.scan mode).1.tag (c.scan mode).1.length := by
  obtain ⟨gap, r, ahead, length, spaces, stops⟩ := Byte.run_split Byte.isSpace c.rest
  have behind : c.skipSpace.rest = r := by
    rw [skipSpace, rest_skipWhile, length, ahead, List.drop_left]
  have start : (c.scan mode).1.start = c.pos + gap.length := congrArg (c.pos + ·) length
  refine ⟨gap, r, ahead, spaces, ?_, start, ?_, ?_⟩
  · cases r with
    | nil => rfl
    | cons b rest => exact Byte.head_of_run_eq_zero stops
  · have least := Munch.length_le mode c.skipSpace.rest
    have inside := (aligned_skipSpace aligned).inside
    rw [rest_length] at least
    apply Nat.min_eq_left
    change c.skipSpace.pos + (Munch.ofBytes mode c.skipSpace.rest).length ≤ c.source.size
    have same : c.skipSpace.source.size = c.source.size := rfl
    omega
  · subst behind
    exact Munch.longestMatch fits (aligned_skipSpace aligned) rfl

theorem Cursor.scan_longest_match_behind_accent :
    ∃ c : Cursor, c = ⟨Source.ofText "é  .5e-x", 2⟩ ∧ c.source.Fits ∧ c.source.Aligned c.pos ∧
      ∃ gap r, c.rest = gap ++ r ∧ (∀ b ∈ gap, b.isSpace = true) ∧
        r.head?.any Byte.isSpace = false ∧
        (c.scan .normal).1.start = c.pos + gap.length ∧
        (c.scan .normal).2.pos = (c.scan .normal).1.stop ∧
        LongestMatch .normal r (c.scan .normal).1.tag (c.scan .normal).1.length := by
  have fits : (Source.ofText "é  .5e-x").Fits := by
    unfold Source.Fits
    decide +kernel
  have aligned : (Source.ofText "é  .5e-x").Aligned 2 := ⟨by decide +kernel, by decide +kernel⟩
  exact ⟨_, rfl, fits, aligned, Cursor.scan_longest_match .normal fits aligned⟩

end CurveScript
