import CurveScript.Proofs.Rounding
import CurveScript.Proofs.Values
import CurveScript.Proofs.WellFormed

/-! # Numerals and the numbers they denote

A numeral denotes a fraction, and the token of a numeral carries the number that the fraction
rounds to. What a numeral denotes is read off its parts, `Numeral`, with the digits in front of the
point and those behind it counted each on their own:

* every word of the grammar of numbers denotes a fraction (`Numeral.exists_of_mem`);
* the decimal that a numeral is read as stands for that fraction (`Numeral.ofBytes?_eq`), so that
  there is only one (`Numeral.unique`);
* a token of a class that any fetch hands out is a word of that class (`Reader.Fetched.spells`). -/

namespace CurveScript

open Grammar

/-- A numeral, and the fraction that it denotes. The digits `u` stand in front of the point and the
    digits `v` behind it. -/
inductive Numeral : List Byte → ℚ → Prop where
  | whole {u e : List Byte} {x : ℤ} : u ∈ many1 Byte.isDigit → Decimal.Exponent e x →
      Numeral (u ++ e) (Digits.positional u * 10 ^ x)
  | pointed {u v e : List Byte} {x : ℤ} : u ++ v ∈ many1 Byte.isDigit → Decimal.Exponent e x →
      Numeral (u ++ Byte.dot :: (v ++ e))
        ((Digits.positional u + Digits.positional v / 10 ^ v.length) * 10 ^ x)

namespace Numeral

variable {w : List Byte} {p q : ℚ}

theorem exists_of_mem {mode : Mode} (member : w ∈ Class.number.words mode) : ∃ q, Numeral w q := by
  obtain ⟨u, v, e, x, ⟨rfl, rfl⟩ | rfl, many, exponent⟩ := Decimal.number_parts member
  · rw [List.append_nil] at many
    exact ⟨_, .whole many exponent⟩
  · exact ⟨_, .pointed many exponent⟩

theorem ofBytes?_eq (numeral : Numeral w q) : ∃ d, Decimal.ofBytes? w = some d ∧ d.toRat = q := by
  cases numeral with
  | whole many exponent => exact ⟨_, Decimal.ofBytes?_whole many exponent, rfl⟩
  | @pointed u v e x many exponent =>
    refine ⟨_, Decimal.ofBytes?_pointed many exponent, ?_⟩
    have base : (10 : ℚ) ≠ 0 := by norm_num
    calc ((Digits.positional (u ++ v) : ℕ) : ℚ) * 10 ^ (x - v.length)
        = (Digits.positional u * 10 ^ v.length + Digits.positional v) * (10 ^ x / 10 ^ v.length) := by
          rw [Digits.positional_append, zpow_sub₀ base, zpow_natCast]
          push_cast
          rfl
      _ = (Digits.positional u + Digits.positional v / 10 ^ v.length) * 10 ^ x := by
          field_simp

/-- A numeral denotes one fraction only, since it is read as one decimal. -/
theorem unique (first : Numeral w p) (second : Numeral w q) : p = q := by
  obtain ⟨d, read, rfl⟩ := first.ofBytes?_eq
  obtain ⟨d', read', rfl⟩ := second.ofBytes?_eq
  rw [Option.some.inj (read.symm.trans read')]

theorem payload_eq {payload : Payload} (numeral : Numeral w q)
    (denoted : Payload.ofBytes? .number w = some payload) :
    ∃ x, payload = .number x ∧ Binary64.RoundsTo q x := by
  obtain ⟨d, read, rfl⟩ := numeral.ofBytes?_eq
  rw [Payload.ofBytes?, read] at denoted
  cases denoted
  exact ⟨d.nearest, rfl, d.nearest_roundsTo⟩

end Numeral

/-! ## Tokens of a class -/

section

variable {t : Token} {k : Class}

theorem Cursor.spells_of_kind {mode : Mode} {c behind : Cursor}
    (fetched : c.read mode = (.ok t, behind)) (kind : t.kind = .lexeme k) : t.Spells mode k := by
  rcases spells_of_read fetched with ⟨k', spells⟩ | rfl
  · rw [← spells.kind_eq_iff.mp kind]
    exact spells
  · simp [Token.nop] at kind

theorem Cursor.Takes.spells {c c' : Cursor} {f : Fetch} (takes : Takes c f t c')
    (kind : t.kind = .lexeme k) : ∃ mode, t.Spells mode k := by
  cases takes with
  | passed _ fetched => exact ⟨_, spells_of_kind fetched kind⟩
  | cut stretch _ =>
    -- Text that is taken as it stands is of no class.
    cases stretch with
    | word _ _ | restOfCommand _ _ | restOfLine => simp at kind

theorem Reader.Fetched.spells {r : Reader} {f : Fetch} {answer : Except Failure Token × Reader}
    (fetched : Fetched r f answer) (ok : answer.1 = .ok t) (kind : t.kind = .lexeme k) :
    ∃ mode, t.Spells mode k := by
  cases fetched with
  | refused _ | uncut _ | mismatched _ _ => cases ok
  | peeked read =>
    cases ok
    exact ⟨_, Cursor.spells_of_kind read kind⟩
  | absent _ _ =>
    cases ok
    simp [Token.nop] at kind
  | taken takes =>
    cases ok
    exact takes.spells kind

end

/-! ## Tokens of numbers -/

/-- The text of a token is a numeral that denotes the fraction `q` and nothing else, and the token
    carries the number `x` to which `q` rounds. -/
structure Token.Rounded (t : Token) (q : ℚ) (x : Binary64) : Prop where
  word : Text.bytes t.text ∈ Class.number.words .normal
  denotes : ∀ p, Numeral (Text.bytes t.text) p ↔ p = q
  payload : t.payload = .number x
  rounds : Binary64.RoundsTo q x

theorem Token.Spells.rounded {mode : Mode} {t : Token} (spells : t.Spells mode .number) :
    ∃ q x, t.Rounded q x := by
  obtain ⟨q, numeral⟩ := Numeral.exists_of_mem spells.word
  obtain ⟨x, payload, rounds⟩ := numeral.payload_eq spells.payload_eq
  refine ⟨q, x, spells.word, fun p => ⟨fun other => other.unique numeral, ?_⟩, payload, rounds⟩
  rintro rfl
  exact numeral

/-- Every number that any call of a session hands out is the one nearest to the fraction that its
    text denotes, and of two that are equally near the even one. Hence numbers whose texts denote
    the same fraction are the same to the last bit, whatever sessions they come from. -/
theorem Reader.number_rounded :
    (∀ text calls call t, (((ofText text).run calls).2.call call).1.token? = some t →
      t.kind = .number → ∃ q x, t.Rounded q x) ∧
    (∀ text calls call t text' calls' call' t' q,
      (((ofText text).run calls).2.call call).1.token? = some t → t.kind = .number →
      (((ofText text').run calls').2.call call').1.token? = some t' → t'.kind = .number →
      Numeral (Text.bytes t.text) q → Numeral (Text.bytes t'.text) q → t.payload = t'.payload) := by
  have rounded : ∀ text calls call t, (((ofText text).run calls).2.call call).1.token? = some t →
      t.kind = .number → ∃ q x, t.Rounded q x := by
    intro text calls call t handed kind
    obtain ⟨f, _, ok⟩ := fetch_of_token? handed
    obtain ⟨mode, spells⟩ :=
      (fetch_fetched ((intact_ofText text).run calls).coherent f).spells (k := .number) ok kind
    exact spells.rounded
  refine ⟨rounded, ?_⟩
  intro text calls call t text' calls' call' t' q handed kind handed' kind' numeral numeral'
  obtain ⟨p, x, first⟩ := rounded text calls call t handed kind
  obtain ⟨p', x', second⟩ := rounded text' calls' call' t' handed' kind'
  obtain rfl := (first.denotes q).mp numeral
  obtain rfl := (second.denotes q).mp numeral'
  rw [first.payload, second.payload, first.rounds.unique second.rounds]

theorem Reader.number_rounded_spellings :
    ∃ t t' : Token,
      (((ofText "x=1.50").run [.fetch .next, .fetch .peek, .fetch .next]).2.call
        (.fetch .next)).1.token? = some t ∧
      (((ofText "15e-1").run []).2.call (.fetch .peek)).1.token? = some t' ∧
      t.text = "1.50" ∧ t'.text = "15e-1" ∧
      t.kind = .number ∧ t'.kind = .number ∧
      Numeral (Text.bytes t.text) (3 / 2) ∧ Numeral (Text.bytes t'.text) (3 / 2) ∧
      (∃ q x, t.Rounded q x) ∧ t.payload = t'.payload ∧
      t.payload = .number ⟨0x3FF8000000000000⟩ := by
  obtain ⟨rounded, same⟩ := number_rounded
  have handed : (((ofText "x=1.50").run [.fetch .next, .fetch .peek, .fetch .next]).2.call
      (.fetch .next)).1.token? =
        some ⟨.number, "1.50", ⟨2, 6⟩, .number ⟨0x3FF8000000000000⟩⟩ := by
    decide +kernel
  have handed' : (((ofText "15e-1").run []).2.call (.fetch .peek)).1.token? =
      some ⟨.number, "15e-1", ⟨0, 5⟩, .number ⟨0x3FF8000000000000⟩⟩ := by
    decide +kernel
  have one : [0x31] ∈ many1 Byte.isDigit := mem_many1_iff.mpr (by decide +kernel)
  have numeral : Numeral (Text.bytes "1.50") (3 / 2) := by
    have parts := Numeral.pointed (u := [0x31]) (v := [0x35, 0x30])
      (mem_many1_iff.mpr (by decide +kernel)) .absent
    have digits : Digits.positional [0x31] = 1 ∧ Digits.positional [0x35, 0x30] = 50 := by
      decide +kernel
    rw [digits.1, digits.2] at parts
    norm_num at parts
    exact parts
  have numeral' : Numeral (Text.bytes "15e-1") (3 / 2) := by
    have parts := Numeral.whole (u := [0x31, 0x35]) (mem_many1_iff.mpr (by decide +kernel))
      (.minus (b := 0x65) rfl one)
    have digits : Digits.positional [0x31, 0x35] = 15 ∧ Digits.positional [0x31] = 1 := by
      decide +kernel
    rw [digits.1, digits.2] at parts
    norm_num at parts
    exact parts
  exact ⟨_, _, handed, handed', rfl, rfl, rfl, rfl, numeral, numeral',
    rounded _ _ _ _ handed rfl,
    same _ _ _ _ _ _ _ _ _ handed rfl handed' rfl numeral numeral', rfl⟩

end CurveScript
