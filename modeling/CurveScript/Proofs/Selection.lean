import CurveScript.Proofs.Faults
import CurveScript.Proofs.Joining
import CurveScript.Proofs.Positional

/-! # Dataset selectors and the indices they spell

An `@` with digits behind it selects the dataset whose index the digits denote, as long as the
index has 64 bits. There is no bound on the number of digits, so that the range of an index is met
exactly: `Selector.next_ok` and `Selector.next_error` say what happens on either side of it. All
else follows from `Selector.selects_iff`, which says what a selector selects:

* an index that is written in decimal selects itself;
* two selectors select the same index if they differ in leading zeros alone, and only then. -/

namespace CurveScript

open Grammar

/-- The number that a text of decimal digits denotes. -/
def Text.decimal (d : String) : Nat :=
  Digits.positional (bytes d)

/-- The digits `d` stand behind an `@`, and what stands behind them is not another digit. -/
structure Selector (d rest : String) : Prop where
  digits : Text.bytes d ∈ many1 Byte.isDigit
  stops : (Text.bytes rest).head?.any Byte.isDigit = false
  short : (Text.bytes ("@" ++ d ++ rest)).length ≤ maxFragment

/-- The first token of a text that starts with an `@` and the digits `d` selects a dataset. -/
def Selects (d rest : String) (n : UInt64) : Prop :=
  ∃ t r, (Reader.ofText ("@" ++ d ++ rest)).fetch .next = (.ok t, r) ∧
    t.payload = .dataset (.index n)

theorem Dataset.ofSelector?_digits {w : List Byte} (digits : w ∈ many1 Byte.isDigit) :
    ofSelector? w =
      if Digits.value w < UInt64.size then some (.index (.ofNat (Digits.value w))) else none := by
  have value := Digits.value?_eq_some_iff.mpr ⟨mem_many1_iff.mp digits, rfl⟩
  obtain ⟨b, u, rfl, digit, _⟩ := mem_many1.mp digits
  have unmarked := Byte.imp_of_all (p := Byte.isDigit)
    (q := fun b => b != Byte.star && b != Byte.plus) (by decide +kernel) digit
  simp only [Bool.and_eq_true, bne_iff_ne] at unmarked
  simp [ofSelector?, unmarked, value]

namespace Selector

variable {d rest : String}

/-! ## Reading a selector -/

theorem decimal_eq (d : String) : Digits.value (Text.bytes d) = Text.decimal d :=
  Digits.value_eq_positional _

theorem bytes_eq (d : String) : Text.bytes ("@" ++ d) = Byte.ampersat :: Text.bytes d := by
  rw [Text.bytes_append]
  rfl

theorem zeroFree (selector : Selector d rest) : 0 ∉ Text.bytes ("@" ++ d) := by
  rw [bytes_eq]
  intro member
  rcases List.mem_cons.mp member with mark | inside
  · cases mark
  · cases (mem_many1_iff.mp selector.digits).2 0 inside

theorem fragment_eq (selector : Selector d rest) :
    fragment ("@" ++ d ++ rest) = Byte.ampersat :: (Text.bytes d ++ fragment rest) := by
  rw [fragment_append selector.zeroFree selector.short, bytes_eq, List.cons_append]

/-- The digits behind the mark are those of the selector and no more. -/
theorem takeWhile_eq (selector : Selector d rest) :
    (Text.bytes d ++ fragment rest).takeWhile Byte.isDigit = Text.bytes d := by
  have ended : (fragment rest).takeWhile Byte.isDigit = [] := by
    obtain ⟨tail, whole⟩ : fragment rest <+: Text.bytes rest :=
      Source.bytes_prefix (Source.ofText rest)
    cases bytes : fragment rest with
    | nil => rfl
    | cons b others =>
      have stops := selector.stops
      rw [← whole, bytes] at stops
      exact List.takeWhile_cons_of_neg (by simpa using stops)
  rw [List.takeWhile_append_of_pos (mem_many1_iff.mp selector.digits).2, ended, List.append_nil]

theorem fits (selector : Selector d rest) : (Source.ofText ("@" ++ d ++ rest)).Fits :=
  Nat.le_trans (List.takeWhile_prefix _).length_le selector.short

theorem next_ok (selector : Selector d rest) (small : Text.decimal d < UInt64.size) :
    (Reader.ofText ("@" ++ d ++ rest)).fetch .next =
      (.ok ⟨.dataset, "@" ++ d, ⟨0, (Text.bytes ("@" ++ d)).length⟩,
        .dataset (.index (.ofNat (Text.decimal d)))⟩,
      ⟨⟨Source.ofText ("@" ++ d ++ rest), (Text.bytes ("@" ++ d)).length⟩, none⟩) := by
  have present : (Text.bytes d ++ fragment rest).takeWhile Byte.isDigit ≠ [] := by
    rw [selector.takeWhile_eq]
    exact (mem_many1_iff.mp selector.digits).1
  have member : Text.bytes ("@" ++ d) ∈ Class.dataset.words .normal := by
    rw [Class.words_eq, bytes_eq]
    exact Language.append_mem_mul (mem_mark.mpr rfl) (.inr selector.digits)
  have munch : Munch.ofBytes .normal (Text.bytes ("@" ++ d) ++ fragment rest) =
      ⟨.lexeme .dataset, (Text.bytes ("@" ++ d)).length⟩ := by
    have digits := Munch.ofSelector_digits present
    rw [selector.takeWhile_eq] at digits
    rw [bytes_eq]
    exact digits
  have valued : Payload.ofBytes? .dataset (Text.bytes ("@" ++ d)) =
      some (.dataset (.index (.ofNat (Text.decimal d)))) := by
    rw [← decimal_eq] at small ⊢
    simp [Payload.ofBytes?, bytes_eq, Dataset.ofSelector?_digits selector.digits, small]
  have fetched := Cursor.read_word (fragment_append selector.zeroFree selector.short) member munch
    valued
  simp only [Reader.fetch, Reader.next, Reader.ofText, fetched]
  rfl

theorem next_error (selector : Selector d rest) (large : UInt64.size ≤ Text.decimal d) :
    (Reader.ofText ("@" ++ d ++ rest)).fetch .next =
      (.error (.diagnostic (.locate (.badNumber ("@" ++ d)) ("@" ++ d ++ rest) 0)),
      .ofText ("@" ++ d ++ rest)) := by
  have fault :
      Fault (Byte.ampersat :: (Text.bytes d ++ fragment rest)) (.badNumber ("@" ++ d)) 0 := by
    apply Fault.badIndex
    · rw [ascii_isDigit, selector.takeWhile_eq, bytes_eq]
    · rw [ascii_isDigit, selector.takeWhile_eq, decimal_eq]
      exact large
  have still : (Cursor.ofText ("@" ++ d ++ rest)).skipSpace = Cursor.ofText ("@" ++ d ++ rest) := by
    apply Cursor.skipWhile_of_run
    change Byte.run Byte.isSpace (fragment ("@" ++ d ++ rest)) = 0
    rw [selector.fragment_eq]
    exact Byte.run_of_head rfl _
  have refused : ((Cursor.ofText ("@" ++ d ++ rest)).read .normal).1 =
      .error (.diagnostic (.locate (.badNumber ("@" ++ d)) ("@" ++ d ++ rest) 0)) := by
    rw [Cursor.read_eq_error_iff selector.fits (Source.aligned_zero _)]
    refine ⟨_, 0, ?_, by rw [still]; rfl⟩
    rw [still]
    change Fault (fragment ("@" ++ d ++ rest)) _ _
    rwa [selector.fragment_eq]
  cases read : (Cursor.ofText ("@" ++ d ++ rest)).read .normal with
  | mk result behind =>
    rw [read] at refused
    cases refused
    obtain ⟨rfl, _⟩ := Cursor.read_error read
    simp only [Reader.fetch, Reader.next, Reader.ofText, read]

/-! ## What is selected -/

theorem selects_iff (selector : Selector d rest) {n : UInt64} :
    Selects d rest n ↔ n.toNat = Text.decimal d := by
  constructor
  · rintro ⟨t, r, fetched, selected⟩
    by_cases small : Text.decimal d < UInt64.size
    · rw [selector.next_ok small] at fetched
      cases fetched
      cases selected
      exact UInt64.toNat_ofNat_of_lt' small
    · rw [selector.next_error (Nat.le_of_not_lt small)] at fetched
      cases fetched
  · intro denoted
    have small : Text.decimal d < UInt64.size := denoted ▸ n.toNat_lt_size
    refine ⟨_, _, selector.next_ok small, ?_⟩
    rw [← denoted, UInt64.ofNat_toNat]

/-- An index that is written in decimal is a selector of itself. -/
theorem written (n : UInt64) : Selector (toString n.toNat) "" := by
  have length : (Text.bytes (toString n.toNat)).length ≤ 20 :=
    Digits.length_toString (Nat.lt_of_lt_of_le n.toNat_lt (by norm_num)) (by omega)
  refine ⟨Digits.toString_mem _, rfl, ?_⟩
  rw [String.append_empty, bytes_eq, List.length_cons]
  exact Nat.le_trans (Nat.succ_le_succ length) (by decide)

end Selector

/-- A dataset selector stands for the number that its digits denote. It is read as an index of 64
    bits if there is one, and otherwise refused as it stands, with the reader left where it was.
    Hence the index that a token shows selects the dataset of that token, and the selectors of one
    dataset are those that differ in leading zeros alone. -/
theorem Reader.next_selector :
    (∀ d rest, Selector d rest →
      (Text.decimal d < 2 ^ 64 → ∃ n r, n.toNat = Text.decimal d ∧
        (ofText ("@" ++ d ++ rest)).fetch .next =
          (.ok ⟨.dataset, "@" ++ d, ⟨0, (Text.bytes ("@" ++ d)).length⟩,
            .dataset (.index n)⟩, r) ∧
        r.position = (Text.bytes ("@" ++ d)).length) ∧
      (2 ^ 64 ≤ Text.decimal d → ∃ r, (ofText ("@" ++ d ++ rest)).fetch .next =
          (.error (.diagnostic (.locate (.badNumber ("@" ++ d)) ("@" ++ d ++ rest) 0)), r) ∧
        r.position = 0)) ∧
    (∀ (t : Token) (n : UInt64), t.kind = .dataset → t.payload = .dataset (.index n) →
      ∃ shown, t.render = "@dataset " ++ shown ∧ Selector shown "" ∧
        ∀ rest, Selector shown rest → Selects shown rest n) ∧
    (∀ d rest d' rest' n, Selector d rest → Selector d' rest' → Selects d rest n →
      (Selects d' rest' n ↔ Digits.SameButZeros (Text.bytes d) (Text.bytes d'))) := by
  refine ⟨?_, ?_, ?_⟩
  · intro d rest selector
    constructor
    · intro small
      exact ⟨_, _, UInt64.toNat_ofNat_of_lt' small, selector.next_ok small, rfl⟩
    · intro large
      exact ⟨_, selector.next_error large, rfl⟩
  · intro t n kind payload
    refine ⟨toString n.toNat, ?_, Selector.written n, fun rest selector => ?_⟩
    · simp only [Token.render, Token.detail?, kind, payload]
      rfl
    · rw [selector.selects_iff, ← Selector.decimal_eq, Digits.value_toString]
  · intro d rest d' rest' n selector selector' selects
    rw [selector.selects_iff] at selects
    rw [selector'.selects_iff, selects, ← Selector.decimal_eq, ← Selector.decimal_eq]
    exact Digits.value_eq_iff (mem_many1_iff.mp selector.digits).2
      (mem_many1_iff.mp selector'.digits).2

theorem Reader.next_selector_bounds :
    (Selector "0018446744073709551615" "é" ∧
      ∃ n r, n.toNat = 18446744073709551615 ∧
        (ofText ("@" ++ "0018446744073709551615" ++ "é")).fetch .next =
          (.ok ⟨.dataset, "@0018446744073709551615", ⟨0, 23⟩, .dataset (.index n)⟩, r) ∧
        r.position = 23) ∧
    (Selector "18446744073709551616" "" ∧
      ∃ r, (ofText ("@" ++ "18446744073709551616" ++ "")).fetch .next =
          (.error (.diagnostic (.locate (.badNumber "@18446744073709551616")
            "@18446744073709551616" 0)), r) ∧
        r.position = 0) ∧
    (∃ shown, Token.render ⟨.dataset, "@", ⟨4, 5⟩, .dataset (.index 12)⟩ =
      "@dataset " ++ shown ∧ Selects shown "" 12) ∧
    (Selector "7" "," ∧ Selector "007" "" ∧ Selects "7" "," 7 ∧ Selects "007" "" 7) := by
  obtain ⟨reads, shows, same⟩ := next_selector
  have checked : ∀ d rest : String, Text.bytes d ≠ [] → (Text.bytes d).all Byte.isDigit = true →
      (Text.bytes rest).head?.any Byte.isDigit = false →
      (Text.bytes ("@" ++ d ++ rest)).length ≤ maxFragment → Selector d rest :=
    fun d rest nonempty all stops short =>
      ⟨mem_many1_iff.mpr ⟨nonempty, List.all_eq_true.mp all⟩, stops, short⟩
  have largest : Selector "0018446744073709551615" "é" := by apply checked <;> decide +kernel
  have tooLarge : Selector "18446744073709551616" "" := by apply checked <;> decide +kernel
  have seven : Selector "7" "," := by apply checked <;> decide +kernel
  have padded : Selector "007" "" := by apply checked <;> decide +kernel
  obtain ⟨n, r, denoted, fetched, behind⟩ := (reads _ _ largest).1 (by decide +kernel)
  have refused := (reads _ _ tooLarge).2 (by decide +kernel)
  obtain ⟨shown, rendered, alone, selects⟩ :=
    shows ⟨.dataset, "@", ⟨4, 5⟩, .dataset (.index 12)⟩ 12 rfl rfl
  obtain ⟨m, _, value, selected, _⟩ := (reads _ _ seven).1 (by decide +kernel)
  obtain rfl : m = 7 := UInt64.toNat_inj.mp (value.trans (by decide +kernel))
  have once : Selects "7" "," 7 := ⟨_, _, selected, rfl⟩
  have again := (same _ _ _ _ _ seven padded once).mpr ⟨0, 2, Text.bytes "7", by decide +kernel⟩
  exact ⟨⟨largest, n, r, denoted.trans (by decide +kernel), fetched, behind⟩, ⟨tooLarge, refused⟩,
    ⟨shown, rendered, selects "" alone⟩, seven, padded, once, again⟩

end CurveScript
