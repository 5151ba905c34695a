import CurveScript.Proofs.Refinement
import CurveScript.Proofs.Stops

/-! # Faults of a text

When reading fails, what the diagnostic says and which byte it points to. All this can be read
off the bytes behind the white space, without a word on lexemes: `Fault w cause k` says that the
bytes `w` are wrong for the reason `cause`, which shows `k` bytes behind their start. There are
five ways to be wrong, and anything else is read.

* `Byte.isStray_head`, that the first byte of a character tells whether anything begins with it;
* `Lexeme.Blamed.fault` and `Lexeme.blamed_of_fault`, that faults are what the scan blames;
* `Cursor.read_eq_error_iff`, that they are what reading fails with;
* `Reachable.fetch_fails_iff`, the same of sessions. -/

namespace CurveScript

open Grammar (ascii)

/-- The characters other than letters and digits that begin a lexeme or a comment. -/
def Text.marks : String :=
  "_#'><=+-!.@$%()[]\x7b\x7d*/^,;:~?"

/-- The characters that begin a lexeme or a comment. -/
def Text.begins (c : Char) : Bool :=
  c.isAlphanum || marks.toList.contains c

/-- What is wrong at the front of some bytes, and how many bytes behind their start it shows. -/
inductive Fault : List Byte → Cause → Nat → Prop where
  /-- A quote that no other quote follows. -/
  | unclosedString {rest : List Byte} : Byte.quote ∉ rest →
      Fault (Byte.quote :: rest) .unclosedString 0
  /-- A sigil with nothing behind it, or nothing that begins a name or a pattern. -/
  | badSigil {b : Byte} {sigil : Char} {rest : List Byte} :
      (b, sigil) ∈ [(Byte.dollar, '$'), (Byte.percent, '%')] →
      rest.head?.any (ascii fun c => c.isAlpha || c == '_' || c == '*') = false →
      Fault (b :: rest) (.badSigil sigil) 1
  /-- An `@` with nothing behind it, or nothing that begins a selector. -/
  | badSelector {rest : List Byte} :
      rest.head?.any (ascii fun c => c.isDigit || c == '*' || c == '+') = false →
      Fault (Byte.ampersat :: rest) .badSelector 1
  /-- A character that begins nothing. -/
  | badChar {found : Char} (rest : List Byte) : Text.begins found = false →
      Fault (String.utf8EncodeChar found ++ rest) (.badChar found) 0
  /-- An `@` and all the digits behind it, which denote a number of more than 64 bits. -/
  | badIndex {text : String} {rest : List Byte} :
      Text.bytes text = Byte.ampersat :: rest.takeWhile (ascii Char.isDigit) →
      UInt64.size ≤ Digits.value (rest.takeWhile (ascii Char.isDigit)) →
      Fault (Byte.ampersat :: rest) (.badNumber text) 0

/-! ## Characters that begin nothing -/

theorem Byte.isStray_of_nonAscii {b : Byte} (beyond : b.isNonAscii = true) : b.isStray = true := by
  have plain : b.isPlain = true := imp_of_all (p := isNonAscii) (by decide +kernel) beyond
  refine isStray_iff.mpr ⟨plain, fun op s inSpellings begins => ?_⟩
  obtain ⟨c, rest, spelled, _, ascii⟩ := Operator.spelling_cons inSpellings
  rw [spelled] at begins
  cases begins
  simp [ascii b] at beyond

theorem Text.begins_ascii {c : Char} (begins : begins c = true) : c.toNat < 128 := by
  have small : ∀ d : Char, d.val.toNat < 128 → c.val ≤ d.val → c.toNat < 128 := by
    intro d ascii below
    exact Nat.lt_of_le_of_lt (UInt32.le_iff_toNat_le.mp below) ascii
  cases Bool.or_eq_true_iff.mp begins with
  | inl alphanumeric =>
    rcases Bool.or_eq_true_iff.mp alphanumeric with letter | digit
    · rcases Bool.or_eq_true_iff.mp letter with upper | lower
      · exact small 'Z' (by decide) (of_decide_eq_true upper).2
      · exact small 'z' (by decide) (of_decide_eq_true (Bool.and_eq_true_iff.mp lower).2)
    · exact small '9' (by decide) (of_decide_eq_true (Bool.and_eq_true_iff.mp digit).2)
  | inr mark =>
    have listed : marks.toList.all (·.toNat < 128) = true := by simp [marks]
    exact of_decide_eq_true (List.all_eq_true.mp listed c (List.contains_iff_mem.mp mark))

/-- The first byte of a character tells whether the character begins anything. -/
theorem Byte.isStray_head {c : Char} {b : Byte}
    (first : (String.utf8EncodeChar c).head? = some b) : b.isStray = !Text.begins c := by
  by_cases ascii : c.toNat < 128
  · have checked : ∀ n < 128, (String.utf8EncodeChar (Char.ofNat n)).head?.all
        (fun b => isStray b == !Text.begins (Char.ofNat n)) = true := by
      decide +kernel
    have here := checked c.toNat ascii
    rw [Char.ofNat_toNat, first] at here
    simpa using here
  · have nothing : Text.begins c = false := by
      rw [← Bool.not_eq_true]
      exact fun begins => ascii (Text.begins_ascii begins)
    have beyond : b.isNonAscii = true := by
      by_contra single
      obtain ⟨tail, encoded⟩ := List.head?_eq_some_iff.mp first
      have width := charWidth_head encoded
      rw [charWidth_of_ascii (Bool.not_eq_true _ ▸ single)] at width
      have small := Char.utf8Size_eq_one_iff.mp width.symm
      exact ascii (Nat.lt_succ_of_le (UInt32.le_iff_toNat_le.mp small))
    rw [nothing]
    exact isStray_of_nonAscii beyond

theorem fault_of_stray {b : Byte} {rest : List Byte} {found : Char} (stray : b.isStray = true)
    (encoded : String.utf8EncodeChar found <+: b :: rest) :
    Fault (b :: rest) (.badChar found) 0 := by
  rw [Byte.isStray_head (Byte.char_head encoded).1] at stray
  obtain ⟨tail, joined⟩ := encoded
  rw [← joined]
  exact .badChar tail (by simpa using stray)

theorem Text.eq_of_bytes_singleton {c : Char} (found : Char)
    (encoded : bytes (String.singleton c) = String.utf8EncodeChar found) : c = found := by
  simpa using congrArg String.toList (eq_singleton encoded)

/-! ## Munches -/

theorem Grammar.ascii_selector : ascii (fun c => c.isDigit || c == '*' || c == '+') =
    fun b => b == Byte.star || b == Byte.plus || b.isDigit :=
  ascii_eq (by decide +kernel)

theorem not_selectable_digits_iff {rest : List Byte} (some : rest.takeWhile Byte.isDigit ≠ []) :
    ¬ Selectable (rest.takeWhile Byte.isDigit) ↔
      UInt64.size ≤ Digits.value (rest.takeWhile Byte.isDigit) := by
  have all : ∀ b ∈ rest.takeWhile Byte.isDigit, b.isDigit = true :=
    List.all_eq_true.mp List.all_takeWhile
  generalize rest.takeWhile Byte.isDigit = w at some all
  have noMark : ∀ b : Byte, b.isDigit = false → w ≠ [b] := by
    rintro b other rfl
    simp [all b] at other
  rw [← Nat.not_lt, not_iff_not]
  constructor
  · rintro (star | plus | ⟨_, small⟩)
    · exact absurd star (noMark _ rfl)
    · exact absurd plus (noMark _ rfl)
    · exact small
  · exact fun small => .inr (.inr ⟨⟨some, all⟩, small⟩)

namespace Munch

variable {mode : Mode} {rest : List Byte}

theorem ofBytes_stray {b : Byte} (stray : b.isStray = true) (rest : List Byte) :
    ofBytes mode (b :: rest) = ⟨.badChar, min b.charWidth (rest.length + 1)⟩ := by
  obtain ⟨plain, absent⟩ := Byte.isStray_iff.mp stray
  have single : b ≠ Byte.dot := by
    rintro rfl
    exact absent .dot "." List.mem_cons_self rfl
  rw [ofBytes_plain plain single, ofSymbol, (Opening.ofChar?_eq_none_iff plain single).mpr stray]

theorem ofBytes_char {found : Char} (nothing : Text.begins found = false) (rest : List Byte) :
    ofBytes mode (String.utf8EncodeChar found ++ rest) = ⟨.badChar, found.utf8Size⟩ := by
  have size := String.length_utf8EncodeChar found
  cases encoded : String.utf8EncodeChar found with
  | nil =>
    rw [encoded] at size
    exact absurd found.utf8Size_pos (by simp [← size])
  | cons b tail =>
    have stray : Byte.isStray b = true := by
      rw [Byte.isStray_head (by rw [encoded]; rfl), nothing]
      rfl
    have whole : min (Byte.charWidth b) ((tail ++ rest).length + 1) = found.utf8Size := by
      rw [Byte.charWidth_head encoded, ← size, encoded]
      simp
    rw [List.cons_append, ofBytes_stray stray, whole]

theorem ofBytes_unclosed (absent : Byte.quote ∉ rest) :
    ofBytes mode (Byte.quote :: rest) = ⟨.unclosedString, rest.length + 1⟩ := by
  have all : ∀ b ∈ rest, (b != Byte.quote) = true := by
    intro b member
    rw [bne_iff_ne]
    rintro rfl
    exact absent member
  have body := Byte.run_append all []
  rw [List.append_nil, Byte.run_nil, Nat.add_zero] at body
  change ofQuoted rest = _
  rw [ofQuoted, body, if_neg (Nat.lt_irrefl _)]

theorem ofSigil_of_lacks {k : Class} (lacks : rest.head?.any Byte.isSigilStart = false) :
    ofSigil mode k rest = ⟨.badSigil, 1⟩ := by
  cases rest with
  | nil => rfl
  | cons b rest =>
    have missing : b.isSigilStart = false := lacks
    simp [ofSigil, missing]

theorem ofSelector_of_lacks
    (lacks : (rest.head?.any fun b => b == Byte.star || b == Byte.plus || b.isDigit) = false) :
    ofSelector rest = ⟨.badSelector, 1⟩ := by
  cases rest with
  | nil => rfl
  | cons b rest =>
    obtain ⟨mark, digit⟩ : (b == Byte.star || b == Byte.plus) = false ∧ b.isDigit = false := by
      simpa only [List.head?_cons, Option.any_some, Bool.or_eq_false_iff] using lacks
    simp [ofSelector, mark, digit]

/-- The digits of a selector are all those behind its mark. -/
theorem ofSelector_digits (digits : rest.takeWhile Byte.isDigit ≠ []) :
    ofSelector rest = ⟨.lexeme .dataset, (rest.takeWhile Byte.isDigit).length + 1⟩ := by
  cases rest with
  | nil => exact absurd rfl digits
  | cons b rest =>
    by_cases digit : b.isDigit = true
    · have noMark : (b == Byte.star || b == Byte.plus) = false := by
        simpa using Byte.imp_of_all (q := fun b => !(b == Byte.star || b == Byte.plus))
          (by decide +kernel) digit
      simp [ofSelector, noMark, digit, Byte.run]
    · simp [digit] at digits

/-- What is munched as a selector: a mark and all the digits behind it, unless it is one of the two
    selectors without digits. -/
theorem selector_of_ofBytes {w : List Byte} {n : Nat}
    (munch : ofBytes mode w = ⟨.lexeme .dataset, n⟩) :
    ∃ rest, w = Byte.ampersat :: rest ∧ (rest.take (n - 1) = [Byte.star] ∨
      rest.take (n - 1) = [Byte.plus] ∨
        rest.takeWhile Byte.isDigit ≠ [] ∧ n = (rest.takeWhile Byte.isDigit).length + 1) := by
  obtain ⟨v, member, ⟨s, rfl⟩, rfl⟩ := word_of_ofBytes munch
  rw [Class.words_eq] at member
  obtain ⟨first, opened, u, selected, rfl⟩ := Language.mem_mul.mp member
  rw [Grammar.mem_mark.mp opened] at munch ⊢
  have here : (u ++ s).take (([Byte.ampersat] ++ u).length - 1) = u := by simp
  refine ⟨u ++ s, rfl, ?_⟩
  rw [here]
  rcases selected with (star | plus) | digits
  · exact .inl star
  · exact .inr (.inl plus)
  · obtain ⟨nonempty, all⟩ := Grammar.mem_many1_iff.mp digits
    have some : (u ++ s).takeWhile Byte.isDigit ≠ [] := by
      rw [List.takeWhile_append_of_pos all]
      simp [nonempty]
    have same : ofSelector (u ++ s) = ⟨.lexeme .dataset, ([Byte.ampersat] ++ u).length⟩ := munch
    rw [ofSelector_digits some] at same
    exact .inr (.inr ⟨some, (congrArg Munch.length same).symm⟩)

end Munch

/-! ## Lexemes -/

namespace Lexeme

variable {mode : Mode} {source : Source} {l : Lexeme} {d : Diagnostic}

theorem Blamed.decoded {text : String} (blamed : l.Blamed source d)
    (cut : source.slice? l.start l.stop = some text) :
    Token.ofLexeme source.text l text = .error d := by
  cases blamed with
  | unclosedString tag | badSelector tag => simp [Token.ofLexeme, tag]
  | badSigil tag single | badChar tag single =>
    rw [cut] at single
    cases single
    simp [Token.ofLexeme, tag, Text.firstChar]
  | badIndex tag same large =>
    rw [cut] at same
    cases same
    have missing : Dataset.ofSelector? ((Text.bytes text).drop 1) = none := by
      rw [← (bytes_of_slice? cut).2, ← Dataset.ofSelector?_isSome_iff] at large
      simpa using large
    simp only [Token.ofLexeme, tag, Payload.ofBytes?, missing, Option.map_none]

theorem Blamed.fault (fits : source.Fits) (aligned : source.Aligned l.start)
    (scanned : Munch.ofBytes mode (source.bytes.drop l.start) = ⟨l.tag, l.length⟩)
    (blamed : l.Blamed source d) :
    ∃ cause k, Fault (source.bytes.drop l.start) cause k ∧
      d = .locate cause source.text (l.start + k) := by
  have munched := Munch.ofBytes_munched mode (source.bytes.drop l.start)
  obtain ⟨tag, start, length⟩ := l
  rw [scanned] at munched
  dsimp only at *
  generalize ahead : source.bytes.drop start = w at munched scanned ⊢
  -- The tag leaves one outcome of the munch, which says what the bytes lack.
  cases blamed with
  | unclosedString tagged =>
    cases tagged
    cases munched with
    | unclosedString absent => exact ⟨_, 0, .unclosedString absent, rfl⟩
  | badSigil tagged cut =>
    cases tagged
    have bytes := (bytes_of_slice? cut).1
    cases munched with
    | badSigil sigil lacks =>
      rw [ahead] at bytes
      refine ⟨_, 1, .badSigil ?_ (Grammar.ascii_sigilChar ▸ lacks), rfl⟩
      rcases sigil with rfl | rfl
      · simp [Text.eq_of_bytes_singleton '$' bytes]
      · simp [Text.eq_of_bytes_singleton '%' bytes]
  | badSelector tagged =>
    cases tagged
    cases munched with
    | badSelector lacks => exact ⟨_, 1, .badSelector (Grammar.ascii_selector ▸ lacks), rfl⟩
  | badChar tagged cut =>
    cases tagged
    cases munched with
    | badChar stray =>
      have bytes := (bytes_of_slice? cut).1
      obtain ⟨found, encoded, _, width, _⟩ := Source.char_ahead fits aligned ahead
      rw [ahead, width, ← String.length_utf8EncodeChar, ← List.prefix_iff_eq_take.mp encoded] at bytes
      rw [← Text.eq_of_bytes_singleton found bytes] at encoded
      exact ⟨_, 0, fault_of_stray stray encoded, rfl⟩
  | badIndex tagged cut large =>
    cases tagged
    obtain ⟨bytes, selector⟩ := bytes_of_slice? cut
    obtain ⟨rest, rfl, selected⟩ := Munch.selector_of_ofBytes scanned
    rw [ahead] at bytes
    rw [← selector, bytes, List.drop_take, List.drop_one, List.tail_cons] at large
    rcases selected with star | plus | ⟨some, rfl⟩
    · exact absurd (.inl star) large
    · exact absurd (.inr (.inl plus)) large
    · have digits := List.prefix_iff_eq_take.mp (rest.takeWhile_prefix Byte.isDigit)
      rw [Nat.add_sub_cancel, ← digits, not_selectable_digits_iff some] at large
      rw [List.take_succ_cons, ← digits] at bytes
      rw [← Grammar.ascii_isDigit] at bytes large
      exact ⟨_, 0, .badIndex bytes large, rfl⟩

theorem blamed_of_fault (fits : source.Fits) (aligned : source.Aligned l.start)
    (scanned : Munch.ofBytes mode (source.bytes.drop l.start) = ⟨l.tag, l.length⟩)
    {cause : Cause} {k : Nat} (fault : Fault (source.bytes.drop l.start) cause k) :
    l.Blamed source (.locate cause source.text (l.start + k)) := by
  have last := Source.aligned_munch fits aligned mode
  rw [scanned] at last
  obtain ⟨text, cut⟩ := Source.slice?_of_aligned aligned last (Nat.le_add_right _ _)
  obtain ⟨bytes, selector⟩ := bytes_of_slice? cut
  obtain ⟨tag, start, length⟩ := l
  dsimp only at *
  generalize source.bytes.drop start = w at fault scanned bytes
  -- A fault fixes the munch, and with it the tag and the text of the lexeme.
  cases fault with
  | unclosedString absent =>
    rw [Munch.ofBytes_unclosed absent] at scanned
    cases scanned
    exact .unclosedString rfl
  | @badSigil b sigil rest known lacks =>
    have lacks : rest.head?.any Byte.isSigilStart = false := Grammar.ascii_sigilChar ▸ lacks
    have known : Munch.ofBytes mode (b :: rest) = ⟨.badSigil, 1⟩ ∧
        String.utf8EncodeChar sigil = [b] := by
      simp only [List.mem_cons, Prod.mk.injEq, List.not_mem_nil, or_false] at known
      rcases known with ⟨rfl, rfl⟩ | ⟨rfl, rfl⟩
      · exact ⟨Munch.ofSigil_of_lacks lacks, rfl⟩
      · exact ⟨Munch.ofSigil_of_lacks lacks, rfl⟩
    obtain ⟨munch, encoded⟩ := known
    rw [munch] at scanned
    cases scanned
    rw [Text.eq_singleton (bytes.trans encoded.symm)] at cut
    exact .badSigil rfl cut
  | badSelector lacks =>
    rw [Grammar.ascii_selector] at lacks
    have munch : Munch.ofBytes mode (Byte.ampersat :: _) = _ := Munch.ofSelector_of_lacks lacks
    rw [munch] at scanned
    cases scanned
    exact .badSelector rfl
  | @badChar found rest nothing =>
    rw [Munch.ofBytes_char nothing] at scanned
    cases scanned
    rw [List.take_left' (String.length_utf8EncodeChar found)] at bytes
    rw [Text.eq_singleton bytes] at cut
    exact .badChar rfl cut
  | @badIndex text' rest spelled large =>
    rw [Grammar.ascii_isDigit] at spelled large
    have digits := List.prefix_iff_eq_take.mp (rest.takeWhile_prefix Byte.isDigit)
    have some : rest.takeWhile Byte.isDigit ≠ [] := by
      intro nothing
      rw [nothing] at large
      exact absurd large (by decide)
    have munch : Munch.ofBytes mode (Byte.ampersat :: rest) = _ := Munch.ofSelector_digits some
    rw [munch] at scanned
    cases scanned
    rw [List.take_succ_cons, ← digits, ← spelled] at bytes
    cases Text.bytes_injective bytes
    refine .badIndex rfl cut ?_
    rw [← selector, spelled, List.drop_one, List.tail_cons]
    exact (not_selectable_digits_iff some).mpr large

end Lexeme

/-- Reading fails with the faults of the bytes behind the white space. -/
theorem Cursor.read_eq_error_iff {mode : Mode} {c : Cursor} (fits : c.source.Fits)
    (aligned : c.source.Aligned c.pos) {failure : Failure} :
    (c.read mode).1 = .error failure ↔ ∃ cause k, Fault c.skipSpace.rest cause k ∧
      failure = .diagnostic (.locate cause c.source.text (c.skipSpace.pos + k)) := by
  obtain ⟨first, last⟩ := aligned_scan fits aligned mode
  constructor
  · intro failed
    rcases read_scan mode fits aligned with ⟨_, fetched⟩ | ⟨d, blamed, refused⟩ | ⟨t, _, fetched⟩
    · simp [fetched] at failed
    · obtain ⟨cause, k, fault, rfl⟩ := blamed.fault fits first rfl
      rw [refused] at failed
      cases failed
      exact ⟨cause, k, fault, rfl⟩
    · simp [fetched] at failed
  · rintro ⟨cause, k, fault, rfl⟩
    have blamed := Lexeme.blamed_of_fault fits first rfl fault
    obtain ⟨text, cut⟩ := Source.slice?_of_aligned first last (Nat.le_add_right _ _)
    have decoded := blamed.decoded cut
    rw [← slice?] at cut
    simp only [read_eq, cut, decoded]
    rfl

/-! ## Readers -/

theorem Reader.fetch_eq_error_iff {source : Source} {r : Reader} (settled : Settled source r)
    (fits : source.Fits) {f : Fetch} (listed : f ∈ [Fetch.next, .peek, .glob]) (failure : Failure) :
    (r.fetch f).1 = .error failure ↔
      ∃ cause k, Fault (source.bytes.drop r.origin.skipSpace.pos) cause k ∧
        failure = .diagnostic (.locate cause source.text (r.origin.skipSpace.pos + k)) := by
  obtain ⟨rfl, coherent, position⟩ := settled
  have answered : (r.fetch f).1 = (r.origin.read f.mode).1 := by
    rw [(fetch_simulates coherent f).result_eq]
    simp only [List.mem_cons, List.not_mem_nil, or_false] at listed
    rcases listed with rfl | rfl | rfl <;> rfl
  rw [answered]
  exact r.origin.read_eq_error_iff fits position

/-- Reading fails exactly on faulty bytes, and it says what is wrong with them and where. This holds
    in every session, whichever way the next token is asked for. -/
theorem Reachable.fetch_fails_iff {text : String} {seen : List Token} {r : Reader}
    (fits : (Source.ofText text).Fits) (reachable : Reachable text seen r) :
    ∃ p, (Source.ofText text).FirstStop (!·.isSpace) r.position p ∧
      ∀ f ∈ [Fetch.next, .peek, .glob],
        (∀ failure, (r.fetch f).1 = .error failure ↔
          ∃ cause k, Fault ((Source.ofText text).bytes.drop p) cause k ∧
            failure = .diagnostic (.locate cause text (p + k))) ∧
        ((∃ t, (r.fetch f).1 = .ok t) ↔
          ∀ cause k, ¬ Fault ((Source.ofText text).bytes.drop p) cause k) := by
  obtain ⟨settled, _⟩ := reachable.settled
  refine ⟨r.origin.skipSpace.pos, settled.firstStop, fun f listed => ?_⟩
  have fails := Reader.fetch_eq_error_iff settled fits listed
  refine ⟨fails, ?_⟩
  constructor
  · rintro ⟨t, ok⟩ cause k fault
    rw [(fails _).mpr ⟨cause, k, fault, rfl⟩] at ok
    cases ok
  · intro faultless
    cases answered : (r.fetch f).1 with
    | ok t => exact ⟨t, rfl⟩
    | error failure =>
      obtain ⟨cause, k, fault, _⟩ := (fails failure).mp answered
      exact absurd fault (faultless cause k)

theorem Reachable.fetch_fails_iff_accent :
    ∃ seen r p k, Reachable "a  é'" seen r ∧
      (Source.ofText "a  é'").FirstStop (!·.isSpace) r.position p ∧ p + k = 3 ∧
      Fault ((Source.ofText "a  é'").bytes.drop p) (.badChar 'é') k ∧
      (r.fetch .glob).1 = .error (.diagnostic (.locate (.badChar 'é') "a  é'" (p + k))) := by
  have fits : (Source.ofText "a  é'").Fits := by
    unfold Source.Fits
    decide +kernel
  have beginning : Reachable "a  é'" [] (.ofText "a  é'") := .start
  have reachable := beginning.call (.fetch .next) trivial
  have refused : (((Reader.ofText "a  é'").call (.fetch .next)).2.fetch .next).1 =
      .error (.diagnostic (.locate (.badChar 'é') "a  é'" 3)) := by
    decide +kernel
  obtain ⟨p, first, fails⟩ := reachable.fetch_fails_iff fits
  obtain ⟨cause, k, fault, same⟩ := ((fails .next (by simp)).1 _).mp refused
  have known : cause = .badChar 'é' ∧ p + k = 3 := by
    simp only [Diagnostic.locate, Failure.diagnostic.injEq, Diagnostic.mk.injEq] at same
    exact ⟨same.1.symm, same.2.1.symm⟩
  obtain ⟨rfl, place⟩ := known
  refine ⟨_, _, p, k, reachable, first, place, fault, ?_⟩
  exact ((fails .glob (by simp)).1 _).mpr ⟨_, k, fault, rfl⟩

end CurveScript
