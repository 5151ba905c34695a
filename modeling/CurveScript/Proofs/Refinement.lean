import CurveScript.Proofs.Alignment
import CurveScript.Proofs.Values
import Mathlib.Data.List.Forall2

/-! # Tokens refine lexemes

Two loops run over the same text. The scan cuts it into lexemes and goes on behind those that
are wrong; the reader decodes every lexeme and stops at the first that is wrong. They agree:
the tokens of a text are its lexemes one by one (`Lexeme.Denotes`), unless one of these offends,
and then the first to do so is blamed for the failure (`Lexeme.Blamed`).

`Cursor.read_scan` says this of one step. `Decodes` is the relation between all lexemes up to
the terminator and the result of reading, and `Cursor.lexemes_decodes` is the induction over
the scan. `Reader.drain` counts the fetches that are made. -/

namespace CurveScript

/-! ## One lexeme -/

namespace Lexeme

/-- A lexeme that becomes no token: text that the scan marks as wrong, or a selector whose
    number does not fit. -/
def Offends (source : Source) (l : Lexeme) : Prop :=
  l.tag.isError = true ∨
    l.tag = .lexeme .dataset ∧ ¬ Selectable (source.bytes.extract (l.start + 1) l.stop)

/-- The diagnostic that an offending lexeme gives rise to. It points behind a sigil or `@` that
    lacks something, and to the start of everything else. -/
inductive Blamed (source : Source) (l : Lexeme) : Diagnostic → Prop where
  | unclosedString : l.tag = .unclosedString →
      Blamed source l (.locate .unclosedString source.text l.start)
  | badSigil {c : Char} : l.tag = .badSigil →
      source.slice? l.start l.stop = some (String.singleton c) →
      Blamed source l (.locate (.badSigil c) source.text l.stop)
  | badSelector : l.tag = .badSelector → Blamed source l (.locate .badSelector source.text l.stop)
  | badChar {c : Char} : l.tag = .badChar →
      source.slice? l.start l.stop = some (String.singleton c) →
      Blamed source l (.locate (.badChar c) source.text l.start)
  | badIndex {text : String} : l.tag = .lexeme .dataset →
      source.slice? l.start l.stop = some text →
      ¬ Selectable (source.bytes.extract (l.start + 1) l.stop) →
      Blamed source l (.locate (.badNumber text) source.text l.start)

/-- The token `t` stands for the lexeme `l`: it has its class, its place and its text, and the
    value that the text denotes. -/
structure Denotes (source : Source) (l : Lexeme) (t : Token) : Prop where
  kind : ∃ k, l.tag = .lexeme k ∧ t.kind = .lexeme k ∧
    Payload.ofBytes? k (Text.bytes t.text) = some t.payload
  span : t.span = ⟨l.start, l.stop⟩
  text : source.slice? l.start l.stop = some t.text

variable {source : Source} {l : Lexeme}

theorem Blamed.offends {d : Diagnostic} (blamed : Blamed source l d) : l.Offends source := by
  cases blamed with
  | unclosedString tag | badSigil tag _ | badSelector tag | badChar tag _ =>
    exact .inl (by rw [tag]; rfl)
  | badIndex tag _ large => exact .inr ⟨tag, large⟩

theorem bytes_of_slice? {text : String} (cut : source.slice? l.start l.stop = some text) :
    Text.bytes text = (source.bytes.drop l.start).take l.length ∧
      (Text.bytes text).drop 1 = source.bytes.extract (l.start + 1) l.stop := by
  have bytes := Source.bytes_of_slice? cut
  rw [List.extract_eq_take_drop] at bytes
  have length : l.stop - l.start = l.length := Nat.add_sub_cancel_left _ _
  refine ⟨by rw [bytes, length], ?_⟩
  rw [bytes, List.drop_take, List.drop_drop, List.extract_eq_take_drop, Nat.sub_add_eq]

theorem Denotes.not_offends {t : Token} (denotes : Denotes source l t) : ¬ l.Offends source := by
  obtain ⟨⟨k, tag, _, payload⟩, _, cut⟩ := denotes
  rintro (wrong | ⟨dataset, large⟩)
  · simp [tag, Tag.isError] at wrong
  · rw [tag] at dataset
    cases dataset
    rw [← (bytes_of_slice? cut).2, ← Dataset.ofSelector?_isSome_iff] at large
    simp [Payload.ofBytes?] at payload
    obtain ⟨d, selected, _⟩ := payload
    simp [selected] at large

theorem Blamed.isTerminator_eq_false {d : Diagnostic} (blamed : Blamed source l d) :
    l.tag.isTerminator = false := by
  cases blamed with
  | unclosedString tag | badSigil tag _ | badSelector tag | badChar tag _ | badIndex tag _ _ =>
    rw [tag]
    rfl

theorem Denotes.isTerminator_eq_false {t : Token} (denotes : Denotes source l t) :
    l.tag.isTerminator = false := by
  obtain ⟨k, tag, _⟩ := denotes.kind
  rw [tag]
  rfl

theorem Denotes.isNop_eq_false {t : Token} (denotes : Denotes source l t) : t.isNop = false := by
  obtain ⟨k, _, kind, _⟩ := denotes.kind
  simp [Token.isNop, kind]

end Lexeme

theorem Text.eq_singleton {s : String} {c : Char} (encoded : bytes s = String.utf8EncodeChar c) :
    s = String.singleton c := by
  apply bytes_injective
  rw [encoded, String.singleton_eq_ofList, bytes_ofList]
  simp

/-- Decoding a lexeme that was scanned. -/
theorem Token.ofLexeme_scanned {mode : Mode} {source : Source} {l : Lexeme} {text : String}
    (fits : source.Fits) (aligned : source.Aligned l.start)
    (scanned : Munch.ofBytes mode (source.bytes.drop l.start) = ⟨l.tag, l.length⟩)
    (cut : source.slice? l.start l.stop = some text) :
    (l.tag.isTerminator = true ∧ ofLexeme source.text l text = .ok (.nop l.start)) ∨
      (∃ d, l.Blamed source d ∧ ofLexeme source.text l text = .error d) ∨
      ∃ t, l.Denotes source t ∧ ofLexeme source.text l text = .ok t := by
  obtain ⟨bytes, selector⟩ := Lexeme.bytes_of_slice? cut
  obtain ⟨tag, start, length⟩ := l
  have munched := Munch.ofBytes_munched mode (source.bytes.drop start)
  rw [scanned] at munched
  dsimp only at aligned bytes munched
  generalize ahead : source.bytes.drop start = r at munched bytes
  -- Each outcome of a munch fixes the tag and the length, and with them the text.
  cases munched with
  | ended | comment _ => exact .inl ⟨rfl, rfl⟩
  | word k rest member =>
    rw [List.take_left] at bytes
    cases valued : Payload.ofBytes? k (Text.bytes text) with
    | some payload =>
      exact .inr (.inr ⟨⟨.lexeme k, text, _, payload⟩, ⟨⟨k, rfl, rfl, valued⟩, rfl, cut⟩,
        by simp only [ofLexeme, valued]⟩)
    | none =>
      rw [bytes] at valued selector
      obtain ⟨rfl, large⟩ := (Payload.ofBytes?_eq_none_iff member).mp valued
      rw [selector] at large
      exact .inr (.inl ⟨_, .badIndex rfl cut large, by simp only [ofLexeme, bytes, valued]⟩)
  | unclosedString _ => exact .inr (.inl ⟨_, .unclosedString rfl, rfl⟩)
  | badSigil sigil _ =>
    have single : ∃ c, text = String.singleton c := by
      rcases sigil with rfl | rfl
      · exact ⟨'$', Text.eq_singleton bytes⟩
      · exact ⟨'%', Text.eq_singleton bytes⟩
    obtain ⟨c, rfl⟩ := single
    exact .inr (.inl ⟨_, .badSigil rfl cut, by simp [ofLexeme, Text.firstChar]⟩)
  | badSelector _ => exact .inr (.inl ⟨_, .badSelector rfl, rfl⟩)
  | badChar _ =>
    obtain ⟨c, encoded, _, width, _⟩ := Source.char_ahead fits aligned ahead
    rw [width, ← String.length_utf8EncodeChar, ← List.prefix_iff_eq_take.mp encoded] at bytes
    have single := Text.eq_singleton bytes
    subst single
    exact .inr (.inl ⟨_, .badChar rfl cut, by simp [ofLexeme, Text.firstChar]⟩)

namespace Cursor

variable {c : Cursor}

/-- One step of the two loops: the lexeme that is scanned decides what is read. -/
theorem read_scan (mode : Mode) (fits : c.source.Fits) (aligned : c.source.Aligned c.pos) :
    ((c.scan mode).1.tag.isTerminator = true ∧
        c.read mode = (.ok (.nop (c.scan mode).1.start), (c.scan mode).2)) ∨
      (∃ d, (c.scan mode).1.Blamed c.source d ∧ c.read mode = (.error (.diagnostic d), c)) ∨
      ∃ t, (c.scan mode).1.Denotes c.source t ∧ c.read mode = (.ok t, (c.scan mode).2) := by
  obtain ⟨first, last⟩ := aligned_scan fits aligned mode
  obtain ⟨text, cut⟩ := Source.slice?_of_aligned first last (Nat.le_add_right _ _)
  have here : c.slice? (c.scan mode).1.start (c.scan mode).1.stop = some text := cut
  rcases Token.ofLexeme_scanned fits first rfl cut with
    ⟨terminator, decoded⟩ | ⟨d, blamed, decoded⟩ | ⟨t, denotes, decoded⟩
  · exact .inl ⟨terminator, by simp only [read_eq, here, decoded]⟩
  · exact .inr (.inl ⟨d, blamed, by simp only [read_eq, here, decoded]⟩)
  · exact .inr (.inr ⟨t, denotes, by simp only [read_eq, here, decoded]⟩)

/-! ## All lexemes -/

theorem tokens_of_error {c' : Cursor} {failure : Failure}
    (refused : c.read .normal = (.error failure, c')) : c.tokens = .error failure := by
  rw [tokens]
  split
  · next fetched => rw [refused] at fetched; cases fetched; rfl
  · next fetched => rw [refused] at fetched; cases fetched

theorem tokens_of_ok {c' : Cursor} {t : Token} (fetched : c.read .normal = (.ok t, c')) :
    c.tokens = if t.isNop then .ok [] else c'.tokens.map (t :: ·) := by
  rw [tokens]
  split
  · next refused => rw [fetched] at refused; cases refused
  · next again => rw [fetched] at again; cases again; rfl

end Cursor

/-- The result of reading all the lexemes before a terminator: their tokens in order, or the
    diagnostic of the first that becomes none. -/
inductive Decodes (source : Source) : List Lexeme → Except Failure (List Token) → Prop where
  | ended : Decodes source [] (.ok [])
  | token {l : Lexeme} {t : Token} {ls : List Lexeme} {result : Except Failure (List Token)} :
      l.Denotes source t → Decodes source ls result →
      Decodes source (l :: ls) (result.map (t :: ·))
  | fault {l : Lexeme} {d : Diagnostic} (ls : List Lexeme) : l.Blamed source d →
      Decodes source (l :: ls) (.error (.diagnostic d))

theorem Cursor.lexemes_decodes (c : Cursor) (fits : c.source.Fits)
    (aligned : c.source.Aligned c.pos) :
    ∃ ls last, c.lexemes .normal = ls ++ [last] ∧ last.tag.isTerminator = true ∧
      (∀ l ∈ ls, l.tag.isTerminator = false) ∧ Decodes c.source ls c.tokens := by
  fun_induction lexemes .normal c with
  | case1 c lexeme terminator =>
    refine ⟨[], lexeme, rfl, terminator, by simp, ?_⟩
    rcases read_scan .normal fits aligned with ⟨_, read⟩ | ⟨d, blamed, _⟩ | ⟨t, denotes, _⟩
    · rw [tokens_of_ok read]
      exact .ended
    · rw [blamed.isTerminator_eq_false] at terminator
      cases terminator
    · rw [denotes.isTerminator_eq_false] at terminator
      cases terminator
  | case2 c lexeme proper inductionHypothesis =>
    have behind : c.source.Aligned (c.scan .normal).2.pos := by
      obtain ⟨_, last⟩ := aligned_scan fits aligned .normal
      have landed : (c.scan .normal).2.pos = (c.scan .normal).1.stop := Nat.min_eq_left last.inside
      rw [landed]
      exact last
    obtain ⟨ls, last, split, terminator, before, decodes⟩ := inductionHypothesis fits behind
    refine ⟨lexeme :: ls, last, by rw [split, List.cons_append], terminator, ?_, ?_⟩
    · intro l member
      rcases List.mem_cons.mp member with rfl | member
      · exact Bool.eq_false_iff.mpr proper
      · exact before l member
    · rcases read_scan .normal fits aligned with ⟨terminator, _⟩ | ⟨d, blamed, read⟩ | ⟨t, denotes, read⟩
      · exact absurd terminator proper
      · rw [tokens_of_error read]
        exact .fault ls blamed
      · rw [tokens_of_ok read, denotes.isNop_eq_false, if_neg Bool.false_ne_true]
        exact .token denotes decodes

namespace Decodes

variable {source : Source} {ls : List Lexeme} {result : Except Failure (List Token)}

theorem denotes {ts : List Token} (decodes : Decodes source ls result) (ok : result = .ok ts) :
    List.Forall₂ (Lexeme.Denotes source) ls ts := by
  induction decodes generalizing ts with
  | ended => cases ok; exact .nil
  | @token l t ls result denotes _ inductionHypothesis =>
    cases result with
    | error failure => cases ok
    | ok us => cases ok; exact .cons denotes (inductionHypothesis rfl)
  | fault _ _ => cases ok

/-- Where reading fails, the first lexeme that offends is blamed. -/
theorem ok_or_blamed (decodes : Decodes source ls result) :
    (∃ ts, result = .ok ts) ∨
      ∃ before l after d, ls = before ++ l :: after ∧ (∀ m ∈ before, ¬ m.Offends source) ∧
        l.Offends source ∧ l.Blamed source d ∧ result = .error (.diagnostic d) := by
  induction decodes with
  | ended => exact .inl ⟨[], rfl⟩
  | @token m t ls result denotes _ inductionHypothesis =>
    rcases inductionHypothesis with ⟨ts, rfl⟩ | ⟨before, l, after, d, rfl, sound, found⟩
    · exact .inl ⟨t :: ts, rfl⟩
    · obtain ⟨offends, blamed, rfl⟩ := found
      refine .inr ⟨m :: before, l, after, d, rfl, ?_, offends, blamed, rfl⟩
      simpa [denotes.not_offends] using sound
  | fault ls blamed => exact .inr ⟨[], _, ls, _, rfl, by simp, blamed.offends, blamed, rfl⟩

theorem ok_iff (decodes : Decodes source ls result) :
    (∃ ts, result = .ok ts) ↔ ∀ l ∈ ls, ¬ l.Offends source := by
  induction decodes with
  | ended => simp
  | @token l t ls result denotes _ inductionHypothesis =>
    have mapped : (∃ ts, result.map (t :: ·) = .ok ts) ↔ ∃ ts, result = .ok ts := by
      cases result <;> simp [Except.map]
    rw [mapped, inductionHypothesis]
    simp [denotes.not_offends]
  | fault ls blamed => simp [blamed.offends]

end Decodes

/-! ## The number of fetches -/

/-- Take tokens until the end or a failure, with at most `n` fetches. There is no result if
    these do not suffice. -/
def Reader.drain : Nat → Reader → Option (Except Failure (List Token))
  | 0, _ => none
  | n + 1, r =>
    match r.next with
    | (.error failure, _) => some (.error failure)
    | (.ok t, r') => if t.isNop then some (.ok []) else (r'.drain n).map (·.map (t :: ·))

theorem Reader.drain_eq {c : Cursor} {n : Nat} (enough : c.rest.length < n) :
    drain n ⟨c, none⟩ = some c.tokens := by
  induction n generalizing c with
  | zero => omega
  | succ n inductionHypothesis =>
    rcases c.read_cases .normal with ⟨t, behind, fetched⟩ | ⟨failure, refused⟩
    · rw [Cursor.tokens_of_ok fetched]
      simp only [drain, next, fetched]
      cases nop : t.isNop with
      | true => rfl
      | false =>
        have less := Cursor.read_progress fetched nop
        simp [inductionHypothesis (c := behind) (by omega)]
    · rw [Cursor.tokens_of_error refused]
      simp only [drain, next, refused]

/-- Tokenizing refines scanning. All lexemes but the last one stand before the terminator. At
    most one fetch for each byte and one for the end are made. There is a result exactly if no
    lexeme offends, and then it has one token for each lexeme; otherwise the first lexeme that
    offends is blamed. -/
theorem tokenize_refines_lexemes {text : String} (fits : (Source.ofText text).Fits) :
    ∃ ls last, (Cursor.ofText text).lexemes .normal = ls ++ [last] ∧
      last.tag.isTerminator = true ∧ (∀ l ∈ ls, l.tag.isTerminator = false) ∧
      (Reader.ofText text).drain ((fragment text).length + 1) = some (tokenize text) ∧
      ((∃ ts, tokenize text = .ok ts) ↔ ∀ l ∈ ls, ¬ l.Offends (Source.ofText text)) ∧
      (∀ ts, tokenize text = .ok ts →
        List.Forall₂ (Lexeme.Denotes (Source.ofText text)) ls ts) ∧
      ((∃ l ∈ ls, l.Offends (Source.ofText text)) →
        ∃ before l after d, ls = before ++ l :: after ∧
          (∀ m ∈ before, ¬ m.Offends (Source.ofText text)) ∧ l.Offends (Source.ofText text) ∧
          l.Blamed (Source.ofText text) d ∧ tokenize text = .error (.diagnostic d)) := by
  obtain ⟨ls, last, split, terminator, proper, decodes⟩ :=
    (Cursor.ofText text).lexemes_decodes fits (Source.aligned_zero _)
  have counted : (Reader.ofText text).drain ((fragment text).length + 1) = some (tokenize text) :=
    Reader.drain_eq (Nat.lt_succ_self _)
  refine ⟨ls, last, split, terminator, proper, counted, decodes.ok_iff,
    fun ts ok => decodes.denotes ok, ?_⟩
  rintro ⟨l, member, offends⟩
  rcases decodes.ok_or_blamed with ok | blamed
  · exact absurd offends (decodes.ok_iff.mp ok l member)
  · exact blamed

theorem tokenize_refines_lexemes_overflow :
    (Source.ofText "a @18446744073709551616 'é").Fits ∧
      ∃ before l after d,
        (Cursor.ofText "a @18446744073709551616 'é").lexemes .normal = before ++ l :: after ∧
        (∀ m ∈ before, ¬ m.Offends (Source.ofText "a @18446744073709551616 'é")) ∧
        l.Blamed (Source.ofText "a @18446744073709551616 'é") d ∧
        tokenize "a @18446744073709551616 'é" = .error (.diagnostic d) := by
  have fits : (Source.ofText "a @18446744073709551616 'é").Fits := by
    unfold Source.Fits
    decide +kernel
  have failed : tokenize "a @18446744073709551616 'é" =
      .error (.diagnostic ⟨.badNumber "@18446744073709551616", 2, none⟩) := by
    decide +kernel
  obtain ⟨ls, last, split, _, _, _, ok_iff, _, blamed⟩ := tokenize_refines_lexemes fits
  have offended : ∃ l ∈ ls, l.Offends (Source.ofText "a @18446744073709551616 'é") := by
    by_contra sound
    obtain ⟨ts, ok⟩ := ok_iff.mpr fun l member offends => sound ⟨l, member, offends⟩
    rw [failed] at ok
    cases ok
  obtain ⟨before, l, after, d, rfl, earlier, _, blamed, answer⟩ := blamed offended
  exact ⟨fits, before, l, after ++ [last], d, by simpa using split, earlier, blamed, answer⟩

end CurveScript
