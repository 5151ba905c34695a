import CurveScript.Proofs.GlobMode
import CurveScript.Proofs.Outcome

/-! # Failed calls lose nothing

A parser may try a call, have it fail and go on as if nothing had happened. What it finds
afterwards depends on the diagnostic alone: a mismatch is found by looking at the next token,
so that it leaves what peeking leaves, and every other diagnostic comes from a scan, which is
undone. A scan is undone by putting the cursor back to its old place. This is exact, although
the move back is clamped, because no reader passes the end of its fragment
(`Cursor.moveTo_of_le`).

With a token read ahead, fetches that need no more than this token cannot fail, and neither
can the fetch that reads it again in glob mode. -/

namespace CurveScript

/-- Whether a cause reports a token other than the expected one. -/
def Cause.isMismatch : Cause → Bool
  | .mismatch _ _ => true
  | _ => false

/-- The fetches that do not test the token they read. -/
def Fetch.untested : List Fetch :=
  [.next, .peek, .glob, .word, .restOfCommand]

/-! ## Scans -/

/-- What is wrong with a lexeme has nothing to do with expectations. -/
theorem Token.ofLexeme_cause {source : String} {lexeme : Lexeme} {text : String} {d : Diagnostic}
    (refused : Token.ofLexeme source lexeme text = .error d) : d.cause.isMismatch = false := by
  unfold Token.ofLexeme at refused
  cases tagged : lexeme.tag with
  | lexeme k =>
    rw [tagged] at refused
    dsimp only at refused
    cases valued : Payload.ofBytes? k (Text.bytes text) with
    | none => rw [valued] at refused; cases refused; rfl
    | some payload => rw [valued] at refused; cases refused
  | comment | endOfText => rw [tagged] at refused; cases refused
  | unclosedString | badSigil | badSelector | badChar => rw [tagged] at refused; cases refused; rfl

/-! ## Fetches -/

namespace Reader

variable {r : Reader} {f : Fetch} {answer : Except Failure Token × Reader} {d : Diagnostic}

theorem Fetched.unchanged (fetched : Fetched r f answer)
    (failed : answer.1 = .error (.diagnostic d)) (scanned : d.cause.isMismatch = false) :
    answer.2 = r := by
  cases fetched with
  | refused _ | uncut _ => rfl
  | mismatched _ _ =>
    cases failed
    cases scanned
  | peeked _ | absent _ _ | taken _ => cases failed

theorem Fetched.mismatch (fetched : Fetched r f answer)
    (failed : answer.1 = .error (.diagnostic d)) (unexpected : d.cause.isMismatch = true) :
    ∃ e t behind, f = .expect e ∧ e.accepts t = false ∧ d.cause = e.mismatch t ∧
      r.origin.read .normal = (.ok t, behind) ∧ answer.2 = ⟨behind, some ⟨t, r.position⟩⟩ := by
  cases fetched with
  | refused refused =>
    cases failed
    obtain ⟨_, _, decoded⟩ := (Cursor.read_error refused).2.2 _ rfl
    rw [Token.ofLexeme_cause decoded] at unexpected
    cases unexpected
  | mismatched fetched rejected =>
    cases failed
    exact ⟨_, _, _, rfl, rejected, rfl, fetched, rfl⟩
  | uncut _ | peeked _ | absent _ _ | taken _ => cases failed

theorem Fetched.of_lookahead (fetched : Fetched r f answer) (coherent : r.Coherent)
    (kept : r.lookahead.isSome = true) (listed : f ∈ Fetch.untested) :
    (∃ t, answer.1 = .ok t) ∨
      (f = .word ∨ f = .restOfCommand) ∧ answer.1 = .error .misaligned := by
  obtain ⟨ahead, kept⟩ := Option.isSome_iff_exists.mp kept
  have normal := coherent ahead kept
  cases fetched with
  | refused refused =>
    -- What is kept was read in normal mode, so that it can be read in either mode.
    obtain ⟨u, c, glob⟩ := Cursor.read_glob_of_normal normal
    cases mode : f.mode with
    | normal => rw [mode, normal] at refused; cases refused
    | glob => rw [mode, glob] at refused; cases refused
  | uncut stretch =>
    cases stretch with
    | word _ _ => exact .inr ⟨.inl rfl, rfl⟩
    | restOfCommand _ _ => exact .inr ⟨.inr rfl, rfl⟩
    | restOfLine => simp [Fetch.untested] at listed
  | mismatched _ _ => simp [Fetch.untested] at listed
  | peeked _ | absent _ _ | taken _ => exact .inl ⟨_, rfl⟩

end Reader

/-- A failed call loses nothing. After a diagnostic of a scan the reader is as it was, and
    putting the cursor back is all it takes. After a mismatch the reader is as peeking leaves
    it, with the offending token next. Where a token is read ahead, no fetch fails that does
    not test it; only in a fragment that is cut off may text end inside a character. -/
theorem Reachable.failed_fetch_restores {text : String} {seen : List Token} {r : Reader}
    (reachable : Reachable text seen r) (f : Fetch) :
    (∀ d, (r.fetch f).1 = .error (.diagnostic d) → d.cause.isMismatch = false →
      (r.fetch f).2 = r) ∧
    (∀ d, (r.fetch f).1 = .error (.diagnostic d) → d.cause.isMismatch = true →
      (r.fetch f).2 = r.peek.2 ∧ (r.fetch f).2.position = r.position ∧
        ∃ e t, f = .expect e ∧ e.accepts t = false ∧ d.cause = e.mismatch t ∧
          r.peek.1 = .ok t ∧ (r.fetch f).2.next.1 = .ok t) ∧
    (r.lookahead.isSome = true → f ∈ Fetch.untested →
      (∃ t, (r.fetch f).1 = .ok t) ∨
        (f = .word ∨ f = .restOfCommand) ∧ (r.fetch f).1 = .error .misaligned ∧
          ¬ (Source.ofText text).Fits) ∧
    (∀ mode, (r.cursor.scan mode).2.moveTo r.cursor.pos = r.cursor ∧
      (r.unread.scan mode).2.moveTo r.cursor.pos = r.cursor) := by
  have intact := reachable.intact
  have fetched := Reader.fetch_fetched intact.coherent f
  refine ⟨fun d failed scanned => fetched.unchanged failed scanned, ?_, ?_, ?_⟩
  · intro d failed unexpected
    obtain ⟨e, t, behind, rfl, rejected, cause, read, left⟩ := fetched.mismatch failed unexpected
    have peeked := Reader.peek_of_read intact.coherent read
    rw [left, peeked]
    exact ⟨rfl, rfl, e, t, rfl, rejected, cause, rfl, rfl⟩
  · intro kept listed
    rcases fetched.of_lookahead intact.coherent kept listed with answered | ⟨extended, failed⟩
    · exact .inl answered
    · refine .inr ⟨extended, failed, fun fits => ?_⟩
      have aligned := reachable.settled.1.fetch_aligned fits f
      rw [failed] at aligned
      exact aligned
  · intro mode
    have inside : r.cursor.pos ≤ r.cursor.source.size := by
      rw [intact.source_eq]
      exact intact.inside
    exact ⟨Cursor.moveTo_of_le rfl inside, Cursor.moveTo_of_le r.source_unread inside⟩

theorem Reachable.failed_fetch_restores_quote :
    (∃ seen r d, Reachable "p 'q" seen r ∧ (r.fetch .glob).1 = .error (.diagnostic d) ∧
      d.cause.isMismatch = false ∧ (r.fetch .glob).2 = r) ∧
    (∃ seen r d, Reachable "p 'q" seen r ∧ r.lookahead.isSome = true ∧
      (r.fetch (.expect (.text "q"))).1 = .error (.diagnostic d) ∧ d.cause.isMismatch = true ∧
      (r.fetch (.expect (.text "q"))).2 = r.peek.2 ∧
      (r.fetch (.expect (.text "q"))).2.position = r.position) := by
  have beginning : Reachable "p 'q" [] (.ofText "p 'q") := .start
  have taken := beginning.call (.fetch .next) trivial
  have peeked := beginning.call (.fetch .peek) trivial
  constructor
  · have failed : ((((Reader.ofText "p 'q").call (.fetch .next)).2).fetch .glob).1 =
        .error (.diagnostic ⟨.unclosedString, 2, none⟩) := by
      decide +kernel
    exact ⟨_, _, _, taken, failed, rfl, (taken.failed_fetch_restores .glob).1 _ failed rfl⟩
  · have failed : ((((Reader.ofText "p 'q").call (.fetch .peek)).2).fetch (.expect (.text "q"))).1 =
        .error (.diagnostic ⟨.mismatch "`q'" (some "`p'"), 1, none⟩) := by
      decide +kernel
    obtain ⟨left, position, _⟩ :=
      (peeked.failed_fetch_restores (.expect (.text "q"))).2.1 _ failed rfl
    exact ⟨_, _, _, peeked, rfl, failed, rfl, left, position⟩

end CurveScript
