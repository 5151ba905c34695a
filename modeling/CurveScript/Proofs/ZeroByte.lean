import CurveScript.Proofs.Placement
import CurveScript.Proofs.Restoration

/-! # Nothing behind a zero byte can be seen

A fragment ends at the first zero byte, yet the whole text is kept: pieces are cut out of it,
and diagnostics show a part of it. None of this reaches behind the zero byte. Two sources are
`Alike` if they have the same fragment, the same pieces of it and the same text before each
of its offsets. A reader that is put on another source like its own (`Reader.rebase`) answers
every call as before and leaves the reader as before, put on that source. -/

namespace CurveScript

/-! ## Sources that look alike -/

theorem fragment_zero {s : String} (zeroFree : 0 ∉ Text.bytes s) (t : String) :
    fragment (s ++ "\x00" ++ t) = fragment s := by
  have zero : Text.bytes "\x00" = [0] := by decide
  have alone := takeWhile_zeroFree zeroFree []
  rw [List.append_nil] at alone
  rw [fragment, fragment, String.append_assoc, Text.bytes_append, Text.bytes_append, zero,
    takeWhile_zeroFree zeroFree, alone]
  rfl

namespace Source

theorem carries_of_fragment_eq {s t : String} (same : fragment (s ++ t) = fragment s) :
    (ofText s).Carries 0 (ofText (s ++ t)) := by
  have bytes : (ofText (s ++ t)).bytes = (ofText s).bytes := same
  refine ⟨Nat.zero_le _, bytes, ?_⟩
  intro start stop
  ext u
  rw [slice?_eq_some_iff, slice?_eq_some_iff, size, size, bytes]
  apply and_congr_right
  intro inside
  have before : stop ≤ (Text.bytes s).length := Nat.le_trans inside (ofText s).size_le
  have cut : Text.slice? (ofText (s ++ t)).text start stop =
      Text.slice? (ofText s).text start stop :=
    Text.slice?_append_left before
  rw [Nat.add_zero, Nat.add_zero, cut]

/-- Two sources that cannot be told apart by what is read from them. -/
structure Alike (s s' : Source) : Prop extends s.Carries 0 s' where
  window?_eq : ∀ n offset, offset ≤ s.size →
    Text.window? s'.text n offset = Text.window? s.text n offset

/-- What follows a text cannot be seen if it adds nothing to the fragment. -/
theorem alike_of_fragment_eq {s t : String} (same : fragment (s ++ t) = fragment s) :
    (ofText s).Alike (ofText (s ++ t)) := by
  refine ⟨carries_of_fragment_eq same, ?_⟩
  intro n offset inside
  exact Text.window?_append_left (Nat.le_trans inside (ofText s).size_le)

theorem alike_zero {s : String} (zeroFree : 0 ∉ Text.bytes s) (t : String) :
    (ofText s).Alike (ofText (s ++ "\x00" ++ t)) := by
  have same := fragment_zero zeroFree t
  rw [String.append_assoc] at same ⊢
  exact alike_of_fragment_eq same

end Source

/-! ## One token and all tokens -/

variable {s s' : Source}

namespace Cursor

theorem read_alike (alike : s.Alike s') {c : Cursor} (source : c.source = s) (mode : Mode) :
    (c.carry 0 s').read mode = ((c.read mode).1, (c.read mode).2.carry 0 s') := by
  subst source
  rw [read_carry alike.toCarries]
  cases fetched : c.read mode with
  | mk result behind =>
    cases result with
    | ok t => rfl
    | error failure =>
      cases failure with
      | misaligned => rfl
      | diagnostic d =>
        -- A diagnostic points at an end of a lexeme, whose text lies in the fragment.
        obtain ⟨text, cut, refused⟩ := (read_error fetched).2.2 _ rfl
        obtain ⟨inside, cut⟩ := Source.slice?_eq_some_iff.mp cut
        have ordered := Text.le_of_slice? cut
        have offset : d.offset ≤ c.source.size := by
          cases Token.ofLexeme_error refused with
          | inl start => omega
          | inr stop => omega
        have same : Diagnostic.locate d.cause s'.text d.offset = d := by
          rw [Diagnostic.locate, alike.window?_eq _ _ offset]
          exact (Token.ofLexeme_located refused).symm
        show (Except.error (Failure.diagnostic (.locate d.cause s'.text d.offset)), _) = _
        rw [same]

theorem tokens_alike (alike : s.Alike s') {c : Cursor} (source : c.source = s) :
    (c.carry 0 s').tokens = c.tokens := by
  have same : (c.carry 0 s').tokens = (c.tokens.map (List.map id)).mapError id := by
    apply tokens_move s (carry 0 s')
    · intro t
      rfl
    · intro d here
      rw [read_alike alike here]
      cases (d.read .normal).1 <;> rfl
    · exact source
  rw [same, List.map_id_fun]
  cases c.tokens <;> rfl

end Cursor

/-! ## One call -/

namespace Reader

/-- The reader at the same place of another source. -/
def rebase (s' : Source) (r : Reader) : Reader :=
  ⟨r.cursor.carry 0 s', r.lookahead⟩

variable {r : Reader}

theorem next_rebase (alike : s.Alike s') (source : r.cursor.source = s) :
    (r.rebase s').next = (r.next.1, r.next.2.rebase s') := by
  obtain ⟨c, lookahead⟩ := r
  cases lookahead with
  | some ahead => rfl
  | none =>
    simp only [rebase, next, Cursor.read_alike alike source]
    cases c.read .normal with
    | mk result behind => cases result <;> rfl

theorem peek_rebase (alike : s.Alike s') (source : r.cursor.source = s) :
    (r.rebase s').peek = (r.peek.1, r.peek.2.rebase s') := by
  obtain ⟨c, lookahead⟩ := r
  cases lookahead with
  | some ahead => rfl
  | none =>
    simp only [rebase, peek, Cursor.read_alike alike source]
    cases c.read .normal with
    | mk result behind => cases result <;> rfl

theorem nextGlob_rebase (alike : s.Alike s') (source : r.cursor.source = s) :
    (r.rebase s').nextGlob = (r.nextGlob.1, r.nextGlob.2.rebase s') := by
  have unread : (r.rebase s').unread = r.unread.carry 0 s' := by
    obtain ⟨c, lookahead⟩ := r
    cases lookahead with
    | none => rfl
    | some ahead =>
      subst source
      exact Cursor.moveTo_carry alike.toCarries ahead.token.span.start
  have same : r.unread.source = s := r.source_unread.trans source
  simp only [nextGlob, unread, Cursor.read_alike alike same]
  cases answered : r.unread.read .glob with
  | mk result behind =>
    cases result with
    | ok t => rfl
    | error failure =>
      cases failure with
      | misaligned => rfl
      | diagnostic d =>
        -- The way back to the saved position is the same on both sources.
        have here : behind.source.Carries 0 s' := by
          rw [(Cursor.read_error answered).1, same]
          exact alike.toCarries
        have back := Cursor.moveTo_carry here r.cursor.pos
        exact congrArg (fun c => (Except.error (Failure.diagnostic d), Reader.mk c r.lookahead)) back

theorem extend_rebase (alike : s.Alike s') (intact : Intact s r) (kind : Kind)
    {skip : Cursor → Cursor} (still : ∀ c, (skip c).source = c.source)
    (moves : ∀ c, c.source = s → skip (c.carry 0 s') = (skip c).carry 0 s') :
    (r.rebase s').extend kind skip =
      ((r.extend kind skip).1, (r.extend kind skip).2.rebase s') := by
  have source : r.next.2.cursor.source = s := (intact.call (.fetch .next)).source_eq
  simp only [extend, next_rebase alike intact.source_eq]
  cases fetched : r.next with
  | mk result r' =>
    rw [fetched] at source
    cases result with
    | error failure => rfl
    | ok t =>
      dsimp only
      split
      · rfl
      · have cut : ((skip r'.cursor).carry 0 s').sliceFrom? t.span.start =
            (skip r'.cursor).sliceFrom? t.span.start := by
          rw [Cursor.sliceFrom?, Cursor.sliceFrom?, Cursor.slice?, Cursor.slice?, still, source]
          exact alike.slice?_eq t.span.start (skip r'.cursor).pos
        rw [rebase, moves _ source, cut]
        cases (skip r'.cursor).sliceFrom? t.span.start <;> rfl

theorem restOfLine_rebase (alike : s.Alike s') (source : r.cursor.source = s) :
    (r.rebase s').restOfLine = (r.restOfLine.1, r.restOfLine.2.rebase s') := by
  obtain ⟨c, lookahead⟩ := r
  subst source
  have finish : (c.carry 0 s').skipToEnd = c.skipToEnd.carry 0 s' := by
    simp only [Cursor.skipToEnd, Cursor.carry, alike.size_eq]
  have skipped : (c.carry 0 s').skipSpace = c.skipSpace.carry 0 s' :=
    Cursor.skipWhile_carry alike.toCarries _
  have cut : ∀ start, (c.skipToEnd.carry 0 s').sliceFrom? start = c.skipToEnd.sliceFrom? start :=
    fun start => alike.slice?_eq start c.skipToEnd.pos
  cases lookahead with
  | some ahead =>
    simp only [restOfLine, rebase, finish, cut]
    cases c.skipToEnd.sliceFrom? ahead.token.span.start <;> rfl
  | none =>
    simp only [restOfLine, rebase, finish, skipped, cut]
    have same : (c.skipSpace.carry 0 s').pos = c.skipSpace.pos := rfl
    rw [same]
    cases c.skipToEnd.sliceFrom? c.skipSpace.pos <;> rfl

theorem expect_rebase (alike : s.Alike s') (intact : Intact s r) (e : Expectation) :
    (r.rebase s').expect e = ((r.expect e).1, (r.expect e).2.rebase s') := by
  have after : Intact s r.peek.2 := intact.call (.fetch .peek)
  simp only [expect, peek_rebase alike intact.source_eq]
  cases fetched : r.peek with
  | mk result r' =>
    rw [fetched] at after
    cases result with
    | error failure => rfl
    | ok t =>
      dsimp only
      split
      · exact next_rebase alike after.source_eq
      · -- The offset is that of the cursor, which never passes the end.
        have near : Diagnostic.locate (e.mismatch t) s'.text r'.cursor.pos =
            .locate (e.mismatch t) r'.cursor.source.text r'.cursor.pos := by
          rw [Diagnostic.locate, alike.window?_eq _ _ after.inside, ← after.source_eq]
          rfl
        exact congrArg (fun d => (Except.error (Failure.diagnostic d), r'.rebase s')) near

theorem position_rebase (r : Reader) : (r.rebase s').position = r.position := by
  unfold position
  cases kept : r.lookahead <;> simp [rebase, kept, Cursor.carry]

theorem takeIf_rebase (alike : s.Alike s') (intact : Intact s r) (kind : Kind) :
    (r.rebase s').takeIf kind = ((r.takeIf kind).1, (r.takeIf kind).2.rebase s') := by
  have after : Intact s r.peek.2 := intact.call (.fetch .peek)
  simp only [takeIf, peek_rebase alike intact.source_eq]
  cases fetched : r.peek with
  | mk result r' =>
    rw [fetched] at after
    cases result with
    | error failure => rfl
    | ok t =>
      dsimp only
      split
      · exact next_rebase alike after.source_eq
      · rw [position_rebase]

theorem fetch_rebase (alike : s.Alike s') (intact : Intact s r) (f : Fetch) :
    (r.rebase s').fetch f = ((r.fetch f).1, (r.fetch f).2.rebase s') := by
  have source := intact.source_eq
  cases f with
  | next => exact next_rebase alike source
  | peek => exact peek_rebase alike source
  | glob => exact nextGlob_rebase alike source
  | word =>
    apply extend_rebase alike intact
    · intro c
      rfl
    · intro c same
      subst same
      exact Cursor.skipWhile_carry alike.toCarries _
  | restOfCommand =>
    apply extend_rebase alike intact
    · exact Cursor.source_skipCommand
    · intro c same
      subst same
      simp only [Cursor.skipCommand, Cursor.seekEither, Cursor.rest_carry alike.toCarries]
      split
      · rfl
      · simp only [Cursor.skipToEnd, Cursor.carry, alike.size_eq]
  | restOfLine => exact restOfLine_rebase alike source
  | expect e => exact expect_rebase alike intact e
  | takeIf k => exact takeIf_rebase alike intact k

theorem call_rebase (alike : s.Alike s') (intact : Intact s r) (call : Call) :
    (r.rebase s').call call = ((r.call call).1, (r.call call).2.rebase s') := by
  cases call with
  | fetch f => simp only [Reader.call, fetch_rebase alike intact]
  | pushBack t =>
    have carries : r.cursor.source.Carries 0 s' := by
      rw [intact.source_eq]
      exact alike.toCarries
    have moved := Cursor.moveTo_carry carries t.span.start
    exact congrArg (fun c => (Answer.done, Reader.mk c none)) moved
  | position => simp only [Reader.call, position_rebase]
  | input =>
    have same : (r.rebase s').input? = r.input? := by
      have cut := alike.slice?_eq 0 s.size
      rw [← alike.size_eq, ← intact.source_eq] at cut
      exact cut
    simp only [Reader.call, same]
  | raise message =>
    have same : (r.rebase s').raise message = r.raise message := by
      have near := alike.window?_eq Diagnostic.nearLength _ intact.inside
      rw [← intact.source_eq] at near
      exact congrArg (Diagnostic.mk (.raised message) r.cursor.pos) near
    simp only [Reader.call, same]

/-! ## Sessions -/

theorem run_rebase (alike : s.Alike s') (intact : Intact s r) (calls : List Call) :
    (r.rebase s').run calls = ((r.run calls).1, (r.run calls).2.rebase s') := by
  induction calls generalizing r with
  | nil => rfl
  | cons call calls inductionHypothesis =>
    simp only [run, call_rebase alike intact, inductionHypothesis (intact.call call)]

/-- Nothing behind a zero byte can be seen. A session gets the same answers whether or not
    anything follows, whatever is called and whatever tokens are given back: the same tokens,
    the same diagnostics with the text before them, the same failures to cut a text. -/
theorem unseen_behind_zero {p : String} (zeroFree : 0 ∉ Text.bytes p) (q : String) :
    (∀ calls, ((ofText (p ++ "\x00" ++ q)).run calls).1 = ((ofText p).run calls).1) ∧
      tokenize (p ++ "\x00" ++ q) = tokenize p := by
  have alike := Source.alike_zero zeroFree q
  constructor
  · intro calls
    have start : (ofText p).rebase (Source.ofText (p ++ "\x00" ++ q)) =
        ofText (p ++ "\x00" ++ q) := rfl
    rw [← start, run_rebase alike (intact_ofText p)]
  · have start : (Cursor.ofText p).carry 0 (Source.ofText (p ++ "\x00" ++ q)) =
        Cursor.ofText (p ++ "\x00" ++ q) := rfl
    rw [tokenize, ← start, Cursor.tokens_alike alike rfl, tokenize]

theorem unseen_behind_zero_string :
    0 ∉ Text.bytes "plot µ 'title" ∧
      ((ofText ("plot µ 'title" ++ "\x00" ++ "' é")).run
          [.fetch .next, .fetch .word, .fetch .next, .raise "title",
            .pushBack ⟨.expr, "", ⟨6, 90⟩, .absent⟩, .fetch .next, .fetch .restOfLine, .input]).1 =
        ((ofText "plot µ 'title").run
          [.fetch .next, .fetch .word, .fetch .next, .raise "title",
            .pushBack ⟨.expr, "", ⟨6, 90⟩, .absent⟩, .fetch .next, .fetch .restOfLine, .input]).1 ∧
      tokenize ("plot µ 'title" ++ "\x00" ++ "' é") = tokenize "plot µ 'title" := by
  have zeroFree : 0 ∉ Text.bytes "plot µ 'title" := by decide +kernel
  obtain ⟨answers, tokens⟩ := unseen_behind_zero zeroFree "' é"
  exact ⟨zeroFree, answers _, tokens⟩

end Reader

end CurveScript
