import CurveScript.Proofs.PlainFetch
import CurveScript.Proofs.Session

/-! # The token read ahead cannot be seen

A reader keeps a token that was looked at but not taken, and moves its cursor behind it.
This is for speed only: `Reader.fetch_simulates` says that a reader answers every fetch as
the plain cursor at its position does.

The relation between the two is `Reader.origin`, the cursor put back to the position of the
reader. It carries all that a reader stands for as long as the reader is `Coherent`: reading
at the origin gives the very token that is kept, and leaves the very cursor that is kept.
Only `Reader.raise` looks behind the relation, since it reports where the cursor stands. -/

namespace CurveScript

namespace Reader

/-! ## Coherent readers -/

/-- The cursor at the position of a reader, before any token read ahead. -/
def origin (r : Reader) : Cursor :=
  { r.cursor with pos := r.position }

/-- A token read ahead is what reading at the origin gives, with the present cursor left. -/
def Coherent (r : Reader) : Prop :=
  ∀ ahead, r.lookahead = some ahead → r.origin.read .normal = (.ok ahead.token, r.cursor)

/-- An answer of a reader that a plain cursor gives as well. -/
structure Simulates (actual : Except Failure Token × Reader)
    (plain : Except Failure Token × Cursor) : Prop where
  result_eq : actual.1 = plain.1
  origin_eq : actual.2.origin = plain.2
  coherent : actual.2.Coherent

theorem coherent_of_lookahead_none {r : Reader} (uncached : r.lookahead = none) : r.Coherent := by
  intro ahead kept
  rw [uncached] at kept
  cases kept

theorem origin_of_lookahead_none {r : Reader} (uncached : r.lookahead = none) :
    r.origin = r.cursor := by
  rw [origin, position, uncached]

/-- The answer of a reader that keeps nothing read ahead when it takes a token, and that is left as
    it was otherwise. -/
def lift (r : Reader) : Except Failure Token × Cursor → Except Failure Token × Reader
  | (.ok t, c) => (.ok t, ⟨c, none⟩)
  | (.error failure, _) => (.error failure, r)

/-- An answer with nothing read ahead. -/
theorem simulates_plain (result : Except Failure Token) (c : Cursor) :
    Simulates (result, ⟨c, none⟩) (result, c) :=
  ⟨rfl, rfl, coherent_of_lookahead_none rfl⟩

/-- An answer that leaves the reader as it was. -/
theorem simulates_still {r : Reader} (coherent : r.Coherent) (result : Except Failure Token) :
    Simulates (result, r) (result, r.origin) :=
  ⟨rfl, rfl, coherent⟩

theorem lift_simulates {r : Reader} (coherent : r.Coherent)
    {answer : Except Failure Token × Cursor}
    (still : ∀ failure, answer.1 = .error failure → answer.2 = r.origin) :
    Simulates (r.lift answer) answer := by
  obtain ⟨result, c⟩ := answer
  cases result with
  | ok t => exact simulates_plain _ _
  | error failure =>
    cases still failure rfl
    exact simulates_still coherent _

/-- Taking a token and looking at it both read at the origin, whether or not a token is
    kept already. -/
theorem ahead_cases {r : Reader} (coherent : r.Coherent) :
    (∃ t c, r.origin.read .normal = (.ok t, c) ∧ r.next = (.ok t, ⟨c, none⟩) ∧
      r.peek = (.ok t, ⟨c, some ⟨t, r.position⟩⟩)) ∨
    ∃ failure, r.origin.read .normal = (.error failure, r.origin) ∧
      r.next = (.error failure, r) ∧ r.peek = (.error failure, r) := by
  obtain ⟨cursor, lookahead⟩ := r
  cases lookahead with
  | some ahead => exact .inl ⟨ahead.token, cursor, coherent ahead rfl, rfl, rfl⟩
  | none =>
    -- With nothing kept, the origin is the cursor itself.
    rcases cursor.read_cases .normal with ⟨t, c, fetched⟩ | ⟨failure, refused⟩
    · refine .inl ⟨t, c, fetched, ?_, ?_⟩
      · simp only [next, fetched]
      · simp only [peek, fetched]
        rfl
    · refine .inr ⟨failure, refused, ?_, ?_⟩
      · simp only [next, refused]
      · simp only [peek, refused]

/-- The reader that peeking leaves is coherent, since it keeps what it has just read. -/
theorem coherent_kept {r : Reader} {t : Token} {c : Cursor}
    (fetched : r.origin.read .normal = (.ok t, c)) :
    Coherent ⟨c, some ⟨t, r.position⟩⟩ ∧ origin ⟨c, some ⟨t, r.position⟩⟩ = r.origin := by
  have back : origin ⟨c, some ⟨t, r.position⟩⟩ = r.origin := by
    have source : c.source = r.cursor.source := (Cursor.read_ok fetched).source_eq
    simp only [origin, position, source]
  -- What is kept now is what was read at the same origin just before.
  refine ⟨?_, back⟩
  rintro ahead ⟨⟩
  rw [back]
  exact fetched

/-! ## One fetch -/

theorem next_lift {r : Reader} (coherent : r.Coherent) :
    r.next = r.lift (r.origin.read .normal) := by
  rcases ahead_cases coherent with ⟨t, c, fetched, answered, _⟩ | ⟨failure, refused, answered, _⟩
  · rw [fetched, answered]
    rfl
  · rw [refused, answered]
    rfl

theorem peek_simulates {r : Reader} (coherent : r.Coherent) :
    Simulates r.peek ((r.origin.read .normal).1, r.origin) := by
  rcases ahead_cases coherent with ⟨t, c, fetched, _, answered⟩ | ⟨failure, refused, _, answered⟩
  · rw [fetched, answered]
    obtain ⟨kept, back⟩ := coherent_kept fetched
    exact ⟨rfl, back, kept⟩
  · rw [refused, answered]
    exact simulates_still coherent _

/-- The cursor at which a pattern is read again stands where a scan from the origin finds
    the first byte that is not white space. -/
theorem unread_eq {r : Reader} {ahead : Lookahead} (coherent : r.Coherent)
    (kept : r.lookahead = some ahead) : r.unread = r.origin.skipSpace := by
  have reads := Cursor.read_ok (coherent ahead kept)
  have inside : ahead.token.span.start ≤ r.cursor.source.size :=
    Nat.le_trans reads.start_le_stop reads.stop_le_size
  have source : r.origin.skipSpace.source = r.cursor.source := rfl
  rw [unread, kept]
  dsimp only
  rw [Cursor.moveTo, Nat.min_eq_left inside, reads.start_eq]
  rfl

theorem source_unread (r : Reader) : r.unread.source = r.cursor.source := by
  unfold unread
  split <;> rfl

/-- The saved position and the saved token are those of the reader, so that nothing has changed
    when reading again is refused. -/
theorem nextGlob_refused {r : Reader} {failure : Failure} {c : Cursor} (coherent : r.Coherent)
    (refused : r.unread.read .glob = (.error failure, c)) : r.nextGlob = (.error failure, r) := by
  obtain ⟨rfl, _, located⟩ := Cursor.read_error refused
  rw [nextGlob, refused]
  cases failure with
  | misaligned => rfl
  | diagnostic d =>
    have inside : r.cursor.pos ≤ r.cursor.source.size := by
      cases kept : r.lookahead with
      | none =>
        obtain ⟨text, cut, _⟩ := located d rfl
        have here := Cursor.pos_le_size_of_slice? cut
        rwa [unread, kept] at here
      | some ahead =>
        have reads := Cursor.read_ok (coherent ahead kept)
        rw [← reads.stop_eq]
        exact reads.stop_le_size
    dsimp only
    rw [Cursor.moveTo_of_le r.source_unread inside]

theorem nextGlob_lift {r : Reader} (coherent : r.Coherent) :
    r.nextGlob = r.lift (r.origin.read .glob) := by
  -- Reading again starts at the token and not at the white space before it.
  have again : (r.unread.read .glob).1 = (r.origin.read .glob).1 ∧
      ∀ t c, r.origin.read .glob = (.ok t, c) → r.unread.read .glob = (.ok t, c) := by
    cases kept : r.lookahead with
    | none =>
      have here : r.unread = r.origin := by rw [origin_of_lookahead_none kept, unread, kept]
      rw [here]
      exact ⟨rfl, fun t c fetched => fetched⟩
    | some ahead =>
      rw [unread_eq coherent kept]
      exact Cursor.read_skipSpace .glob r.origin
  rcases r.origin.read_cases .glob with ⟨t, c, fetched⟩ | ⟨failure, refused⟩
  · rw [fetched, nextGlob, again.2 t c fetched]
    rfl
  · have failed : (r.unread.read .glob).1 = .error failure := by rw [again.1, refused]
    cases answered : r.unread.read .glob with
    | mk result c =>
      rw [answered] at failed
      cases failed
      rw [refused, nextGlob_refused coherent answered]
      rfl

theorem extend_lift {r : Reader} (coherent : r.Coherent) (kind : Kind) (skip : Cursor → Cursor) :
    r.extend kind skip = r.lift (r.origin.extend kind skip) := by
  unfold extend Cursor.extend
  rcases ahead_cases coherent with ⟨t, c, fetched, answered, _⟩ | ⟨failure, refused, answered, _⟩
  · rw [fetched, answered]
    dsimp only
    split
    · rfl
    · cases (skip c).sliceFrom? t.span.start <;> rfl
  · rw [refused, answered]
    rfl

theorem restOfLine_lift {r : Reader} (coherent : r.Coherent) :
    r.restOfLine = r.lift r.origin.restOfLine := by
  have finish : r.cursor.skipToEnd = r.origin.skipToEnd := rfl
  unfold restOfLine Cursor.restOfLine
  cases kept : r.lookahead with
  | some ahead =>
    -- A token that is kept starts where the white space behind the origin ends.
    have start := (Cursor.read_ok (coherent ahead kept)).start_eq
    dsimp only
    rw [start, finish]
    cases r.origin.skipToEnd.sliceFrom? r.origin.skipSpace.pos <;> rfl
  | none =>
    dsimp only
    rw [← origin_of_lookahead_none kept]
    cases r.origin.skipToEnd.sliceFrom? r.origin.skipSpace.pos <;> rfl

/-- A fetch that does not look first answers as the plain cursor at the origin does. -/
theorem fetch_lift {r : Reader} (coherent : r.Coherent) {f : Fetch} (takes : f.looks = false) :
    r.fetch f = r.lift (r.origin.fetch f) := by
  cases f with
  | next => exact next_lift coherent
  | glob => exact nextGlob_lift coherent
  | word => exact extend_lift coherent .word Cursor.skipWord
  | restOfCommand => exact extend_lift coherent .rest Cursor.skipCommand
  | restOfLine => exact restOfLine_lift coherent
  | peek | expect _ | takeIf _ => cases takes

theorem expect_simulates {r : Reader} (coherent : r.Coherent) (e : Expectation) :
    Simulates (r.expect e) (r.origin.expect e) := by
  unfold expect Cursor.expect
  rcases ahead_cases coherent with ⟨t, c, fetched, _, answered⟩ | ⟨failure, refused, _, answered⟩
  · rw [fetched, answered]
    dsimp only
    split
    · exact simulates_plain _ _
    · obtain ⟨kept, back⟩ := coherent_kept fetched
      have source : c.source = r.origin.source := (Cursor.read_ok fetched).source_eq
      rw [source]
      exact ⟨rfl, back, kept⟩
  · rw [refused, answered]
    exact simulates_still coherent _

theorem takeIf_simulates {r : Reader} (coherent : r.Coherent) (kind : Kind) :
    Simulates (r.takeIf kind) (r.origin.takeIf kind) := by
  unfold takeIf Cursor.takeIf
  rcases ahead_cases coherent with ⟨t, c, fetched, _, answered⟩ | ⟨failure, refused, _, answered⟩
  · rw [fetched, answered]
    dsimp only
    split
    · exact simulates_plain _ _
    · obtain ⟨kept, back⟩ := coherent_kept fetched
      exact ⟨rfl, back, kept⟩
  · rw [refused, answered]
    exact simulates_still coherent _

/-- A reader answers every fetch as the plain cursor at its origin does. -/
theorem fetch_simulates {r : Reader} (coherent : r.Coherent) (f : Fetch) :
    Simulates (r.fetch f) (r.origin.fetch f) := by
  cases f with
  | peek => exact peek_simulates coherent
  | expect e => exact expect_simulates coherent e
  | takeIf k => exact takeIf_simulates coherent k
  | next | glob | word | restOfCommand | restOfLine =>
    rw [fetch_lift coherent rfl]
    exact lift_simulates coherent fun _ => (r.origin.fetch_fetched _).still

/-! ## Sessions -/

theorem origin_pushBack (r : Reader) (t : Token) :
    (r.pushBack t).origin = r.origin.moveTo t.span.start := rfl

/-- Every call leaves a coherent reader coherent, whatever tokens are given back. -/
theorem call_coherent {r : Reader} (coherent : r.Coherent) (call : Call) :
    (r.call call).2.Coherent := by
  cases call with
  | fetch f => exact (fetch_simulates coherent f).coherent
  | pushBack t => exact coherent_of_lookahead_none rfl
  | position | input | raise message => exact coherent

/-- Coherent readers with one origin answer a call alike, unless it asks for the place of
    the cursor, and have one origin again. -/
theorem call_congr {r s : Reader} (coherent : r.Coherent) (coherent' : s.Coherent)
    (same : r.origin = s.origin) (call : Call) (unraised : ∀ message, call ≠ .raise message) :
    (r.call call).1 = (s.call call).1 ∧ (r.call call).2.origin = (s.call call).2.origin := by
  cases call with
  | fetch f =>
    have here := fetch_simulates coherent f
    have there := fetch_simulates coherent' f
    rw [← same] at there
    refine ⟨congrArg Answer.fetched ?_, ?_⟩
    · rw [here.result_eq, there.result_eq]
    · exact here.origin_eq.trans there.origin_eq.symm
  | pushBack t =>
    refine ⟨rfl, ?_⟩
    change (r.pushBack t).origin = (s.pushBack t).origin
    rw [origin_pushBack, origin_pushBack, same]
  | position =>
    have position : r.position = s.position := congrArg Cursor.pos same
    exact ⟨congrArg Answer.offset position, same⟩
  | input =>
    have input : r.origin.slice? 0 r.origin.source.size = s.origin.slice? 0 s.origin.source.size := by
      rw [same]
    exact ⟨congrArg Answer.text input, same⟩
  | raise message => exact absurd rfl (unraised message)

theorem run_congr {r s : Reader} (coherent : r.Coherent) (coherent' : s.Coherent)
    (same : r.origin = s.origin) (calls : List Call) (unraised : ∀ message, .raise message ∉ calls) :
    (r.run calls).1 = (s.run calls).1 := by
  induction calls generalizing r s with
  | nil => rfl
  | cons call calls inductionHypothesis =>
    have proper : ∀ message, call ≠ .raise message := by
      rintro message rfl
      exact unraised message List.mem_cons_self
    obtain ⟨answer, origins⟩ := call_congr coherent coherent' same call proper
    have answers := inductionHypothesis (call_coherent coherent call)
      (call_coherent coherent' call) origins
      fun message member => unraised message (List.mem_cons_of_mem _ member)
    simp only [run, answer, answers]

/-- Peeking is transparent: every later session gets the same answers as without it. -/
theorem peek_transparent {r : Reader} (uncached : r.lookahead = none) (calls : List Call)
    (unraised : ∀ message, .raise message ∉ calls) :
    (r.peek.2.run calls).1 = (r.run calls).1 := by
  have coherent : r.Coherent := coherent_of_lookahead_none uncached
  have looked := peek_simulates coherent
  exact run_congr looked.coherent coherent looked.origin_eq calls unraised

theorem peek_transparent_pattern :
    (ofText " $p*q 'x").lookahead = none ∧
      ((ofText " $p*q 'x").peek.2.run
          [.fetch .glob, .position, .fetch .next, .fetch .restOfLine, .input]).1 =
        ((ofText " $p*q 'x").run
          [.fetch .glob, .position, .fetch .next, .fetch .restOfLine, .input]).1 :=
  ⟨rfl, peek_transparent rfl _ (by simp)⟩

end Reader

end CurveScript
