import CurveScript.Proofs.Alignment
import CurveScript.Proofs.Outcome
import CurveScript.Proofs.Progress

/-! # The end is final

A reader that has come to the end stays there. The end is where nothing but white space is left
before the end of the fragment or a comment (`Source.EndsAt`), and the token that marks it is found
there in every mode, without a move (`Cursor.Ended`).

From then on the answer to every call is known in advance, `Call.atEnd`, as long as no token is
given back and the rest of the line is not asked for. This is shown for one fetch at a plain cursor
(`Cursor.Ended.fetch`), then for one call (`Reader.AtEnd.call`), then for all calls
(`Reader.AtEnd.run`). -/

namespace CurveScript

/-- From `p` on there is white space, and then the end or a comment. -/
def Source.EndsAt (source : Source) (p : Nat) : Prop :=
  ∃ gap rest, source.bytes.drop p = gap ++ rest ∧ (∀ b ∈ gap, b.isSpace = true) ∧
    (rest = [] ∨ rest.head? = some Byte.hash)

namespace Cursor

variable {c : Cursor} {mode : Mode}

/-! ## Where the end is -/

theorem endsAt_iff (mode : Mode) :
    c.source.EndsAt c.pos ↔ (c.scan mode).1.tag.isTerminator = true := by
  have terminator : (c.scan mode).1.tag.isTerminator = true ↔
      c.skipSpace.rest = [] ∨ ∃ rest, c.skipSpace.rest = Byte.hash :: rest := Munch.isTerminator_iff
  rw [terminator]
  have behind := rest_skipWhile Byte.isSpace c
  constructor
  · rintro ⟨gap, rest, ahead, spaces, finish⟩
    have stops : Byte.run Byte.isSpace rest = 0 := by
      cases finish with
      | inl ended => rw [ended, Byte.run_nil]
      | inr comment =>
        obtain ⟨tail, rfl⟩ := List.head?_eq_some_iff.mp comment
        exact Byte.run_of_head rfl tail
    have skipped : c.skipSpace.rest = rest := by
      change c.rest = gap ++ rest at ahead
      rw [skipSpace, behind, ahead, Byte.run_append spaces, stops, Nat.add_zero, List.drop_left]
    rw [skipped]
    exact finish.imp_right List.head?_eq_some_iff.mp
  · intro finish
    refine ⟨c.rest.take (Byte.run Byte.isSpace c.rest), c.skipSpace.rest, ?_,
      Byte.all_take_run Byte.isSpace c.rest, ?_⟩
    · rw [skipSpace, behind, List.take_append_drop]
      rfl
    · exact finish.imp_right List.head?_eq_some_iff.mpr

/-- Where a text ends it may be cut, and so it may where a comment starts. -/
theorem aligned_of_endsAt (fits : c.source.Fits) (inside : c.pos ≤ c.source.size)
    (ends : c.source.EndsAt c.pos) : c.source.Aligned c.skipSpace.pos := by
  have start := skipSpace_inside inside
  cases Munch.isTerminator_iff.mp ((endsAt_iff .normal).mp ends) with
  | inl ended =>
    have length := c.skipSpace.rest_length
    rw [ended] at length
    have finish : c.skipSpace.pos = c.source.size :=
      Nat.le_antisymm start (Nat.sub_eq_zero_iff_le.mp length.symm)
    rw [finish]
    exact Source.aligned_size fits
  | inr comment =>
    obtain ⟨rest, comment⟩ := comment
    have found : c.source.bytes[c.skipSpace.pos]? = some Byte.hash := by
      rw [← List.head?_drop]
      exact congrArg List.head? comment
    exact Source.aligned_of_ascii found rfl

/-! ## Reading at the end -/

/-- The token `n` that marks the end is all that is read at `c`, and reading does not move. -/
structure Ended (c : Cursor) (n : Token) : Prop where
  token_eq : n = .nop c.pos
  read_eq : ∀ mode, c.read mode = (.ok n, c)

theorem terminator_of_read {t : Token} {c' : Cursor} (fetched : c.read mode = (.ok t, c')) :
    t.kind = .nop ↔ (c.scan mode).1.tag.isTerminator = true := by
  obtain ⟨text, _, decoded, _⟩ := read_eq_ok_iff.mp fetched
  cases Token.ofLexeme_ok decoded with
  | inl word =>
    obtain ⟨k, payload, tagged, _, rfl⟩ := word
    simp [tagged, Tag.isTerminator]
  | inr ended =>
    obtain ⟨terminator, rfl⟩ := ended
    simp [Token.nop, terminator]

theorem ended_of_read {n : Token} {c' : Cursor} (fetched : c.read mode = (.ok n, c'))
    (ended : n.kind = .nop) : c'.Ended n := by
  have terminator := (terminator_of_read fetched).mp ended
  have follows := (read_ok fetched).follows
  have inside : c.pos ≤ c.source.size :=
    Nat.le_trans follows.le_start (Nat.le_trans follows.start_le_stop follows.stop_le_size)
  obtain ⟨text, cut, decoded, rfl⟩ := read_eq_ok_iff.mp fetched
  have left := scan_left_of_terminator terminator inside
  constructor
  · rw [left]
    cases Token.ofLexeme_ok decoded with
    | inl word =>
      obtain ⟨k, payload, tagged, _, _⟩ := word
      simp [tagged, Tag.isTerminator] at terminator
    | inr marked => exact marked.2
  · intro mode'
    have again := scan_of_terminator terminator inside mode'
    apply read_eq_ok_iff.mpr
    rw [again]
    exact ⟨text, cut, decoded, rfl⟩

theorem read_of_endsAt (mode : Mode) (ends : c.source.EndsAt c.pos)
    (aligned : c.source.Aligned c.skipSpace.pos) :
    ∃ n c', c.read mode = (.ok n, c') ∧ n.kind = .nop := by
  have terminator := (endsAt_iff mode).mp ends
  have still : (c.scan mode).1.stop = (c.scan mode).1.start := by
    have empty : (c.scan mode).1.length = 0 := Munch.length_of_isTerminator terminator
    rw [Lexeme.stop, empty, Nat.add_zero]
  obtain ⟨text, cut⟩ := Source.slice?_of_aligned aligned aligned (Nat.le_refl _)
  have decoded : Token.ofLexeme c.source.text (c.scan mode).1 text =
      .ok (.nop (c.scan mode).1.start) := by
    cases Tag.isTerminator_iff.mp terminator with
    | inl tagged => simp [Token.ofLexeme, tagged]
    | inr tagged => simp [Token.ofLexeme, tagged]
  refine ⟨_, _, read_eq_ok_iff.mpr ⟨text, ?_, decoded, rfl⟩, rfl⟩
  rw [still]
  exact cut

end Cursor

/-! ## What is answered at the end -/

/-- The answer to a fetch at the end: the token that marks it, unless something else is expected.
    Then nothing is found, at the end itself. -/
def Fetch.atEnd (text : String) (n : Token) : Fetch → Except Failure Token
  | .expect e =>
    if e.accepts n then .ok n
    else .error (.diagnostic (.locate (.mismatch e.describe none) text n.span.start))
  | _ => .ok n

/-- The answer to a call at the end. -/
def Call.atEnd (source : Source) (n : Token) : Call → Answer
  | .fetch f => .fetched (f.atEnd source.text n)
  | .pushBack _ => .done
  | .position => .offset n.span.start
  | .input => .text (source.slice? 0 source.size)
  | .raise message => .diagnostic (.locate (.raised message) source.text n.span.start)

theorem Cursor.Ended.fetch {c : Cursor} {n : Token} (ended : c.Ended n) {f : Fetch}
    (scanning : f ≠ .restOfLine) : c.fetch f = (f.atEnd c.source.text n, c) := by
  have read := ended.read_eq
  have marked : n.isNop = true := by rw [ended.token_eq]; rfl
  have place : n.span.start = c.pos := by rw [ended.token_eq]; rfl
  cases f with
  | next | glob => simp [Cursor.fetch, Fetch.atEnd, read]
  | peek => simp [Cursor.fetch, Fetch.atEnd, read]
  | word | restOfCommand => simp [Cursor.fetch, Fetch.atEnd, extend, read, marked]
  | restOfLine => exact absurd rfl scanning
  | expect e =>
    cases accepted : e.accepts n <;>
      simp [Cursor.fetch, Fetch.atEnd, expect, read, accepted, Expectation.mismatch, marked, place]
  | takeIf k =>
    -- The token made up where the kind is not met is the one that marks the end.
    simp [Cursor.fetch, Fetch.atEnd, takeIf, read, ← ended.token_eq]

namespace Reader

/-- The reader has come to the end that `n` marks. -/
structure AtEnd (source : Source) (n : Token) (r : Reader) : Prop where
  source_eq : r.cursor.source = source
  coherent : r.Coherent
  ended : r.origin.Ended n

variable {source : Source} {n : Token} {r : Reader}

namespace AtEnd

/-- Reading ahead at the end does not move the cursor. -/
theorem cursor_eq (atEnd : AtEnd source n r) : r.cursor = r.origin := by
  cases kept : r.lookahead with
  | none => exact (origin_of_lookahead_none kept).symm
  | some ahead =>
    have read := atEnd.coherent ahead kept
    rw [atEnd.ended.read_eq] at read
    exact (congrArg Prod.snd read).symm

theorem position_eq (atEnd : AtEnd source n r) : r.position = n.span.start := by
  rw [atEnd.ended.token_eq]
  rfl

theorem fetch (atEnd : AtEnd source n r) {f : Fetch} (scanning : f ≠ .restOfLine) :
    (r.fetch f).1 = f.atEnd source.text n ∧ AtEnd source n (r.fetch f).2 := by
  obtain ⟨rfl, coherent, ended⟩ := atEnd
  have plain := fetch_simulates coherent f
  rw [ended.fetch scanning] at plain
  have still : (r.fetch f).2.origin = r.origin := plain.origin_eq
  have source : (r.fetch f).2.origin.source = r.origin.source := congrArg Cursor.source still
  refine ⟨plain.result_eq, source, plain.coherent, ?_⟩
  rw [still]
  exact ended

theorem call (atEnd : AtEnd source n r) {call : Call} (kept : ∀ t, call ≠ .pushBack t)
    (scanning : call ≠ .fetch .restOfLine) :
    (r.call call).1 = call.atEnd source n ∧ AtEnd source n (r.call call).2 := by
  cases call with
  | fetch f =>
    obtain ⟨result, after⟩ := atEnd.fetch fun same => scanning (congrArg Call.fetch same)
    exact ⟨congrArg Answer.fetched result, after⟩
  | pushBack t => exact absurd rfl (kept t)
  | position => exact ⟨congrArg Answer.offset atEnd.position_eq, atEnd⟩
  | input =>
    refine ⟨?_, atEnd⟩
    simp [Reader.call, Call.atEnd, input?, Cursor.slice?, atEnd.source_eq]
  | raise message =>
    refine ⟨?_, atEnd⟩
    have place : r.cursor.pos = n.span.start := by
      rw [atEnd.cursor_eq]
      exact atEnd.position_eq
    simp [Reader.call, Call.atEnd, raise, atEnd.source_eq, place]

theorem run (atEnd : AtEnd source n r) {calls : List Call} (kept : ∀ t, .pushBack t ∉ calls)
    (scanning : .fetch .restOfLine ∉ calls) :
    (r.run calls).1 = calls.map (·.atEnd source n) ∧ AtEnd source n (r.run calls).2 := by
  induction calls generalizing r with
  | nil => exact ⟨rfl, atEnd⟩
  | cons call calls inductionHypothesis =>
    simp only [List.mem_cons, not_or] at kept scanning
    obtain ⟨answer, after⟩ := atEnd.call (fun t same => (kept t).1 same.symm)
      fun same => scanning.1 same.symm
    obtain ⟨answers, last⟩ := inductionHypothesis after (fun t => (kept t).2) scanning.2
    exact ⟨by simp [Reader.run, answer, answers], last⟩

end AtEnd

/-- A fetch that takes tokens and answers with the one that marks the end has come to the end. -/
theorem Fetched.atEnd {f : Fetch} {answer : Except Failure Token × Reader}
    (fetched : Fetched r f answer) (listed : f ∈ [Fetch.next, .glob, .word, .restOfCommand])
    (ok : answer.1 = .ok n) (marked : n.kind = .nop) : AtEnd r.cursor.source n answer.2 := by
  cases fetched with
  | refused _ | uncut _ => cases ok
  | peeked _ | mismatched _ _ | absent _ _ => simp at listed
  | taken takes =>
    cases ok
    have source := takes.source_eq
    cases takes with
    | passed _ read =>
      exact ⟨source, coherent_of_lookahead_none rfl, Cursor.ended_of_read read marked⟩
    | cut stretch _ => cases stretch <;> cases marked

theorem next_nop_iff (intact : Intact source r)
    (aligned : source.EndsAt r.position → source.Aligned r.origin.skipSpace.pos) :
    (∃ n, (r.fetch .next).1 = .ok n ∧ n.kind = .nop) ↔ source.EndsAt r.position := by
  obtain ⟨rfl, coherent, _⟩ := intact
  have answered : (r.fetch .next).1 = (r.origin.read .normal).1 :=
    (fetch_simulates coherent .next).result_eq
  rw [answered]
  constructor
  · rintro ⟨n, ok, marked⟩
    have fetched : r.origin.read .normal = (.ok n, (r.origin.read .normal).2) := Prod.ext ok rfl
    exact (Cursor.endsAt_iff .normal).mpr ((Cursor.terminator_of_read fetched).mp marked)
  · intro ends
    obtain ⟨n, c, fetched, marked⟩ := Cursor.read_of_endsAt (c := r.origin) .normal ends (aligned ends)
    exact ⟨n, congrArg Prod.fst fetched, marked⟩

/-- The end is found exactly where it is, after any calls; only where a fragment is cut off must the
    tokens that were given back be the reader's own. And the end is final: once the token that marks
    it has been taken, all later answers are those of the end and the position stays, also if what
    ends the text is a comment with more text in it. -/
theorem run_end_final {text : String} {calls : List Call} {r : Reader}
    (reached : ((ofText text).run calls).2 = r) :
    ((Source.ofText text).Fits ∨ (∃ seen, Reachable text seen r) →
      ((∃ n, (r.fetch .next).1 = .ok n ∧ n.kind = .nop) ↔
        (Source.ofText text).EndsAt r.position)) ∧
    ∀ f ∈ [Fetch.next, .glob, .word, .restOfCommand], ∀ n, (r.fetch f).1 = .ok n → n.kind = .nop →
      ∀ later : List Call, (∀ t, .pushBack t ∉ later) → .fetch .restOfLine ∉ later →
        ((r.fetch f).2.run later).1 = later.map (·.atEnd (Source.ofText text) n) ∧
        ((r.fetch f).2.run later).2.position = n.span.start := by
  have intact : Intact (Source.ofText text) r := by
    rw [← reached]
    exact (intact_ofText text).run calls
  constructor
  · intro sound
    apply next_nop_iff intact
    intro ends
    have source : r.origin.source = Source.ofText text := intact.source_eq
    rw [← source] at sound ends ⊢
    cases sound with
    | inl fits =>
      have inside : r.origin.pos ≤ r.origin.source.size := source ▸ intact.position_inside
      exact Cursor.aligned_of_endsAt fits inside ends
    | inr own =>
      obtain ⟨seen, reachable⟩ := own
      have position := reachable.settled.1.position
      rw [← source] at position
      exact Cursor.aligned_skipSpace position
  · intro f listed n ok marked later kept scanning
    have atEnd := (fetch_fetched intact.coherent f).atEnd listed ok marked
    rw [intact.source_eq] at atEnd
    obtain ⟨answers, last⟩ := atEnd.run kept scanning
    exact ⟨answers, last.position_eq⟩

theorem run_end_final_comment :
    ∃ r, ((ofText "a # b").run [.fetch .next]).2 = r ∧ (Source.ofText "a # b").Fits ∧
      (Source.ofText "a # b").EndsAt r.position ∧
      (∃ n, (r.fetch .next).1 = .ok n ∧ n.kind = .nop) ∧ (r.fetch .word).1 = .ok (.nop 2) ∧
      ((r.fetch .word).2.run [.fetch .glob, .fetch (.expect (.kind .word)), .position,
          .fetch (.takeIf .word)]).1 =
        [.fetched (.ok (.nop 2)),
          .fetched (.error (.diagnostic (.locate (.mismatch "word" none) "a # b" 2))),
          .offset 2, .fetched (.ok (.nop 2))] ∧
      ((r.fetch .word).2.run [.fetch .glob, .fetch (.expect (.kind .word)), .position,
          .fetch (.takeIf .word)]).2.position = 2 := by
  have reached : ((ofText "a # b").run [.fetch .next]).2 = ((ofText "a # b").run [.fetch .next]).2 :=
    rfl
  have fits : (Source.ofText "a # b").Fits := by
    unfold Source.Fits
    decide +kernel
  have ends : (Source.ofText "a # b").EndsAt ((ofText "a # b").run [.fetch .next]).2.position :=
    ⟨[0x20], [Byte.hash, 0x20, 0x62], by decide +kernel, by decide +kernel, .inr rfl⟩
  have ended : (((ofText "a # b").run [.fetch .next]).2.fetch .word).1 = .ok (.nop 2) := by
    decide +kernel
  obtain ⟨found, final⟩ := run_end_final reached
  have later := final .word (by simp) _ ended rfl
    [.fetch .glob, .fetch (.expect (.kind .word)), .position, .fetch (.takeIf .word)]
    (by simp) (by simp)
  exact ⟨_, reached, fits, ends, (found (.inl fits)).mpr ends, ended, later.1, later.2⟩

end Reader

end CurveScript
