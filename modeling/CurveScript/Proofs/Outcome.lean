import CurveScript.Proofs.Tiling

/-! # What a fetch leaves behind

`Cursor.Fetched` says what a fetch answers; here it is said which reader is left as well.
There are three sorts of outcome. A fetch that takes a token leaves a cursor behind it and
nothing read ahead. A fetch that only looks at a token leaves what peeking leaves. A fetch
that fails before it has seen a token leaves the reader as it was.

`Reader.fetch_fetched` lists them with their guards. From it follow the invariants of every
reader that can come up, whatever tokens are given back (`Reader.Intact`), and that the token
read ahead is always what reading again would give (`Reader.run_lookahead_reread`). -/

namespace CurveScript

namespace Cursor

/-- A fetch at `c` takes the token `t` and moves to `c'`. -/
inductive Takes (c : Cursor) : Fetch → Token → Cursor → Prop where
  | passed {f : Fetch} {t : Token} {behind : Cursor} : f.passes t = true →
      c.read f.mode = (.ok t, behind) → Takes c f t behind
  | cut {f : Fetch} {kind : Kind} {finish : Cursor} {text : String} : Stretch c f kind finish →
      finish.sliceFrom? c.skipSpace.pos = some text →
      Takes c f ⟨kind, text, ⟨c.skipSpace.pos, finish.pos⟩, .absent⟩ finish

namespace Takes

variable {c c' : Cursor} {f : Fetch} {t : Token}

theorem source_eq (takes : Takes c f t c') : c'.source = c.source := by
  cases takes with
  | passed _ fetched => exact (read_ok fetched).source_eq
  | cut stretch _ => exact stretch.source_eq

/-- What is taken starts at the first byte that is not white space. -/
theorem start_eq (takes : Takes c f t c') : t.span.start = c.skipSpace.pos := by
  cases takes with
  | passed _ fetched => exact (read_ok fetched).start_eq
  | cut _ _ => rfl

theorem ordered (takes : Takes c f t c') : t.span.start ≤ c'.pos ∧ c'.pos ≤ c.source.size := by
  cases takes with
  | passed _ fetched =>
    have reads := read_ok fetched
    rw [← reads.stop_eq]
    exact ⟨reads.start_le_stop, reads.stop_le_size⟩
  | cut stretch cut =>
    rw [sliceFrom?, slice?, stretch.source_eq] at cut
    obtain ⟨inside, cut⟩ := Source.slice?_eq_some_iff.mp cut
    exact ⟨Text.le_of_slice? cut, inside⟩

end Takes

end Cursor

/-! ## All that a fetch of a reader can do -/

namespace Reader

/-- All that a fetch of `r` can do, with the reader it leaves. -/
inductive Fetched (r : Reader) : Fetch → Except Failure Token × Reader → Prop where
  | refused {f : Fetch} {failure : Failure} :
      r.origin.read f.mode = (.error failure, r.origin) → Fetched r f (.error failure, r)
  | uncut {f : Fetch} {kind : Kind} {finish : Cursor} : Cursor.Stretch r.origin f kind finish →
      Fetched r f (.error .misaligned, r)
  | peeked {t : Token} {behind : Cursor} : r.origin.read .normal = (.ok t, behind) →
      Fetched r .peek (.ok t, ⟨behind, some ⟨t, r.position⟩⟩)
  | mismatched {e : Expectation} {t : Token} {behind : Cursor} :
      r.origin.read .normal = (.ok t, behind) → e.accepts t = false →
      Fetched r (.expect e)
        (.error (.diagnostic (.locate (e.mismatch t) r.cursor.source.text behind.pos)),
          ⟨behind, some ⟨t, r.position⟩⟩)
  | absent {k : Kind} {t : Token} {behind : Cursor} :
      r.origin.read .normal = (.ok t, behind) → (t.kind == k) = false →
      Fetched r (.takeIf k) (.ok (.nop r.position), ⟨behind, some ⟨t, r.position⟩⟩)
  | taken {f : Fetch} {t : Token} {c : Cursor} : Cursor.Takes r.origin f t c →
      Fetched r f (.ok t, ⟨c, none⟩)

variable {r : Reader}

theorem peek_of_read (coherent : r.Coherent) {t : Token} {behind : Cursor}
    (fetched : r.origin.read .normal = (.ok t, behind)) :
    r.peek = (.ok t, ⟨behind, some ⟨t, r.position⟩⟩) := by
  rcases ahead_cases coherent with ⟨u, c, fetched', _, answered⟩ | ⟨failure, refused, _, _⟩
  · rw [fetched] at fetched'
    cases fetched'
    exact answered
  · rw [fetched] at refused
    cases refused

/-- Where the reader does not look first, the outcomes are those of the plain cursor. -/
theorem lift_fetched {f : Fetch} {answer : Except Failure Token × Cursor}
    (fetched : Cursor.Fetched r.origin f answer) (takes : f.looks = false) :
    Fetched r f (r.lift answer) := by
  cases fetched with
  | refused _ refused => exact .refused refused
  | uncut stretch _ => exact .uncut stretch
  | passed passes read => exact .taken (.passed passes read)
  | cut stretch cut => exact .taken (.cut stretch cut)
  | peeked _ | mismatched _ _ | absent _ _ => cases takes

theorem fetch_fetched (coherent : r.Coherent) (f : Fetch) : Fetched r f (r.fetch f) := by
  have seen := ahead_cases coherent
  cases f with
  | next | glob | word | restOfCommand | restOfLine =>
    rw [fetch_lift coherent rfl]
    exact lift_fetched (r.origin.fetch_fetched _) rfl
  | peek =>
    rcases seen with ⟨t, c, fetched, _, answered⟩ | ⟨failure, refused, _, answered⟩
    · rw [fetch, answered]
      exact .peeked fetched
    · rw [fetch, answered]
      exact .refused refused
  | expect e =>
    rw [fetch, expect]
    rcases seen with ⟨t, c, fetched, _, answered⟩ | ⟨failure, refused, _, answered⟩
    · rw [answered]
      dsimp only
      cases accepted : e.accepts t with
      | true => exact .taken (.passed accepted fetched)
      | false =>
        have source : c.source = r.cursor.source := (Cursor.read_ok fetched).source_eq
        rw [source]
        exact .mismatched fetched accepted
    · rw [answered]
      exact .refused refused
  | takeIf k =>
    rw [fetch, takeIf]
    rcases seen with ⟨t, c, fetched, _, answered⟩ | ⟨failure, refused, _, answered⟩
    · rw [answered]
      dsimp only
      cases same : t.kind == k with
      | true => exact .taken (.passed same fetched)
      | false => exact .absent fetched same
    · rw [answered]
      exact .refused refused

/-! ## Every reader of a session -/

/-- What holds of every reader on `source`, also where tokens from elsewhere are given back:
    it keeps its source, reads ahead coherently and never passes the end. -/
structure Intact (source : Source) (r : Reader) : Prop where
  source_eq : r.cursor.source = source
  coherent : r.Coherent
  inside : r.cursor.pos ≤ source.size

variable {source : Source}

theorem intact_ofText (text : String) : Intact (Source.ofText text) (ofText text) :=
  ⟨rfl, coherent_of_lookahead_none rfl, Nat.zero_le _⟩

theorem Fetched.inside {f : Fetch} {answer : Except Failure Token × Reader}
    (fetched : Fetched r f answer) (inside : r.cursor.pos ≤ r.cursor.source.size) :
    answer.2.cursor.source = r.cursor.source ∧ answer.2.cursor.pos ≤ r.cursor.source.size := by
  have behind : ∀ {t : Token} {c : Cursor}, r.origin.read .normal = (.ok t, c) →
      c.source = r.cursor.source ∧ c.pos ≤ r.cursor.source.size := by
    intro t c fetched
    have reads := Cursor.read_ok fetched
    exact ⟨reads.source_eq, reads.stop_eq ▸ reads.stop_le_size⟩
  cases fetched with
  | refused _ | uncut _ => exact ⟨rfl, inside⟩
  | peeked fetched | mismatched fetched _ | absent fetched _ => exact behind fetched
  | taken takes => exact ⟨takes.source_eq, takes.ordered.2⟩

namespace Intact

theorem call (intact : Intact source r) (call : Call) : Intact source (r.call call).2 := by
  have coherent := call_coherent intact.coherent call
  obtain ⟨rfl, before, inside⟩ := intact
  cases call with
  | fetch f =>
    obtain ⟨same, within⟩ := (fetch_fetched before f).inside inside
    exact ⟨same, coherent, within⟩
  | pushBack t => exact ⟨rfl, coherent, Nat.min_le_right _ _⟩
  | position | input | raise message => exact ⟨rfl, coherent, inside⟩

theorem run (intact : Intact source r) (calls : List Call) : Intact source (r.run calls).2 := by
  induction calls generalizing r with
  | nil => exact intact
  | cons call calls inductionHypothesis => exact inductionHypothesis (intact.call call)

theorem position_inside (intact : Intact source r) : r.position ≤ source.size := by
  obtain ⟨rfl, coherent, inside⟩ := intact
  cases kept : r.lookahead with
  | none => simpa [position, kept] using inside
  | some ahead =>
    have follows := (Cursor.read_ok (coherent ahead kept)).follows
    exact Nat.le_trans follows.le_start (Nat.le_trans follows.start_le_stop follows.stop_le_size)

/-- Any cursor on the source is put to the origin of a reader by moving it to its position. -/
theorem moveTo_position (intact : Intact source r) {c : Cursor} (same : c.source = source) :
    c.moveTo r.position = r.origin := by
  have within := intact.position_inside
  obtain ⟨rfl, _, _⟩ := intact
  rw [Cursor.moveTo, same, Nat.min_eq_left within, origin]

end Intact

/-- The token read ahead is what reading would give: it stands behind nothing but white
    space, the cursor stands behind it, and reading again, from where it was read or from its
    own first byte, gives it and leaves the same cursor. -/
theorem run_lookahead_reread {text : String} {calls : List Call} {r : Reader} {ahead : Lookahead}
    (reached : ((ofText text).run calls).2 = r) (kept : r.lookahead = some ahead) :
    ahead.resume ≤ ahead.token.span.start ∧
      (∀ b ∈ (fragment text).extract ahead.resume ahead.token.span.start, b.isSpace = true) ∧
      r.cursor.pos = ahead.token.span.stop ∧
      (r.cursor.moveTo ahead.resume).read .normal = (.ok ahead.token, r.cursor) ∧
      (r.cursor.moveTo ahead.token.span.start).read .normal = (.ok ahead.token, r.cursor) := by
  have intact : Intact (Source.ofText text) r := by
    rw [← reached]
    exact (intact_ofText text).run calls
  have position : r.position = ahead.resume := by simp [Reader.position, kept]
  have again := intact.coherent ahead kept
  have reads := Cursor.read_ok again
  have follows := reads.follows
  have source : r.origin.source = Source.ofText text := intact.source_eq
  have start : r.origin.pos = ahead.resume := position
  rw [source, start] at follows
  have resumed := intact.moveTo_position intact.source_eq
  rw [position] at resumed
  have unread : r.cursor.moveTo ahead.token.span.start = r.origin.skipSpace := by
    rw [← unread_eq intact.coherent kept, Reader.unread, kept]
  refine ⟨follows.le_start, follows.gap, reads.stop_eq.symm, ?_, ?_⟩
  · rw [resumed]
    exact again
  · rw [unread]
    exact (r.origin.read_skipSpace .normal).2 _ _ again

theorem run_lookahead_reread_selector :
    ∃ r ahead, ((ofText "a  @12 µ").run [.fetch .next, .pushBack ⟨.expr, "", ⟨1, 20⟩, .absent⟩,
        .fetch (.takeIf .nop), .fetch .peek]).2 = r ∧ r.lookahead = some ahead ∧
      ahead.resume ≤ ahead.token.span.start ∧
      (∀ b ∈ (fragment "a  @12 µ").extract ahead.resume ahead.token.span.start,
        b.isSpace = true) ∧
      r.cursor.pos = ahead.token.span.stop ∧
      (r.cursor.moveTo ahead.resume).read .normal = (.ok ahead.token, r.cursor) ∧
      (r.cursor.moveTo ahead.token.span.start).read .normal = (.ok ahead.token, r.cursor) := by
  have kept : ((ofText "a  @12 µ").run [.fetch .next, .pushBack ⟨.expr, "", ⟨1, 20⟩, .absent⟩,
      .fetch (.takeIf .nop), .fetch .peek]).2.lookahead =
        some ⟨⟨.dataset, "@12", ⟨3, 6⟩, .dataset (.index 12)⟩, 1⟩ := by
    decide +kernel
  exact ⟨_, _, rfl, kept, run_lookahead_reread rfl kept⟩

end Reader

theorem Reachable.intact {text : String} {seen : List Token} {r : Reader}
    (reachable : Reachable text seen r) : r.Intact (Source.ofText text) := by
  induction reachable with
  | start => exact Reader.intact_ofText text
  | call call _ _ inductionHypothesis => exact inductionHypothesis.call call

end CurveScript
