import CurveScript.Proofs.Outcome

/-! # Tokens given back are fetched again

A parser that has fetched a token and gives it back, however much later, gets the same token
from the same fetch and is left with the same reader: `Reachable.pushBack_replays`. Giving a
token back puts the cursor on its first byte, so that two things have to be shown. A fetch
from there does what it did from before the white space (`Cursor.Takes.skipSpace`), and what
it does depends on the cursor only, not on what was read ahead at the time
(`Reader.fetch_of_takes`). -/

namespace CurveScript

namespace Cursor

variable {c c' : Cursor} {f : Fetch} {t : Token}

theorem Stretch.skipSpace {kind : Kind} (stretch : Stretch c f kind c') :
    Stretch c.skipSpace f kind c' := by
  cases stretch with
  | word fetched unpassed => exact .word ((c.read_skipSpace .normal).2 _ _ fetched) unpassed
  | restOfCommand fetched unpassed =>
    exact .restOfCommand ((c.read_skipSpace .normal).2 _ _ fetched) unpassed
  | restOfLine => exact .restOfLine

/-- The white space before a token makes no difference to what is taken. -/
theorem Takes.skipSpace (takes : Takes c f t c') : Takes c.skipSpace f t c' := by
  cases takes with
  | passed passes fetched => exact .passed passes ((c.read_skipSpace f.mode).2 _ _ fetched)
  | cut stretch cut =>
    have again := Takes.cut stretch.skipSpace (by rw [skipSpace_skipSpace]; exact cut)
    rw [skipSpace_skipSpace] at again
    exact again

end Cursor

namespace Reader

variable {r s : Reader} {f : Fetch} {t : Token} {c d : Cursor}

theorem fetch_of_takes (takes : d.Takes f t c) : fetch f ⟨d, none⟩ = (.ok t, ⟨c, none⟩) := by
  cases takes with
  | passed passes fetched =>
    cases f with
    | next => simp [fetch, next, show d.read .normal = _ from fetched]
    | peek | restOfLine => cases passes
    | glob => simp [fetch, nextGlob, unread, show d.read .glob = _ from fetched]
    | word | restOfCommand =>
      have here : d.read .normal = _ := fetched
      have unextended : (t.kind == .quoted || t.isNop) = true := passes
      simp only [fetch, word, restOfCommand, extend, next, here, unextended, if_true]
    | expect e =>
      have here : d.read .normal = _ := fetched
      have accepted : e.accepts t = true := passes
      simp only [fetch, expect, peek, next, here, accepted, if_true]
    | takeIf k =>
      have here : d.read .normal = _ := fetched
      have same : (t.kind == k) = true := passes
      simp only [fetch, takeIf, peek, next, here, same, if_true]
  | cut stretch cut =>
    cases stretch with
    | word fetched unpassed | restOfCommand fetched unpassed =>
      rename_i u behind
      have extended : (u.kind == .quoted || u.isNop) = false := unpassed
      rw [← (Cursor.read_ok fetched).start_eq] at cut ⊢
      simp [fetch, word, restOfCommand, extend, next, fetched, extended, cut]
    | restOfLine => simp only [fetch, restOfLine, cut]

/-- With the cursor on the first byte of a token, or on the white space before it, the fetch
    that took the token takes it again. -/
theorem Fetched.replays {result : Except Failure Token × Reader} (fetched : Fetched r f result)
    (ok : result.1 = .ok t) (taking : f ≠ .peek) (intact : Intact s.cursor.source r) :
    (s.pushBack t).fetch f = result := by
  cases fetched with
  | refused _ | uncut _ | mismatched _ _ => cases ok
  | peeked _ => exact absurd rfl taking
  | absent read differs =>
    cases ok
    -- The token that was made up stands at the position, and the same token follows it.
    have here : s.cursor.moveTo r.position = r.origin := intact.moveTo_position rfl
    have back : s.pushBack (.nop r.position) = ⟨r.origin, none⟩ := by
      rw [← here]
      rfl
    rw [back]
    simp only [fetch, takeIf, peek, read, differs, Bool.false_eq_true, if_false]
    rfl
  | taken takes =>
    cases ok
    have start : s.cursor.moveTo t.span.start = r.origin.skipSpace := by
      have inside := Nat.le_trans takes.ordered.1 takes.ordered.2
      have same : r.origin.source = s.cursor.source := intact.source_eq
      rw [Cursor.moveTo, ← same, Nat.min_eq_left inside, takes.start_eq]
      rfl
    have back : s.pushBack t = ⟨r.origin.skipSpace, none⟩ := by
      rw [← start]
      rfl
    rw [back]
    exact fetch_of_takes takes.skipSpace

theorem Fetched.lookahead_none {result : Except Failure Token × Reader} (fetched : Fetched r f result)
    (ok : result.1 = .ok t) (taking : f ≠ .peek) (coherent : r.Coherent)
    (matching : ∀ k, f = .takeIf k → ∃ u, r.peek.1 = .ok u ∧ u.kind = k) :
    result.2.lookahead = none := by
  cases fetched with
  | refused _ | uncut _ | mismatched _ _ => cases ok
  | peeked _ => exact absurd rfl taking
  | absent read differs =>
    obtain ⟨u, peeked, same⟩ := matching _ rfl
    rw [peek_of_read coherent read] at peeked
    cases peeked
    simp [same] at differs
  | taken _ => rfl

end Reader

/-- Giving a token back replays the fetch it came from, whatever happened in between: the
    same fetch gives the same token and leaves the same reader, so that every later session
    goes as it went the first time. Unless a token was made up because the next one is of
    another kind, nothing is read ahead then. -/
theorem Reachable.pushBack_replays {text : String} {seen : List Token} {r : Reader} {f : Fetch}
    {t : Token} (reachable : Reachable text seen r) (ok : (r.fetch f).1 = .ok t)
    (taking : f ≠ .peek) (between : List Call) :
    ((((r.fetch f).2.run between).2).pushBack t).fetch f = r.fetch f ∧
      ((∀ k, f = .takeIf k → ∃ u, r.peek.1 = .ok u ∧ u.kind = k) →
        (r.fetch f).2.lookahead = none) ∧
      ∀ later, (((((r.fetch f).2.run between).2).pushBack t).fetch f).2.run later =
        (r.fetch f).2.run later := by
  have intact := reachable.intact
  have fetched := Reader.fetch_fetched intact.coherent f
  have after := (intact.call (.fetch f)).run between
  have replayed : ((((r.fetch f).2.run between).2).pushBack t).fetch f = r.fetch f := by
    apply fetched.replays ok taking
    have source : ((r.fetch f).2.run between).2.cursor.source = Source.ofText text :=
      after.source_eq
    rw [source]
    exact intact
  refine ⟨replayed, fetched.lookahead_none ok taking intact.coherent, fun later => ?_⟩
  rw [replayed]

theorem Reachable.pushBack_replays_word :
    ∃ seen r t, Reachable "a  b€ 'c" seen r ∧ (r.fetch .word).1 = .ok t ∧ Fetch.word ≠ .peek ∧
      ((((r.fetch .word).2.run [.fetch .next, .fetch .restOfLine]).2).pushBack t).fetch .word =
        r.fetch .word ∧
      (r.fetch .word).2.lookahead = none := by
  have beginning : Reachable "a  b€ 'c" [] (.ofText "a  b€ 'c") := .start
  -- The token was read ahead, from before the white space, when it was first fetched.
  have reachable := (beginning.call (.fetch .next) trivial).call (.fetch .peek) trivial
  have ok : ((((Reader.ofText "a  b€ 'c").call (.fetch .next)).2.call (.fetch .peek)).2.fetch
      .word).1 = .ok ⟨.word, "b€", ⟨3, 7⟩, .absent⟩ := by
    rfl
  obtain ⟨replayed, uncached, _⟩ :=
    Reachable.pushBack_replays reachable ok (by decide) [.fetch .next, .fetch .restOfLine]
  exact ⟨_, _, _, reachable, ok, by decide, replayed, uncached (by simp)⟩

end CurveScript
