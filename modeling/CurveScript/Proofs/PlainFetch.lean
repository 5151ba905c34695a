import CurveScript.Proofs.Reading
import CurveScript.Fetch

/-! # Fetches without lookahead

`Cursor.fetch` is the set of fetches of a reader, at a plain cursor that keeps nothing read
ahead. `Cursor.Fetched` lists all that such a fetch can do, guards included, and
`Cursor.fetch_fetched` says that it does one of these things. Whatever is claimed of every
fetch is proved by cases of `Fetched`, without opening the fetches again. -/

namespace CurveScript

namespace Cursor

def extend (kind : Kind) (skip : Cursor → Cursor) (c : Cursor) : Except Failure Token × Cursor :=
  match c.read .normal with
  | (.error failure, _) => (.error failure, c)
  | (.ok token, behind) =>
    if token.kind == .quoted || token.isNop then (.ok token, behind)
    else
      match (skip behind).sliceFrom? token.span.start with
      | some text =>
        (.ok ⟨kind, text, ⟨token.span.start, (skip behind).pos⟩, .absent⟩, skip behind)
      | none => (.error .misaligned, c)

def restOfLine (c : Cursor) : Except Failure Token × Cursor :=
  match c.skipToEnd.sliceFrom? c.skipSpace.pos with
  | some text => (.ok ⟨.rest, text, ⟨c.skipSpace.pos, c.source.size⟩, .absent⟩, c.skipToEnd)
  | none => (.error .misaligned, c)

def expect (e : Expectation) (c : Cursor) : Except Failure Token × Cursor :=
  match c.read .normal with
  | (.error failure, _) => (.error failure, c)
  | (.ok token, behind) =>
    if e.accepts token then (.ok token, behind)
    else (.error (.diagnostic (.locate (e.mismatch token) c.source.text behind.pos)), c)

def takeIf (kind : Kind) (c : Cursor) : Except Failure Token × Cursor :=
  match c.read .normal with
  | (.error failure, _) => (.error failure, c)
  | (.ok token, behind) => if token.kind == kind then (.ok token, behind) else (.ok (.nop c.pos), c)

/-- Ask a plain cursor for a token. -/
def fetch : Fetch → Cursor → Except Failure Token × Cursor
  | .next => read .normal
  | .peek => fun c => ((c.read .normal).1, c)
  | .glob => read .glob
  | .word => extend .word skipWord
  | .restOfCommand => extend .rest skipCommand
  | .restOfLine => restOfLine
  | .expect e => expect e
  | .takeIf k => takeIf k

end Cursor

/-! ## All that a fetch can do -/

namespace Fetch

/-- The mode in which a fetch reads. -/
def mode : Fetch → Mode
  | .glob => .glob
  | _ => .normal

/-- Whether a fetch takes a token that it has read and answers with it as it is. -/
def passes : Fetch → Token → Bool
  | .next, _ | .glob, _ => true
  | .word, t | .restOfCommand, t => t.kind == .quoted || t.isNop
  | .expect e, t => e.accepts t
  | .takeIf k, t => t.kind == k
  | .peek, _ | .restOfLine, _ => false

/-- Whether a fetch looks at the next token before it takes it, so that it may leave it. -/
def looks : Fetch → Bool
  | .peek | .expect _ | .takeIf _ => true
  | .next | .glob | .word | .restOfCommand | .restOfLine => false

end Fetch

namespace Cursor

/-- A fetch that takes text as it stands: the kind of its token, and the cursor behind the
    text. The text starts at the first byte that is not white space. -/
inductive Stretch (c : Cursor) : Fetch → Kind → Cursor → Prop where
  | word {t : Token} {behind : Cursor} : c.read .normal = (.ok t, behind) →
      Fetch.word.passes t = false → Stretch c .word .word behind.skipWord
  | restOfCommand {t : Token} {behind : Cursor} : c.read .normal = (.ok t, behind) →
      Fetch.restOfCommand.passes t = false → Stretch c .restOfCommand .rest behind.skipCommand
  | restOfLine : Stretch c .restOfLine .rest c.skipToEnd

/-- All that a fetch at `c` can do. -/
inductive Fetched (c : Cursor) : Fetch → Except Failure Token × Cursor → Prop where
  | refused {f : Fetch} {failure : Failure} : f ≠ .restOfLine →
      c.read f.mode = (.error failure, c) → Fetched c f (.error failure, c)
  | peeked {t : Token} {behind : Cursor} : c.read .normal = (.ok t, behind) →
      Fetched c .peek (.ok t, c)
  | passed {f : Fetch} {t : Token} {behind : Cursor} : f.passes t = true →
      c.read f.mode = (.ok t, behind) → Fetched c f (.ok t, behind)
  | cut {f : Fetch} {kind : Kind} {finish : Cursor} {text : String} : Stretch c f kind finish →
      finish.sliceFrom? c.skipSpace.pos = some text →
      Fetched c f (.ok ⟨kind, text, ⟨c.skipSpace.pos, finish.pos⟩, .absent⟩, finish)
  | uncut {f : Fetch} {kind : Kind} {finish : Cursor} : Stretch c f kind finish →
      finish.sliceFrom? c.skipSpace.pos = none → Fetched c f (.error .misaligned, c)
  | mismatched {e : Expectation} {t : Token} {behind : Cursor} :
      c.read .normal = (.ok t, behind) → e.accepts t = false →
      Fetched c (.expect e)
        (.error (.diagnostic (.locate (e.mismatch t) c.source.text behind.pos)), c)
  | absent {k : Kind} {t : Token} {behind : Cursor} : c.read .normal = (.ok t, behind) →
      (t.kind == k) = false → Fetched c (.takeIf k) (.ok (.nop c.pos), c)

/-- Reading either gives a token or leaves the cursor alone. -/
theorem read_cases (mode : Mode) (c : Cursor) :
    (∃ t behind, c.read mode = (.ok t, behind)) ∨ ∃ failure, c.read mode = (.error failure, c) := by
  cases fetched : c.read mode with
  | mk result behind =>
    cases result with
    | ok t => exact .inl ⟨t, behind, rfl⟩
    | error failure =>
      obtain ⟨rfl, _, _⟩ := read_error fetched
      exact .inr ⟨failure, rfl⟩

/-- A fetch that fails leaves the cursor alone. -/
theorem Fetched.still {c : Cursor} {f : Fetch} {answer : Except Failure Token × Cursor}
    (fetched : Fetched c f answer) {failure : Failure} (failed : answer.1 = .error failure) :
    answer.2 = c := by
  cases fetched with
  | refused _ _ | uncut _ _ | mismatched _ _ => rfl
  | peeked _ | passed _ _ | cut _ _ | absent _ _ => cases failed

theorem source_skipCommand (c : Cursor) : c.skipCommand.source = c.source := by
  unfold skipCommand seekEither
  split <;> rfl

theorem Stretch.source_eq {c finish : Cursor} {f : Fetch} {kind : Kind}
    (stretch : Stretch c f kind finish) : finish.source = c.source := by
  cases stretch with
  | word fetched _ => exact (read_ok fetched).source_eq
  | restOfCommand fetched _ => exact (source_skipCommand _).trans (read_ok fetched).source_eq
  | restOfLine => rfl

theorem extend_fetched {f : Fetch} {kind : Kind} {skip : Cursor → Cursor} (c : Cursor)
    (proper : f ≠ .restOfLine) (normal : f.mode = .normal)
    (passes : ∀ t : Token, f.passes t = (t.kind == .quoted || t.isNop))
    (stretch : ∀ t behind, c.read .normal = (.ok t, behind) → f.passes t = false →
      Stretch c f kind (skip behind)) :
    Fetched c f (c.extend kind skip) := by
  unfold extend
  rcases c.read_cases .normal with ⟨t, behind, fetched⟩ | ⟨failure, refused⟩
  · rw [fetched]
    dsimp only
    rw [← passes]
    cases passed : f.passes t with
    | true => exact .passed passed (normal ▸ fetched)
    | false =>
      -- The text starts with the token, which starts behind the white space.
      have taken := stretch t behind fetched passed
      rw [(read_ok fetched).start_eq]
      cases cut : (skip behind).sliceFrom? c.skipSpace.pos with
      | some text => exact .cut taken cut
      | none => exact .uncut taken cut
  · rw [refused]
    exact .refused proper (normal ▸ refused)

theorem fetch_fetched (c : Cursor) (f : Fetch) : Fetched c f (c.fetch f) := by
  cases f with
  | next | glob =>
    rcases c.read_cases _ with ⟨t, behind, fetched⟩ | ⟨failure, refused⟩
    · rw [fetch, fetched]
      exact .passed rfl fetched
    · rw [fetch, refused]
      exact .refused (by simp) refused
  | peek =>
    show Fetched c .peek ((c.read .normal).1, c)
    rcases c.read_cases .normal with ⟨t, behind, fetched⟩ | ⟨failure, refused⟩
    · rw [fetched]
      exact .peeked fetched
    · rw [refused]
      exact .refused (by simp) refused
  | word => exact extend_fetched c (by simp) rfl (fun _ => rfl) fun _ _ => .word
  | restOfCommand => exact extend_fetched c (by simp) rfl (fun _ => rfl) fun _ _ => .restOfCommand
  | restOfLine =>
    rw [fetch, restOfLine]
    cases cut : c.skipToEnd.sliceFrom? c.skipSpace.pos with
    | some text => exact .cut .restOfLine cut
    | none => exact .uncut .restOfLine cut
  | expect e =>
    rw [fetch, expect]
    rcases c.read_cases .normal with ⟨t, behind, fetched⟩ | ⟨failure, refused⟩
    · rw [fetched]
      dsimp only
      cases accepted : e.accepts t with
      | true => exact .passed accepted fetched
      | false => exact .mismatched fetched accepted
    · rw [refused]
      exact .refused (by simp) refused
  | takeIf k =>
    rw [fetch, takeIf]
    rcases c.read_cases .normal with ⟨t, behind, fetched⟩ | ⟨failure, refused⟩
    · rw [fetched]
      dsimp only
      cases same : t.kind == k with
      | true => exact .passed same fetched
      | false => exact .absent fetched same
    · rw [refused]
      exact .refused (by simp) refused

end Cursor

end CurveScript
