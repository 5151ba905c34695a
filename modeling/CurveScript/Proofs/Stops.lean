import CurveScript.Proofs.Alignment
import CurveScript.Proofs.Moves
import CurveScript.Proofs.WellFormed
import Mathlib.Order.Bounds.Basic

/-! # Where text taken as it stands ends

A bare word and the rest of a command are found by reading a token first and going on behind it.
The result has a simpler description, which knows nothing of tokens: it reaches from the first
byte that is not white space to the first delimiter behind that byte. The two agree because no
token but a string has a delimiter among its bytes, the first one excepted.

* `Source.FirstStop` is the place where a byte of a class stands first;
* `Cursor.Halts`, for the moves that stop there;
* `Cursor.firstStop_of_read`, that a move behind a token stops where it would have stopped if it
  had started right behind the first byte of the token. -/

namespace CurveScript

/-- The bytes behind a bare word. -/
def Byte.endsWord (b : Byte) : Bool :=
  b.isSpace || b == semicolon || b == hash

/-- The bytes behind a command. -/
def Byte.endsCommand (b : Byte) : Bool :=
  b == semicolon || b == hash

/-! ## The first byte of a class -/

namespace Source

/-- The first offset from `start` on where the fragment ends or holds a byte of a class. -/
def FirstStop (source : Source) (stops : Byte → Bool) (start p : Nat) : Prop :=
  IsLeast {q | start ≤ q ∧ (q = source.size ∨ source.bytes[q]?.any stops = true)} p

theorem firstStop_of_split {source : Source} {stops : Byte → Bool} {p : Nat} {u s : List Byte}
    (inside : p ≤ source.size) (ahead : source.bytes.drop p = u ++ s)
    (passed : ∀ b ∈ u, stops b = false) (stopped : ∀ b, s.head? = some b → stops b = true) :
    source.FirstStop stops p (p + u.length) := by
  have size : source.size = p + u.length + s.length := by
    have length := congrArg List.length ahead
    rw [List.length_drop, List.length_append, ← Source.size] at length
    omega
  refine ⟨⟨Nat.le_add_right _ _, ?_⟩, ?_⟩
  · cases s with
    | nil => exact .inl size.symm
    | cons b s =>
      have found : source.bytes[p + u.length]? = some b := by
        rw [← List.getElem?_drop, ahead]
        simp
      exact .inr (by simp [found, stopped b rfl])
  · rintro q ⟨after, stops⟩
    by_contra before
    obtain ⟨i, rfl⟩ := Nat.exists_eq_add_of_le after
    have within : i < u.length := by omega
    have found : source.bytes[p + i]? = some u[i] := by
      rw [← List.getElem?_drop, ahead, List.getElem?_append_left within]
      exact List.getElem?_eq_getElem within
    cases stops with
    | inl finish => omega
    | inr stop => simp [found, passed u[i] (List.getElem_mem within)] at stop

theorem drop_of_slice? {source : Source} {p q : Nat} {t : String}
    (cut : source.slice? p q = some t) :
    source.bytes.drop p = Text.bytes t ++ source.bytes.drop q ∧ q = p + (Text.bytes t).length := by
  obtain ⟨inside, sliced⟩ := slice?_eq_some_iff.mp cut
  have ordered := Text.le_of_slice? sliced
  have behind : source.bytes.drop q = (source.bytes.drop p).drop (q - p) := by
    rw [List.drop_drop, Nat.add_sub_cancel' ordered]
  rw [bytes_of_slice? cut, List.extract_eq_take_drop, behind, List.take_append_drop]
  refine ⟨rfl, ?_⟩
  rw [List.length_take, List.length_drop, ← size]
  omega

end Source

namespace Cursor

/-- The cursor `c'` is `c` moved on to the next byte of a class, or to the end. -/
def Halts (stops : Byte → Bool) (c c' : Cursor) : Prop :=
  ∃ u s, c.rest = u ++ s ∧ (∀ b ∈ u, stops b = false) ∧ (∀ b, s.head? = some b → stops b = true) ∧
    c' = { c with pos := c.pos + u.length }

variable {c : Cursor} {stops : Byte → Bool}

theorem Halts.source_eq {c' : Cursor} (halts : Halts stops c c') : c'.source = c.source := by
  obtain ⟨_, _, _, _, _, rfl⟩ := halts
  rfl

theorem Halts.firstStop {c' : Cursor} (halts : Halts stops c c') (inside : c.pos ≤ c.source.size) :
    c.source.FirstStop stops c.pos c'.pos := by
  obtain ⟨u, s, ahead, passed, stopped, rfl⟩ := halts
  exact Source.firstStop_of_split inside ahead passed stopped

theorem skipWhile_halts {p : Byte → Bool} (opposite : ∀ b ∈ c.rest, stops b = !p b) :
    Halts stops c (c.skipWhile p) := by
  obtain ⟨u, s, ahead, length, all, stopped⟩ := Byte.run_split p c.rest
  refine ⟨u, s, ahead, fun b member => ?_, fun b first => ?_, ?_⟩
  · rw [opposite b (by simp [ahead, member]), all b member]
    rfl
  · cases s with
    | nil => cases first
    | cons d s =>
      cases first
      rw [opposite b (by simp [ahead]), Byte.head_of_run_eq_zero stopped]
      rfl
  · rw [skipWhile, length]

theorem skipSpace_halts (c : Cursor) : Halts (!·.isSpace) c c.skipSpace :=
  skipWhile_halts fun _ _ => rfl

theorem skipWord_halts (c : Cursor) : Halts Byte.endsWord c c.skipWord := by
  apply skipWhile_halts
  intro b member
  have nonzero : b ≠ 0 := by
    rintro rfl
    exact c.source.zeroFree (List.mem_of_mem_drop member)
  have checked := Byte.forall_of_all (p := fun b => b == 0 || b.endsWord == !b.isWordByte)
    (by decide +kernel) b
  simpa [nonzero] using checked

theorem skipCommand_halts (inside : c.pos ≤ c.source.size) :
    Halts Byte.endsCommand c c.skipCommand := by
  rw [skipCommand, seekEither_eq _ _ inside]
  exact skipWhile_halts fun b _ => (Bool.not_not b.endsCommand).symm

/-- No byte of a token but its first stops a move that no byte of a bare word stops. Hence a move
    that starts behind the token ends where one does that starts behind its first byte. -/
theorem firstStop_of_read {mode : Mode} {t : Token} {behind finish : Cursor}
    (fetched : c.read mode = (.ok t, behind)) (unquoted : t.kind ≠ .quoted)
    (proper : t.kind ≠ .nop) (solid : ∀ b : Byte, b.isWordByte = true → (!stops b) = true)
    (halts : Halts stops behind finish) :
    c.source.FirstStop stops (c.skipSpace.pos + 1) finish.pos := by
  have reads := read_ok fetched
  cases spells_of_read fetched with
  | inr ended => exact absurd (congrArg Token.kind ended) proper
  | inl spelled =>
    obtain ⟨k, spells⟩ := spelled
    have nonempty := Munch.ne_nil_of_mem spells.word
    have tail : ∀ b ∈ (Text.bytes t.text).tail, b.isWordByte = true :=
      Class.words_solid (fun same => unquoted (spells.kind_eq_iff.mpr same)) spells.word
    obtain ⟨u, s, ahead, passed, stopped, rfl⟩ := halts
    obtain ⟨joined, length⟩ := Source.drop_of_slice? reads.cut
    have inside := reads.stop_le_size
    obtain ⟨b, v, first⟩ := List.exists_cons_of_ne_nil nonempty
    rw [rest, reads.source_eq] at ahead
    rw [reads.start_eq, reads.stop_eq, first, ahead] at joined
    rw [reads.start_eq, reads.stop_eq, first, List.length_cons] at length
    rw [reads.stop_eq] at inside
    rw [first] at tail
    have second : c.source.bytes.drop (c.skipSpace.pos + 1) = (v ++ u) ++ s := by
      rw [← List.drop_drop, joined]
      simp
    have finish : behind.pos + u.length = c.skipSpace.pos + 1 + (v ++ u).length := by
      rw [List.length_append]
      omega
    dsimp only
    rw [finish]
    refine Source.firstStop_of_split (by omega) second (fun b member => ?_) stopped
    cases List.mem_append.mp member with
    | inl inToken => simpa using solid b (tail b inToken)
    | inr behindToken => exact passed b behindToken

end Cursor

/-! ## Readers -/

namespace Reader

/-- The answer of a fetch that hands out `t`, which has the text of the fragment at its place,
    and leaves the reader right behind it. -/
structure Took (source : Source) (t : Token) (answer : Except Failure Token × Reader) : Prop where
  result : answer.1 = .ok t
  cut : source.slice? t.span.start t.span.stop = some t.text
  position : answer.2.position = t.span.stop
  lookahead : answer.2.lookahead = none

/-- The fetch `f` takes text as it stands, from `s` up to the first stop behind `s`, unless `next`
    fails or takes a string or the end. -/
structure Stretches (source : Source) (r : Reader) (s : Nat) (f : Fetch) (kind : Kind)
    (stops : Byte → Bool) : Prop where
  refused : ∀ failure, (r.fetch .next).1 = .error failure → r.fetch f = (.error failure, r)
  unchanged : ∀ t, (r.fetch .next).1 = .ok t → t.kind = .quoted ∨ t.kind = .nop →
    r.fetch f = r.fetch .next ∧ Took source t (r.fetch f)
  stretched : ∀ t, (r.fetch .next).1 = .ok t → t.kind ≠ .quoted → t.kind ≠ .nop →
    ∃ text e, source.FirstStop stops (s + 1) e ∧
      Took source ⟨kind, text, ⟨s, e⟩, .absent⟩ (r.fetch f)

variable {source : Source} {r : Reader}

theorem Settled.firstStop (settled : Settled source r) :
    source.FirstStop (!·.isSpace) r.position r.origin.skipSpace.pos := by
  obtain ⟨rfl, _, position⟩ := settled
  exact r.origin.skipSpace_halts.firstStop position.inside

section

variable {f : Fetch} {kind : Kind} {skip : Cursor → Cursor} {stops : Byte → Bool}

theorem extend_stretched (settled : Settled source r) (fits : source.Fits)
    (fetches : r.fetch f = r.extend kind skip) {t : Token} {behind : Cursor}
    (read : r.origin.read .normal = (.ok t, behind)) (taken : r.next = (.ok t, ⟨behind, none⟩))
    (unquoted : t.kind ≠ .quoted) (proper : t.kind ≠ .nop)
    (solid : ∀ b : Byte, b.isWordByte = true → (!stops b) = true)
    (halts : Cursor.Halts stops behind (skip behind)) :
    ∃ text e, source.FirstStop stops (r.origin.skipSpace.pos + 1) e ∧
      Took source ⟨kind, text, ⟨r.origin.skipSpace.pos, e⟩, .absent⟩ (r.fetch f) := by
  have aligned := settled.fetch_aligned fits f
  obtain ⟨rfl, _, _⟩ := settled
  have reads := Cursor.read_ok read
  have stop := Cursor.firstStop_of_read read unquoted proper solid halts
  cases cut : (skip behind).sliceFrom? t.span.start with
  | none =>
    simp [fetches, extend, taken, Token.isNop, unquoted, proper, cut, Answer.Aligned] at aligned
  | some text =>
    have answered : r.fetch f = (.ok ⟨kind, text, ⟨t.span.start, (skip behind).pos⟩, .absent⟩,
        ⟨skip behind, none⟩) := by
      simp [fetches, extend, taken, Token.isNop, unquoted, proper, cut]
    refine ⟨text, (skip behind).pos, stop, ?_⟩
    rw [answered, ← reads.start_eq]
    rw [Cursor.sliceFrom?, Cursor.slice?, halts.source_eq, reads.source_eq] at cut
    exact ⟨rfl, cut, rfl, rfl⟩

theorem extend_stretches (settled : Settled source r) (fits : source.Fits)
    (fetches : r.fetch f = r.extend kind skip)
    (solid : ∀ b : Byte, b.isWordByte = true → (!stops b) = true)
    (halts : ∀ c : Cursor, c.pos ≤ c.source.size → Cursor.Halts stops c (skip c)) :
    Stretches source r r.origin.skipSpace.pos f kind stops := by
  have source_eq := settled.source_eq
  cases ahead_cases settled.coherent with
  | inr failed =>
    obtain ⟨failure, _, refused, _⟩ := failed
    have next : r.fetch .next = (.error failure, r) := refused
    constructor <;> simp [next, fetches, extend, refused]
  | inl found =>
    obtain ⟨t, behind, read, taken, _⟩ := found
    have reads := Cursor.read_ok read
    have next : r.fetch .next = (.ok t, ⟨behind, none⟩) := taken
    constructor
    · simp [next]
    · intro u ok unchanged
      obtain rfl : t = u := by simpa [next] using ok
      have same : r.fetch f = (.ok t, ⟨behind, none⟩) := by
        simp [fetches, extend, taken, Token.isNop, unchanged]
      rw [same, next, ← source_eq]
      exact ⟨rfl, rfl, reads.cut, reads.stop_eq.symm, rfl⟩
    · intro u ok unquoted proper
      obtain rfl : t = u := by simpa [next] using ok
      have inside : behind.pos ≤ behind.source.size := by
        rw [← reads.stop_eq, reads.source_eq]
        exact reads.stop_le_size
      exact extend_stretched settled fits fetches read taken unquoted proper solid
        (halts behind inside)

end

theorem restOfLine_took (settled : Settled source r) (fits : source.Fits) :
    ∃ text, Took source ⟨.rest, text, ⟨r.origin.skipSpace.pos, source.size⟩, .absent⟩
      (r.fetch .restOfLine) := by
  obtain ⟨rfl, coherent, position⟩ := settled
  have first : r.cursor.source.Aligned r.origin.skipSpace.pos :=
    Cursor.aligned_skipSpace (c := r.origin) position
  obtain ⟨text, cut⟩ := Source.slice?_of_aligned first (Source.aligned_size fits) first.inside
  have cut' : r.cursor.skipToEnd.sliceFrom? r.origin.skipSpace.pos = some text := cut
  have answered : r.fetch .restOfLine = (.ok ⟨.rest, text, ⟨r.origin.skipSpace.pos,
      r.cursor.source.size⟩, .absent⟩, ⟨r.cursor.skipToEnd, none⟩) := by
    simp only [fetch, restOfLine]
    cases kept : r.lookahead with
    | some ahead =>
      have start := (Cursor.read_ok (coherent ahead kept)).start_eq
      simp only [start, cut']
      rfl
    | none =>
      rw [origin_of_lookahead_none kept] at cut' ⊢
      simp only [cut']
      rfl
  rw [answered]
  exact ⟨text, rfl, cut, rfl, rfl⟩

end Reader

/-- Where text taken as it stands begins and ends, in every session and whatever is read ahead:
    from the first byte that is not white space to the end, or to the first delimiter behind that
    byte. Tokens only matter for failures, strings and the end. -/
theorem Reachable.fetch_closed_form {text : String} {seen : List Token} {r : Reader}
    (fits : (Source.ofText text).Fits) (reachable : Reachable text seen r) :
    ∃ s, (Source.ofText text).FirstStop (!·.isSpace) r.position s ∧
      (∃ rest, Reader.Took (Source.ofText text)
        ⟨.rest, rest, ⟨s, (Source.ofText text).size⟩, .absent⟩ (r.fetch .restOfLine)) ∧
      Reader.Stretches (Source.ofText text) r s .word .word Byte.endsWord ∧
      Reader.Stretches (Source.ofText text) r s .restOfCommand .rest Byte.endsCommand := by
  obtain ⟨settled, _⟩ := reachable.settled
  have solidWord : ∀ b : Byte, b.isWordByte = true → (!b.endsWord) = true :=
    fun _ => Byte.imp_of_all (q := (!·.endsWord)) (by decide +kernel)
  have solidCommand : ∀ b : Byte, b.isWordByte = true → (!b.endsCommand) = true :=
    fun _ => Byte.imp_of_all (q := (!·.endsCommand)) (by decide +kernel)
  refine ⟨r.origin.skipSpace.pos, settled.firstStop, Reader.restOfLine_took settled fits, ?_, ?_⟩
  · exact Reader.extend_stretches settled fits rfl solidWord fun c _ => c.skipWord_halts
  · exact Reader.extend_stretches settled fits rfl solidCommand fun c inside =>
      Cursor.skipCommand_halts inside

theorem Reachable.fetch_closed_form_semicolon :
    ∃ seen r s rest e, Reachable " ;é 'x# " seen r ∧ r.lookahead.isSome = true ∧
      (r.fetch .next).1 = .ok ⟨.semicolon, ";", ⟨1, 2⟩, .absent⟩ ∧
      (Source.ofText " ;é 'x# ").FirstStop (!·.isSpace) r.position s ∧
      (Source.ofText " ;é 'x# ").FirstStop Byte.endsCommand (s + 1) e ∧
      Reader.Took (Source.ofText " ;é 'x# ") ⟨.rest, rest, ⟨s, e⟩, .absent⟩
        (r.fetch .restOfCommand) := by
  have beginning : Reachable " ;é 'x# " [] (.ofText " ;é 'x# ") := .start
  have peeked := beginning.call (.fetch .peek) trivial
  have separator : (((Reader.ofText " ;é 'x# ").call (.fetch .peek)).2.fetch .next).1 =
      .ok ⟨.semicolon, ";", ⟨1, 2⟩, .absent⟩ := by
    decide +kernel
  have fits : (Source.ofText " ;é 'x# ").Fits := by
    unfold Source.Fits
    decide +kernel
  obtain ⟨s, first, _, _, command⟩ := peeked.fetch_closed_form fits
  obtain ⟨rest, e, stop, took⟩ := command.stretched _ separator (by decide) (by decide)
  exact ⟨_, _, s, rest, e, peeked, rfl, separator, first, stop, took⟩

end CurveScript
