import CurveScript.Proofs.Alphabet
import CurveScript.Proofs.Lookahead

/-! # Readers stay between characters

The scan works byte by byte, and a cut inside a character would be fatal. It never happens:
a session on a text whose fragment is not cut off only meets boundaries. Where a fragment is cut
off it may end inside a character, and a fetch that gets there fails; what has been fetched, and
where the reader stands, is on boundaries all the same.

* Words are ASCII, except for strings, which end with a quote (`Class.words_ascii`).
* Hence a munch goes from boundary to boundary (`Source.aligned_munch`).
* The moves over a bare word and over the rest of a command stop at the end or before a byte
  of ASCII (`Cursor.skipWord_glides`, `Cursor.skipCommand_glides`).
* Hence no fetch fails to cut its text (`Cursor.Fetched.reports`).
* A text that could be cut ends on boundaries, so that `Reader.Settled` is an invariant of all
  sessions (`Reachable.settled`). -/

namespace CurveScript

/-! ## Scanning -/

namespace Source

variable {source : Source} {p : Nat}

/-- A string ends on a boundary because its last byte is a quote. -/
theorem aligned_quoted {mode : Mode} {w s : List Byte} (member : w ∈ Class.quoted.words mode)
    (ahead : source.bytes.drop p = w ++ s) : source.Aligned (p + w.length) := by
  rw [Class.words_eq] at member
  obtain ⟨u, _, v, closing, rfl⟩ := member
  rw [Grammar.mem_mark.mp closing] at ahead ⊢
  have found : source.bytes[p + u.length]? = some Byte.quote := by
    rw [← List.getElem?_drop, ahead]
    simp
  have closed := aligned_succ (aligned_of_ascii found rfl) found rfl
  rw [List.length_append, ← Nat.add_assoc]
  exact closed

/-- A munch that starts on a boundary stops on one. -/
theorem aligned_munch (fits : source.Fits) (aligned : source.Aligned p) (mode : Mode) :
    source.Aligned (p + (Munch.ofBytes mode (source.bytes.drop p)).length) := by
  have munched := Munch.ofBytes_munched mode (source.bytes.drop p)
  generalize Munch.ofBytes mode (source.bytes.drop p) = munch at munched ⊢
  generalize ahead : source.bytes.drop p = r at munched
  -- Only a string and a character that begins no word can hold bytes beyond ASCII.
  cases munched with
  | ended | comment => exact aligned
  | word k rest member =>
    by_cases quoted : k = .quoted
    · subst quoted
      exact aligned_quoted member ahead
    · exact aligned_add aligned ahead (Class.words_ascii mode quoted member)
  | unclosedString _ =>
    exact aligned_before (s := []) fits aligned.inside (ahead.trans (List.append_nil _).symm)
      fun b found => nomatch found
  | badSigil sigil _ =>
    refine aligned_add (u := [_]) aligned ahead fun c member => ?_
    rw [List.mem_singleton.mp member]
    rcases sigil with rfl | rfl <;> rfl
  | badSelector _ =>
    refine aligned_add (u := [_]) aligned ahead fun c member => ?_
    rw [List.mem_singleton.mp member]
    rfl
  | badChar _ =>
    obtain ⟨c, _, _, width, behind⟩ := char_ahead fits aligned ahead
    rw [← width] at behind
    exact behind

end Source

theorem Cursor.aligned_scan {c : Cursor} (fits : c.source.Fits) (aligned : c.source.Aligned c.pos)
    (mode : Mode) :
    c.source.Aligned (c.scan mode).1.start ∧ c.source.Aligned (c.scan mode).1.stop :=
  ⟨aligned_skipSpace aligned, Source.aligned_munch fits (aligned_skipSpace aligned) mode⟩

/-! ## What may be seen of an alignment -/

/-- Both ends of a token are boundaries, and its text is the text between them. -/
structure Token.Aligned (source : Source) (t : Token) : Prop where
  start : source.Aligned t.span.start
  stop : source.Aligned t.span.stop
  cut : Text.slice? source.text t.span.start t.span.stop = some t.text

/-- Every offset in an answer is a boundary, and no text was to be cut anywhere else. -/
def Answer.Aligned (source : Source) : Answer → Prop
  | .fetched (.ok t) => t.Aligned source
  | .fetched (.error (.diagnostic d)) => source.Aligned d.offset
  | .fetched (.error .misaligned) => False
  | .done => True
  | .offset n => source.Aligned n
  | .text s => ∃ t, s = some t ∧ Text.bytes t = source.bytes
  | .diagnostic d => source.Aligned d.offset

theorem Token.aligned_of_slice? {source : Source} {t : Token}
    (cut : source.slice? t.span.start t.span.stop = some t.text) : t.Aligned source := by
  obtain ⟨first, last⟩ := Source.aligned_of_slice? cut
  exact ⟨first, last, (Source.slice?_eq_some_iff.mp cut).2⟩

theorem Token.aligned_nop {source : Source} {p : Nat} (aligned : source.Aligned p) :
    (Token.nop p).Aligned source := by
  obtain ⟨text, cut⟩ := Source.slice?_of_aligned aligned aligned (Nat.le_refl p)
  have blank := Text.eq_empty_of_slice? (Source.slice?_eq_some_iff.mp cut).2
  rw [blank] at cut
  exact Token.aligned_of_slice? cut

/-! ## One fetch -/

namespace Cursor

/-- A move ahead that stops on a boundary. -/
structure Glides (c c' : Cursor) : Prop where
  source_eq : c'.source = c.source
  le_pos : c.pos ≤ c'.pos
  aligned : c.source.Aligned c'.pos

variable {c : Cursor}

theorem Glides.skip {d : Cursor} {skip : Cursor → Cursor} (first : Glides c d)
    (second : d.source.Fits → d.source.Aligned d.pos → Glides d (skip d)) (fits : c.source.Fits) :
    Glides c (skip d) := by
  obtain ⟨source, forward, aligned⟩ := first
  rw [← source] at fits aligned
  obtain ⟨source', forward', aligned'⟩ := second fits aligned
  rw [source] at source' aligned'
  exact ⟨source', Nat.le_trans forward forward', aligned'⟩

theorem skipWord_glides (fits : c.source.Fits) (aligned : c.source.Aligned c.pos) :
    Glides c c.skipWord := by
  refine ⟨rfl, Nat.le_add_right _ _, ?_⟩
  obtain ⟨u, s, ahead, length, _, stops⟩ := Byte.run_split Byte.isWordByte c.rest
  change c.source.Aligned (c.pos + Byte.run Byte.isWordByte c.rest)
  rw [length]
  -- All bytes beyond ASCII continue a word, so that it stops before none of them.
  refine Source.aligned_before fits aligned.inside ahead fun b first => ?_
  cases s with
  | nil => cases first
  | cons d s =>
    cases first
    have outside : ∀ b : Byte, (!b.isWordByte) = true → b.isNonAscii = false :=
      Byte.ascii_of_test (by decide +kernel)
    exact outside _ (by rw [Byte.head_of_run_eq_zero stops]; rfl)

theorem skipCommand_glides (fits : c.source.Fits) (aligned : c.source.Aligned c.pos) :
    Glides c c.skipCommand := by
  unfold skipCommand seekEither
  cases found : c.rest.findIdx? fun x => x == Byte.semicolon || x == Byte.hash with
  | none => exact ⟨rfl, aligned.inside, Source.aligned_size fits⟩
  | some n =>
    refine ⟨rfl, Nat.le_add_right _ _, ?_⟩
    obtain ⟨inside, mark, _⟩ := List.findIdx?_eq_some_iff_getElem.mp found
    have here : c.source.bytes[c.pos + n]? = some c.rest[n] := by
      rw [← List.getElem?_drop]
      exact List.getElem?_eq_getElem inside
    have ascii : ∀ b : Byte, (b == Byte.semicolon || b == Byte.hash) = true →
        b.isNonAscii = false :=
      Byte.ascii_of_test (by decide +kernel)
    exact Source.aligned_of_ascii here (ascii _ mark)

theorem Reads.glides {mode : Mode} {t : Token} {behind : Cursor} (reads : Reads mode c t behind) :
    Glides c.skipSpace behind := by
  have ordered := reads.start_le_stop
  rw [reads.start_eq, reads.stop_eq] at ordered
  have landed := (Token.aligned_of_slice? reads.cut).stop
  rw [reads.stop_eq] at landed
  exact ⟨reads.source_eq, ordered, landed⟩

/-- Reading that is refused at a boundary points at one. -/
theorem read_reports {mode : Mode} {failure : Failure} (fits : c.source.Fits)
    (aligned : c.source.Aligned c.pos) (refused : c.read mode = (.error failure, c)) :
    (Answer.fetched (.error failure)).Aligned c.source := by
  obtain ⟨first, last⟩ := aligned_scan fits aligned mode
  obtain ⟨_, uncut, located⟩ := read_error refused
  cases failure with
  | diagnostic d =>
    obtain ⟨text, _, decoded⟩ := located d rfl
    change c.source.Aligned d.offset
    rcases Token.ofLexeme_error decoded with start | stop
    · rw [start]; exact first
    · rw [stop]; exact last
  | misaligned =>
    obtain ⟨text, cut⟩ := Source.slice?_of_aligned first last (Nat.le_add_right _ _)
    rw [uncut rfl] at cut
    cases cut

/-- Text taken as it stands ends on a boundary at or behind its start. -/
theorem Stretch.glides {f : Fetch} {kind : Kind} {finish : Cursor}
    (stretch : Stretch c f kind finish) (fits : c.source.Fits)
    (aligned : c.source.Aligned c.pos) : Glides c.skipSpace finish := by
  cases stretch with
  | word fetched _ => exact (read_ok fetched).glides.skip skipWord_glides fits
  | restOfCommand fetched _ => exact (read_ok fetched).glides.skip skipCommand_glides fits
  | restOfLine =>
    exact ⟨rfl, (aligned_skipSpace aligned).inside, Source.aligned_size fits⟩

/-- A fetch at a boundary ends at one, and so does the token that it gives. -/
theorem Fetched.lands {f : Fetch} {answer : Except Failure Token × Cursor}
    (fetched : Fetched c f answer) (aligned : c.source.Aligned c.pos) :
    answer.2.source = c.source ∧ c.source.Aligned answer.2.pos ∧
      ∀ t, answer.1 = .ok t → t.Aligned c.source := by
  cases fetched with
  | refused _ _ | uncut _ _ | mismatched _ _ => exact ⟨rfl, aligned, fun t ok => nomatch ok⟩
  | peeked fetched =>
    refine ⟨rfl, aligned, ?_⟩
    rintro t ⟨⟩
    exact Token.aligned_of_slice? (read_ok fetched).cut
  | passed _ fetched =>
    have reads := read_ok fetched
    refine ⟨reads.source_eq, reads.glides.aligned, ?_⟩
    rintro t ⟨⟩
    exact Token.aligned_of_slice? reads.cut
  | cut stretch cut =>
    rw [sliceFrom?, slice?, stretch.source_eq] at cut
    refine ⟨stretch.source_eq, (Source.aligned_of_slice? cut).2, ?_⟩
    rintro t ⟨⟩
    exact Token.aligned_of_slice? cut
  | absent _ _ =>
    refine ⟨rfl, aligned, ?_⟩
    rintro t ⟨⟩
    exact Token.aligned_nop aligned

/-- A fetch that fails at a boundary points at one, and never fails to cut its text. -/
theorem Fetched.reports {f : Fetch} {answer : Except Failure Token × Cursor}
    (fetched : Fetched c f answer) (fits : c.source.Fits) (aligned : c.source.Aligned c.pos)
    {failure : Failure} (failed : answer.1 = .error failure) :
    (Answer.fetched (.error failure)).Aligned c.source := by
  cases fetched with
  | peeked _ | passed _ _ | cut _ _ | absent _ _ => cases failed
  | refused _ refused =>
    cases failed
    exact read_reports fits aligned refused
  | uncut stretch uncut =>
    have moved := stretch.glides fits aligned
    obtain ⟨text, cut⟩ := Source.slice?_of_aligned (aligned_skipSpace aligned) moved.aligned
      moved.le_pos
    rw [sliceFrom?, slice?, stretch.source_eq, cut] at uncut
    cases uncut
  | mismatched fetched _ =>
    -- The diagnostic points behind the token that was read.
    cases failed
    exact (read_ok fetched).glides.aligned

end Cursor

/-! ## Sessions -/

namespace Reader

/-- The invariant of sessions. The place of the cursor needs no mention: with nothing read
    ahead it is the position, and otherwise it is where reading at the position ends. -/
structure Settled (source : Source) (r : Reader) : Prop where
  source_eq : r.cursor.source = source
  coherent : r.Coherent
  position : source.Aligned r.position

variable {source : Source} {r : Reader}

theorem settled_ofText (text : String) : Settled (Source.ofText text) (ofText text) :=
  ⟨rfl, coherent_of_lookahead_none rfl, Source.aligned_zero _⟩

namespace Settled

theorem cursor (settled : Settled source r) : source.Aligned r.cursor.pos := by
  obtain ⟨rfl, coherent, position⟩ := settled
  cases kept : r.lookahead with
  | none =>
    have here : r.position = r.cursor.pos := by rw [Reader.position, kept]
    rw [← here]
    exact position
  | some ahead => exact (Cursor.read_ok (coherent ahead kept)).glides.aligned

theorem fetch (settled : Settled source r) (f : Fetch) :
    Settled source (r.fetch f).2 ∧ ∀ t, (r.fetch f).1 = .ok t → t.Aligned source := by
  obtain ⟨rfl, coherent, position⟩ := settled
  have plain := fetch_simulates coherent f
  obtain ⟨source, aligned, tokens⟩ := (r.origin.fetch_fetched f).lands position
  rw [← plain.origin_eq] at source aligned
  rw [← plain.result_eq] at tokens
  exact ⟨⟨source, plain.coherent, aligned⟩, tokens⟩

theorem fetch_aligned (settled : Settled source r) (fits : source.Fits) (f : Fetch) :
    (Answer.fetched (r.fetch f).1).Aligned source := by
  cases answered : (r.fetch f).1 with
  | ok t => exact (settled.fetch f).2 t answered
  | error failure =>
    obtain ⟨rfl, coherent, position⟩ := settled
    rw [(fetch_simulates coherent f).result_eq] at answered
    exact (r.origin.fetch_fetched f).reports fits position answered

theorem pushBack (settled : Settled source r) {t : Token} (start : source.Aligned t.span.start) :
    Settled source (r.pushBack t) := by
  obtain ⟨rfl, _, _⟩ := settled
  refine ⟨rfl, coherent_of_lookahead_none rfl, ?_⟩
  change r.cursor.source.Aligned (min t.span.start r.cursor.source.size)
  rw [Nat.min_eq_left start.inside]
  exact start

theorem input (settled : Settled source r) (fits : source.Fits) :
    ∃ t, r.input? = some t ∧ Text.bytes t = source.bytes := by
  obtain ⟨rfl, _, _⟩ := settled
  obtain ⟨t, cut⟩ := Source.slice?_of_aligned (Source.aligned_zero _) (Source.aligned_size fits)
    (Nat.zero_le _)
  refine ⟨t, cut, ?_⟩
  rw [Source.bytes_of_slice? cut, Source.size]
  simp [List.extract_eq_take_drop]

theorem call (settled : Settled source r) {seen : List Token} (call : Call)
    (owned : call.Owned seen) (earlier : ∀ t ∈ seen, t.Aligned source) :
    Settled source (r.call call).2 := by
  cases call with
  | fetch f => exact (settled.fetch f).1
  | pushBack t => exact settled.pushBack (earlier t owned).start
  | position | input | raise message => exact settled

theorem call_answer (settled : Settled source r) (fits : source.Fits) (call : Call) :
    (r.call call).1.Aligned source := by
  cases call with
  | fetch f => exact settled.fetch_aligned fits f
  | pushBack t => exact trivial
  | position => exact settled.position
  | input => exact settled.input fits
  | raise message => exact settled.cursor

end Settled

end Reader

theorem Reachable.settled {text : String} {seen : List Token} {r : Reader}
    (reachable : Reachable text seen r) :
    r.Settled (Source.ofText text) ∧ ∀ t ∈ seen, t.Aligned (Source.ofText text) := by
  -- A token may be given back at any later time, so the invariant speaks of all of `seen`.
  induction reachable with
  | start => exact ⟨Reader.settled_ofText text, fun t member => nomatch member⟩
  | call call _ owned inductionHypothesis =>
    obtain ⟨settled, earlier⟩ := inductionHypothesis
    refine ⟨settled.call call owned earlier, fun t member => ?_⟩
    rcases List.mem_append.mp member with new | old
    · obtain ⟨f, _, ok⟩ := Reader.fetch_of_token? (Option.mem_toList.mp new)
      exact (settled.fetch f).2 t ok
    · exact earlier t old

/-- Sessions never leave the boundaries: no call fails to cut a piece of text, and all
    offsets that it answers with or moves to stand between two characters. -/
theorem Reachable.call_aligned {text : String} {seen : List Token} {r : Reader}
    (fits : (Source.ofText text).Fits) (reachable : Reachable text seen r) (call : Call)
    (owned : call.Owned seen) :
    (r.call call).1.Aligned (Source.ofText text) ∧
      (Source.ofText text).Aligned (r.call call).2.cursor.pos ∧
      (Source.ofText text).Aligned (r.call call).2.position := by
  obtain ⟨settled, earlier⟩ := reachable.settled
  have after := settled.call call owned earlier
  exact ⟨settled.call_answer fits call, after.cursor, after.position⟩

theorem Reachable.call_aligned_word :
    ∃ seen r, Reachable "a€ µ" seen r ∧ (Source.ofText "a€ µ").Fits ∧
      (Call.pushBack ⟨.word, "a€", ⟨0, 4⟩, .absent⟩).Owned seen ∧
      (r.call (.pushBack ⟨.word, "a€", ⟨0, 4⟩, .absent⟩)).1.Aligned (Source.ofText "a€ µ") ∧
      (Source.ofText "a€ µ").Aligned
        (r.call (.pushBack ⟨.word, "a€", ⟨0, 4⟩, .absent⟩)).2.cursor.pos ∧
      (Source.ofText "a€ µ").Aligned
        (r.call (.pushBack ⟨.word, "a€", ⟨0, 4⟩, .absent⟩)).2.position := by
  have fits : (Source.ofText "a€ µ").Fits := by
    unfold Source.Fits
    decide +kernel
  have beginning : Reachable "a€ µ" [] (.ofText "a€ µ") := .start
  have reachable := beginning.call (.fetch .word) trivial
  have owned : (Call.pushBack ⟨.word, "a€", ⟨0, 4⟩, .absent⟩).Owned
      (((Reader.ofText "a€ µ").call (.fetch .word)).1.token?.toList ++ []) := by
    unfold Call.Owned
    decide +kernel
  exact ⟨_, _, reachable, fits, owned, Reachable.call_aligned fits reachable _ owned⟩

end CurveScript
