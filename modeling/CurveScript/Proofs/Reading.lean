import CurveScript.Tokens

/-! # What one reading step does

Everything that happens between a cursor and the next token, said once: where the token
starts and stops, that its text is the text between the two, and which cursor is left. The
later modules use these statements and never open `Cursor.read` again.

White space before a token is skipped by the scan itself, so that a scan may as well
start behind it: `scan_skipSpace`. -/

namespace CurveScript

/-! ## Bytes and runs -/

namespace Byte

/-- A test that all 256 bytes pass is passed by every byte. -/
theorem forall_of_all {p : Byte → Bool} (checked : (List.range 256).all (p <| UInt8.ofNat ·) = true)
    (b : Byte) : p b = true := by
  have found := List.all_eq_true.mp checked b.toNat (List.mem_range.mpr b.toNat_lt)
  simpa using found

/-- A class of bytes lies in another one if all 256 bytes bear this out. -/
theorem imp_of_all {p q : Byte → Bool}
    (checked : (List.range 256).all (fun n => !p (UInt8.ofNat n) || q (UInt8.ofNat n)) = true)
    {b : Byte} (holds : p b = true) : q b = true := by
  have found := forall_of_all (p := fun b => !p b || q b) checked b
  simpa [holds] using found

/-- Behind a longest run there is none. -/
theorem run_drop_run (p : Byte → Bool) (w : List Byte) : run p (w.drop (run p w)) = 0 := by
  induction w with
  | nil => rfl
  | cons b w inductionHypothesis =>
    by_cases holds : p b = true
    · simpa [run_cons, holds] using inductionHypothesis
    · simp [run_cons, holds]

theorem all_take_run (p : Byte → Bool) (w : List Byte) : ∀ b ∈ w.take (run p w), p b = true := by
  intro b member
  rw [run, ← List.prefix_iff_eq_take.mp (List.takeWhile_prefix p)] at member
  exact List.all_eq_true.mp List.all_takeWhile b member

/-- A list starts with a longest run, and what follows does not continue it. -/
theorem run_split (p : Byte → Bool) (w : List Byte) :
    ∃ u s, w = u ++ s ∧ run p w = u.length ∧ (∀ b ∈ u, p b = true) ∧ run p s = 0 := by
  refine ⟨w.take (run p w), w.drop (run p w), ?_, ?_, all_take_run p w, run_drop_run p w⟩
  · exact (List.take_append_drop _ _).symm
  · rw [List.length_take, Nat.min_eq_left (run_le_length p w)]

end Byte

/-! ## Terminators -/

namespace Munch

theorem isTerminator_cons (mode : Mode) {b : Byte} (rest : List Byte) (proper : b ≠ Byte.hash) :
    (ofBytes mode (b :: rest)).tag.isTerminator = false := by
  simp only [ofBytes, beq_eq_false_iff_ne.mpr proper, Bool.false_eq_true, if_false]
  -- None of the rules behind the one for comments gives a terminator.
  split
  · simp only [ofQuoted]
    split <;> rfl
  split
  · cases rest with
    | nil => rfl
    | cons c rest => simp only [ofSigil]; split <;> rfl
  split
  · cases rest with
    | nil => rfl
    | cons c rest => simp only [ofSigil]; split <;> rfl
  split
  · cases rest with
    | nil => rfl
    | cons c rest =>
      simp only [ofSelector]
      split
      · rfl
      · split <;> rfl
  split
  · cases rest with
    | nil => rfl
    | cons c rest =>
      simp only [ofDot]
      split
      · rfl
      · split <;> rfl
  split
  · rfl
  split
  · simp only [ofUpper]
    split <;> rfl
  split
  · rfl
  · simp only [ofSymbol, ofOpening]
    repeat' split
    all_goals rfl

/-- The scan ends where nothing is left and where a comment starts, and only there. -/
theorem isTerminator_iff {mode : Mode} {w : List Byte} :
    (ofBytes mode w).tag.isTerminator = true ↔ w = [] ∨ ∃ rest, w = Byte.hash :: rest := by
  constructor
  · intro terminator
    cases w with
    | nil => exact .inl rfl
    | cons b rest =>
      by_cases comment : b = Byte.hash
      · exact .inr ⟨rest, by rw [comment]⟩
      · rw [isTerminator_cons mode rest comment] at terminator
        cases terminator
  · rintro (rfl | ⟨rest, rfl⟩) <;> rfl

theorem length_of_isTerminator {mode : Mode} {w : List Byte}
    (terminator : (ofBytes mode w).tag.isTerminator = true) : (ofBytes mode w).length = 0 := by
  rcases isTerminator_iff.mp terminator with rfl | ⟨rest, rfl⟩ <;> rfl

end Munch

/-! ## Tokens of lexemes -/

namespace Kind

/-- Lexemes of different classes become tokens of different kinds. -/
theorem lexeme_injective : Function.Injective lexeme := by
  have listed : ∀ k ∈ Class.all, ∀ k' ∈ Class.all, lexeme k = lexeme k' → k = k' := by
    decide +kernel
  exact fun k k' => listed k (Class.mem_all k) k' (Class.mem_all k')

@[simp] theorem lexeme_inj {j k : Class} : lexeme j = lexeme k ↔ j = k :=
  lexeme_injective.eq_iff

/-- No lexeme becomes a token of a kind that is not scanned. -/
@[simp] theorem lexeme_ne (k : Class) {kind : Kind}
    (other : kind ∈ [word, .expr, .varExpr, .rest, .nop]) : lexeme k ≠ kind := by
  have listed : ∀ k ∈ Class.all, lexeme k ∉ [word, .expr, .varExpr, .rest, .nop] := by
    decide +kernel
  rintro rfl
  exact listed k (Class.mem_all k) other

@[simp] theorem ne_lexeme (k : Class) {kind : Kind}
    (other : kind ∈ [word, .expr, .varExpr, .rest, .nop]) : kind ≠ lexeme k :=
  (lexeme_ne k other).symm

end Kind

theorem Token.isNop_lexeme (k : Class) (text : String) (span : Span) (payload : Payload) :
    (Token.mk (.lexeme k) text span payload).isNop = false := by
  simp [Token.isNop]

theorem Token.ofLexeme_ok {source : String} {lexeme : Lexeme} {text : String} {t : Token}
    (decoded : Token.ofLexeme source lexeme text = .ok t) :
    (∃ k payload, lexeme.tag = .lexeme k ∧ Payload.ofBytes? k (Text.bytes text) = some payload ∧
      t = ⟨.lexeme k, text, ⟨lexeme.start, lexeme.stop⟩, payload⟩) ∨
    (lexeme.tag.isTerminator = true ∧ t = .nop lexeme.start) := by
  unfold Token.ofLexeme at decoded
  cases tagged : lexeme.tag with
  | lexeme k =>
    rw [tagged] at decoded
    dsimp only at decoded
    cases valued : Payload.ofBytes? k (Text.bytes text) with
    | none => rw [valued] at decoded; cases decoded
    | some payload =>
      rw [valued] at decoded
      cases decoded
      exact .inl ⟨k, payload, rfl, valued, rfl⟩
  | comment | endOfText =>
    rw [tagged] at decoded
    cases decoded
    exact .inr ⟨rfl, rfl⟩
  | unclosedString | badSigil | badSelector | badChar =>
    rw [tagged] at decoded
    cases decoded

/-- A diagnostic of a lexeme points at one of its two ends. -/
theorem Token.ofLexeme_error {source : String} {lexeme : Lexeme} {text : String} {d : Diagnostic}
    (refused : Token.ofLexeme source lexeme text = .error d) :
    d.offset = lexeme.start ∨ d.offset = lexeme.stop := by
  unfold Token.ofLexeme at refused
  cases tagged : lexeme.tag with
  | lexeme k =>
    rw [tagged] at refused
    dsimp only at refused
    cases valued : Payload.ofBytes? k (Text.bytes text) with
    | none => rw [valued] at refused; cases refused; exact .inl rfl
    | some payload => rw [valued] at refused; cases refused
  | comment | endOfText => rw [tagged] at refused; cases refused
  | unclosedString | badChar => rw [tagged] at refused; cases refused; exact .inl rfl
  | badSigil | badSelector => rw [tagged] at refused; cases refused; exact .inr rfl

/-! ## Slices -/

namespace Source

theorem bytes_prefix (source : Source) : source.bytes <+: Text.bytes source.text := by
  rw [source.bytes_eq]
  exact (List.take_prefix _ _).trans (List.takeWhile_prefix _)

theorem slice?_eq_some_iff {source : Source} {start stop : Nat} {t : String} :
    source.slice? start stop = some t ↔
      stop ≤ source.size ∧ Text.slice? source.text start stop = some t := by
  unfold slice?
  split
  · next inside => exact ⟨fun cut => ⟨inside, cut⟩, fun cut => cut.2⟩
  · next outside => exact ⟨fun cut => (nomatch cut), fun cut => absurd cut.1 outside⟩

end Source

namespace Text

theorem le_of_slice? {s t : String} {start stop : Nat} (cut : slice? s start stop = some t) :
    start ≤ stop := by
  unfold slice? at cut
  split at cut
  · next ordered => exact ordered.1
  · cases cut

theorem isBoundary_of_slice? {s t : String} {start stop : Nat} (cut : slice? s start stop = some t) :
    isBoundary s start = true ∧ isBoundary s stop = true := by
  unfold slice? at cut
  split at cut
  · next ordered => exact ordered.2
  · cases cut

theorem eq_empty_of_slice? {s t : String} {p : Nat} (cut : slice? s p p = some t) : t = "" := by
  apply bytes_injective
  rw [bytes_of_slice? cut]
  simp [bytes]

end Text

/-- A slice of the fragment holds the bytes of the fragment between its two ends. -/
theorem Source.bytes_of_slice? {source : Source} {start stop : Nat} {t : String}
    (cut : source.slice? start stop = some t) :
    Text.bytes t = source.bytes.extract start stop := by
  obtain ⟨inside, cut⟩ := Source.slice?_eq_some_iff.mp cut
  have ordered := Text.le_of_slice? cut
  obtain ⟨tail, whole⟩ := source.bytes_prefix
  rw [Text.bytes_of_slice? cut, ← whole, List.extract_eq_take_drop, List.extract_eq_take_drop,
    List.drop_append_of_le_length (Nat.le_trans ordered inside), List.take_append_of_le_length]
  rw [List.length_drop]
  exact Nat.sub_le_sub_right inside start

/-! ## Scanning and reading -/

namespace Cursor

theorem skipWhile_of_run {c : Cursor} {p : Byte → Bool} (nothing : Byte.run p c.rest = 0) :
    c.skipWhile p = c := by
  rw [skipWhile, nothing]
  rfl

theorem skipSpace_skipSpace (c : Cursor) : c.skipSpace.skipSpace = c.skipSpace := by
  apply skipWhile_of_run
  rw [skipSpace, rest_skipWhile]
  exact Byte.run_drop_run _ _

theorem scan_skipSpace (mode : Mode) (c : Cursor) : c.skipSpace.scan mode = c.scan mode := by
  simp only [scan, skipSpace_skipSpace]

/-- What is known of a token `t` that was read at `c` with `c'` left behind it. -/
structure Reads (mode : Mode) (c : Cursor) (t : Token) (c' : Cursor) : Prop where
  left : c' = (c.scan mode).2
  decoded : ∃ text, Token.ofLexeme c.source.text (c.scan mode).1 text = .ok t
  start_eq : t.span.start = c.skipSpace.pos
  stop_eq : t.span.stop = c'.pos
  cut : c.source.slice? t.span.start t.span.stop = some t.text

theorem scan_pos_of_slice? {mode : Mode} {c : Cursor} {start : Nat} {text : String}
    (cut : c.source.slice? start (c.scan mode).1.stop = some text) :
    (c.scan mode).2.pos = (c.scan mode).1.stop :=
  Nat.min_eq_left (Source.slice?_eq_some_iff.mp cut).1

theorem moveTo_of_le {c d : Cursor} (same : c.source = d.source) (inside : d.pos ≤ d.source.size) :
    c.moveTo d.pos = d := by
  rw [moveTo, same, Nat.min_eq_left inside]

/-- A cursor is inside the fragment if the text of the lexeme that it scans can be cut. -/
theorem pos_le_size_of_slice? {mode : Mode} {c : Cursor} {text : String}
    (cut : c.source.slice? (c.scan mode).1.start (c.scan mode).1.stop = some text) :
    c.pos ≤ c.source.size := by
  obtain ⟨inside, cut⟩ := Source.slice?_eq_some_iff.mp cut
  have skipped : c.pos ≤ (c.scan mode).1.start := Nat.le_add_right _ _
  have ordered := Text.le_of_slice? cut
  omega

/-- Reading moves the cursor only if there is a token. -/
theorem read_eq (mode : Mode) (c : Cursor) :
    c.read mode = match c.slice? (c.scan mode).1.start (c.scan mode).1.stop with
      | none => (.error .misaligned, c)
      | some text =>
        match Token.ofLexeme c.source.text (c.scan mode).1 text with
        | .ok token => (.ok token, (c.scan mode).2)
        | .error d => (.error (.diagnostic d), c) := by
  have same : (c.scan mode).2.slice? = c.slice? := rfl
  simp only [read, same]
  cases cut : c.slice? (c.scan mode).1.start (c.scan mode).1.stop with
  | none => rfl
  | some text =>
    dsimp only
    cases Token.ofLexeme c.source.text (c.scan mode).1 text with
    | ok token => rfl
    | error d => exact congrArg (Prod.mk _) (moveTo_of_le rfl (pos_le_size_of_slice? cut))

theorem read_eq_ok_iff {mode : Mode} {c c' : Cursor} {t : Token} :
    c.read mode = (.ok t, c') ↔
      ∃ text, c.source.slice? (c.scan mode).1.start (c.scan mode).1.stop = some text ∧
        Token.ofLexeme c.source.text (c.scan mode).1 text = .ok t ∧ (c.scan mode).2 = c' := by
  simp only [read_eq, slice?]
  cases c.source.slice? (c.scan mode).1.start (c.scan mode).1.stop with
  | none => simp
  | some text =>
    cases decoded : Token.ofLexeme c.source.text (c.scan mode).1 text <;> simp [decoded]

theorem read_ok {mode : Mode} {c c' : Cursor} {t : Token} (fetched : c.read mode = (.ok t, c')) :
    Reads mode c t c' := by
  obtain ⟨text, cut, decoded, rfl⟩ := read_eq_ok_iff.mp fetched
  have landed := scan_pos_of_slice? cut
  rcases Token.ofLexeme_ok decoded with ⟨k, payload, _, _, rfl⟩ | ⟨terminator, rfl⟩
  · exact ⟨rfl, ⟨text, decoded⟩, rfl, landed.symm, cut⟩
  · -- A terminator has no length, so that its text is the empty slice.
    have still : (c.scan mode).1.stop = (c.scan mode).1.start := by
      have nothing : (c.scan mode).1.length = 0 := Munch.length_of_isTerminator terminator
      rw [Lexeme.stop, nothing, Nat.add_zero]
    rw [still] at landed cut
    have blank : text = "" := Text.eq_empty_of_slice? (Source.slice?_eq_some_iff.mp cut).2
    rw [blank] at cut
    exact ⟨rfl, ⟨text, decoded⟩, rfl, landed.symm, cut⟩

theorem read_error {mode : Mode} {c c' : Cursor} {failure : Failure}
    (refused : c.read mode = (.error failure, c')) :
    c' = c ∧ (failure = .misaligned →
        c.source.slice? (c.scan mode).1.start (c.scan mode).1.stop = none) ∧
      ∀ d, failure = .diagnostic d →
        ∃ text, c.source.slice? (c.scan mode).1.start (c.scan mode).1.stop = some text ∧
          Token.ofLexeme c.source.text (c.scan mode).1 text = .error d := by
  rw [read_eq] at refused
  cases cut : c.slice? (c.scan mode).1.start (c.scan mode).1.stop with
  | none =>
    rw [cut] at refused
    cases refused
    exact ⟨rfl, fun _ => cut, fun d named => nomatch named⟩
  | some text =>
    rw [cut] at refused
    dsimp only at refused
    cases decoded : Token.ofLexeme c.source.text (c.scan mode).1 text with
    | ok token => rw [decoded] at refused; cases refused
    | error d =>
      rw [decoded] at refused
      cases refused
      refine ⟨rfl, fun named => (nomatch named), fun d' named => ?_⟩
      cases named
      exact ⟨text, cut, decoded⟩

/-- Reading may start behind the white space: the answer is the same. -/
theorem read_skipSpace (mode : Mode) (c : Cursor) :
    (c.skipSpace.read mode).1 = (c.read mode).1 ∧
      ∀ t c', c.read mode = (.ok t, c') → c.skipSpace.read mode = (.ok t, c') := by
  have source : c.skipSpace.source = c.source := rfl
  have slice : c.skipSpace.slice? = c.slice? := rfl
  -- Both scans find the same lexeme, so the same text is cut and decoded.
  simp only [read_eq, scan_skipSpace, source, slice]
  cases cut : c.slice? (c.scan mode).1.start (c.scan mode).1.stop with
  | none => exact ⟨rfl, fun t c' fetched => nomatch fetched⟩
  | some text =>
    dsimp only
    cases decoded : Token.ofLexeme c.source.text (c.scan mode).1 text with
    | ok token => exact ⟨rfl, fun t c' fetched => fetched⟩
    | error d => exact ⟨rfl, fun t c' fetched => nomatch fetched⟩

namespace Reads

variable {mode : Mode} {c c' : Cursor} {t : Token}

theorem source_eq (reads : Reads mode c t c') : c'.source = c.source := by
  rw [reads.left]
  rfl

theorem stop_le_size (reads : Reads mode c t c') : t.span.stop ≤ c.source.size :=
  (Source.slice?_eq_some_iff.mp reads.cut).1

theorem start_le_stop (reads : Reads mode c t c') : t.span.start ≤ t.span.stop :=
  Text.le_of_slice? (Source.slice?_eq_some_iff.mp reads.cut).2

end Reads

end Cursor

end CurveScript
