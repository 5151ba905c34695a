import CurveScript.Proofs.Delimiters
import CurveScript.Proofs.Placement

/-! # A text with more behind it

The lexemes of a text stay what they are if more is put behind it, provided that what comes
next cannot be part of a bare word. The scan of a text ends at its end or at a `#`, so that
there is one place to look at: `Cursor.tokens_begins` reads the tokens of the shorter text and
goes on from there. -/

namespace CurveScript

theorem Byte.run_append_of_lt {p : Byte → Bool} {w : List Byte} (short : run p w < w.length)
    (x : List Byte) : run p (w ++ x) = run p w := by
  unfold run at *
  rw [List.takeWhile_append, if_neg (by omega)]

/-! ## Where the scan ends -/

namespace Munch

variable {mode : Mode} {w : List Byte} {n : Nat}

theorem eq_nil_of_endOfText (munch : ofBytes mode w = ⟨.endOfText, n⟩) : w = [] := by
  have terminator : (ofBytes mode w).tag.isTerminator = true := by
    rw [munch]
    rfl
  rcases isTerminator_iff.mp terminator with empty | ⟨rest, rfl⟩
  · exact empty
  · cases munch

theorem eq_hash_of_comment (munch : ofBytes mode w = ⟨.comment, n⟩) :
    ∃ rest, w = Byte.hash :: rest := by
  have terminator : (ofBytes mode w).tag.isTerminator = true := by
    rw [munch]
    rfl
  rcases isTerminator_iff.mp terminator with rfl | comment
  · cases munch
  · exact comment

end Munch

namespace Source

/-- The fragment of `s'` is that of `s` with `tail` behind it, and the two texts agree there. -/
structure Begins (tail : List Byte) (s s' : Source) : Prop where
  bytes_eq : s'.bytes = s.bytes ++ tail
  slice?_eq : ∀ start stop, stop ≤ s.size → s'.slice? start stop = s.slice? start stop

theorem begins_append (a z : String) : ∃ tail, (ofText a).Begins tail (ofText (a ++ z)) := by
  obtain ⟨tail, joined⟩ := fragment_prefix_append a z
  have whole : (ofText (a ++ z)).bytes = (ofText a).bytes ++ tail := joined.symm
  refine ⟨tail, whole, ?_⟩
  intro start stop inside
  have longer : (ofText a).size ≤ (ofText (a ++ z)).size := by
    rw [size, size, whole, List.length_append]
    omega
  have same : Text.slice? (a ++ z) start stop = Text.slice? a start stop :=
    Text.slice?_append_left (Nat.le_trans inside (ofText a).size_le)
  change (if stop ≤ (ofText (a ++ z)).size then Text.slice? (a ++ z) start stop else none) =
    if stop ≤ (ofText a).size then Text.slice? a start stop else none
  rw [if_pos inside, if_pos (Nat.le_trans inside longer), same]

end Source

namespace Cursor

variable {mode : Mode} {c behind : Cursor} {s' : Source} {tail : List Byte} {t : Token}

/-! ## Scanning and reading before a break -/

theorem rest_begins (begins : c.source.Begins tail s') (inside : c.pos ≤ c.source.size) :
    (c.carry 0 s').rest = c.rest ++ tail := by
  change s'.bytes.drop c.pos = _
  rw [begins.bytes_eq, List.drop_append_of_le_length inside, rest]

theorem skipSpace_begins (begins : c.source.Begins tail s') (inside : c.pos ≤ c.source.size)
    (more : c.skipSpace.rest ≠ []) : (c.carry 0 s').skipSpace = c.skipSpace.carry 0 s' := by
  have short : Byte.run Byte.isSpace c.rest < c.rest.length := by
    rw [skipSpace, rest_skipWhile, ← List.length_pos_iff, List.length_drop] at more
    omega
  unfold skipSpace skipWhile
  rw [rest_begins begins inside, Byte.run_append_of_lt short]
  rfl

/-- A lexeme that ends before some break is munched alike, whatever follows the break. -/
theorem munch_begins {k : Class} {n p : Nat}
    (munch : Munch.ofBytes mode c.rest = ⟨.lexeme k, n⟩) (before : c.pos + n ≤ p)
    (stops : (c.source.bytes.drop p ++ tail).head?.any Byte.isWordByte = false) :
    Munch.ofBytes mode (c.rest ++ tail) = ⟨.lexeme k, n⟩ := by
  have cut : c.rest.drop (p - c.pos) = c.source.bytes.drop p := by
    rw [rest, List.drop_drop]
    congr 1
    omega
  have length : n ≤ c.rest.length := by
    have least := Munch.length_le mode c.rest
    rwa [munch] at least
  rw [← List.take_append_drop (p - c.pos) c.rest, cut] at munch ⊢
  rw [List.append_assoc]
  apply Munch.ofBytes_before_break munch _ stops
  rw [List.length_take]
  omega

theorem scan_begins (begins : c.source.Begins tail s') {k : Class} {p : Nat}
    (tagged : (c.scan mode).1.tag = .lexeme k) (inside : (c.scan mode).1.stop ≤ c.source.size)
    (before : (c.scan mode).1.stop ≤ p)
    (stops : (c.source.bytes.drop p ++ tail).head?.any Byte.isWordByte = false) :
    (c.carry 0 s').scan mode = ((c.scan mode).1, (c.scan mode).2.carry 0 s') := by
  generalize munch : Munch.ofBytes mode c.skipSpace.rest = m
  obtain ⟨tag, n⟩ := m
  have scanned : c.scan mode = (⟨tag, c.skipSpace.pos, n⟩, c.skipSpace.advance n) := by
    simp only [scan, munch]
  simp only [scanned, Lexeme.stop] at tagged inside before ⊢
  subst tagged
  have more : c.skipSpace.rest ≠ [] := by
    intro empty
    rw [empty] at munch
    cases munch
  have start : c.skipSpace.pos ≤ c.source.size := by omega
  have skipped := skipSpace_begins begins (Nat.le_trans (Nat.le_add_right _ _) start) more
  have rest : (c.skipSpace.carry 0 s').rest = c.skipSpace.rest ++ tail :=
    rest_begins (c := c.skipSpace) begins start
  -- The lexeme lies inside the shorter source, so that neither cursor is held up by an end.
  have landed : (c.skipSpace.carry 0 s').advance n = (c.skipSpace.advance n).carry 0 s' := by
    have longer : s'.size = c.source.size + tail.length := by
      rw [Source.size, begins.bytes_eq, List.length_append, Source.size]
    have here : min (c.skipSpace.pos + n) s'.size = min (c.skipSpace.pos + n) c.source.size := by
      omega
    exact congrArg (Cursor.mk s') here
  simp only [scan, skipped, rest, munch_begins (c := c.skipSpace) munch before stops, landed]
  rfl

theorem read_begins (begins : c.source.Begins tail s') (fetched : c.read .normal = (.ok t, behind))
    (proper : t.isNop = false) {p : Nat} (before : behind.pos ≤ p)
    (stops : (c.source.bytes.drop p ++ tail).head?.any Byte.isWordByte = false) :
    (c.carry 0 s').read .normal = (.ok t, behind.carry 0 s') := by
  obtain ⟨text, cut, decoded, rfl⟩ := read_eq_ok_iff.mp fetched
  have inside := (Source.slice?_eq_some_iff.mp cut).1
  rw [scan_pos_of_slice? cut] at before
  rcases Token.ofLexeme_ok decoded with ⟨k, _, tagged, _⟩ | ⟨_, rfl⟩
  · have scanned := scan_begins begins tagged inside before stops
    have moved := Token.ofLexeme_shift c.source.text s'.text 0 (c.scan .normal).1 text
    rw [decoded] at moved
    apply read_eq_ok_iff.mpr
    rw [scanned]
    exact ⟨text, (begins.slice?_eq _ _ inside).trans cut, moved, rfl⟩
  · cases proper

/-! ## The whole scan -/

theorem getLast?_lexemes {last : Lexeme} (l : Lexeme)
    (ended : (l :: c.lexemes mode).getLast? = some last) :
    (c.lexemes mode).getLast? = some last := by
  cases lexemes : c.lexemes mode with
  | nil =>
    rw [Cursor.lexemes] at lexemes
    split at lexemes <;> cases lexemes
  | cons first rest =>
    rw [lexemes, List.getLast?_cons_cons] at ended
    exact ended

/-- The last lexeme stands before the end, and it is what is munched where it starts. -/
theorem lexemes_last {last : Lexeme} (ended : (c.lexemes mode).getLast? = some last)
    (inside : c.pos ≤ c.source.size) :
    c.pos ≤ last.start ∧ last.start ≤ c.source.size ∧
      Munch.ofBytes mode (c.source.bytes.drop last.start) = ⟨last.tag, last.length⟩ := by
  fun_induction lexemes mode c with
  | case1 c lexeme terminator =>
    cases ended
    have most := Byte.run_le_length Byte.isSpace c.rest
    rw [rest_length] at most
    refine ⟨Nat.le_add_right _ _, ?_, rfl⟩
    change c.pos + Byte.run Byte.isSpace c.rest ≤ c.source.size
    omega
  | case2 c lexeme proper inductionHypothesis =>
    have forward : c.pos ≤ (c.scan mode).2.pos := by
      change c.pos ≤ min (c.pos + _ + _) c.source.size
      omega
    have ended := getLast?_lexemes _ ended
    obtain ⟨first, finish⟩ := inductionHypothesis ended (Nat.min_le_right _ _)
    exact ⟨Nat.le_trans forward first, finish⟩

theorem tokens_ok {ts : List Token} (read : c.tokens = .ok ts) :
    ∃ t behind, c.read .normal = (.ok t, behind) ∧
      (t.isNop = true ∧ ts = [] ∨
        t.isNop = false ∧ ∃ us, behind.tokens = .ok us ∧ ts = t :: us) := by
  rcases c.read_cases .normal with ⟨t, behind, fetched⟩ | ⟨failure, refused⟩
  · refine ⟨t, behind, fetched, ?_⟩
    rw [tokens_of_ok fetched] at read
    cases nop : t.isNop with
    | true =>
      rw [nop, if_pos rfl] at read
      cases read
      exact .inl ⟨rfl, rfl⟩
    | false =>
      rw [nop, if_neg Bool.false_ne_true] at read
      cases others : behind.tokens with
      | ok us =>
        rw [others] at read
        cases read
        exact .inr ⟨rfl, us, rfl, rfl⟩
      | error failure =>
        rw [others] at read
        cases read
  · rw [tokens_of_error refused] at read
    cases read

theorem isTerminator_of_read (fetched : c.read mode = (.ok t, behind)) :
    (c.scan mode).1.tag.isTerminator = t.isNop := by
  obtain ⟨text, decoded⟩ := (read_ok fetched).decoded
  rcases Token.ofLexeme_ok decoded with ⟨k, _, tagged, _, rfl⟩ | ⟨terminator, rfl⟩
  · rw [tagged, Token.isNop_lexeme]
    rfl
  · exact terminator

theorem tokens_skipSpace (c : Cursor) : c.skipSpace.tokens = c.tokens := by
  obtain ⟨same, again⟩ := c.read_skipSpace .normal
  rcases c.read_cases .normal with ⟨t, behind, fetched⟩ | ⟨failure, refused⟩
  · rw [tokens_of_ok fetched, tokens_of_ok (again t behind fetched)]
  · have refused' : c.skipSpace.read .normal = (.error failure, (c.skipSpace.read .normal).2) := by
      rw [refused] at same
      exact Prod.ext same rfl
    rw [tokens_of_error refused, tokens_of_error refused']

theorem tokens_gap {gap r : List Byte} (ahead : c.rest = gap ++ r)
    (spaces : ∀ b ∈ gap, b.isSpace = true) :
    c.tokens = (Cursor.mk c.source (c.pos + gap.length)).tokens := by
  have behind : (Cursor.mk c.source (c.pos + gap.length)).rest = r := by
    change c.source.bytes.drop (c.pos + gap.length) = r
    rw [← List.drop_drop, ← rest, ahead, List.drop_left]
  have same : c.skipSpace = (Cursor.mk c.source (c.pos + gap.length)).skipSpace := by
    unfold skipSpace skipWhile
    rw [behind, ahead, Byte.run_append spaces, Nat.add_assoc]
  rw [← tokens_skipSpace, same, tokens_skipSpace]

/-- The tokens of a text stay what they are if more follows, as long as the lexeme that ended
    the scan is followed by nothing that could continue the one before it. Reading then goes
    on where the scan ended. -/
theorem tokens_begins {last : Lexeme} (begins : c.source.Begins tail s')
    (inside : c.pos ≤ c.source.size) (ended : (c.lexemes .normal).getLast? = some last)
    (stops : (c.source.bytes.drop last.start ++ tail).head?.any Byte.isWordByte = false) :
    ∀ ts, c.tokens = .ok ts →
      (c.carry 0 s').tokens = (Cursor.mk s' last.start).tokens.map (ts ++ ·) := by
  fun_induction lexemes .normal c with
  | case1 c lexeme terminator =>
    intro ts read
    cases ended
    obtain ⟨t, behind, fetched, ⟨_, rfl⟩ | ⟨proper, _⟩⟩ := tokens_ok read
    · -- White space at the end joins the white space that follows.
      obtain ⟨gap, r, ahead, length, spaces, _⟩ := Byte.run_split Byte.isSpace c.rest
      have longer : (c.carry 0 s').rest = gap ++ (r ++ tail) := by
        rw [rest_begins begins inside, ahead, List.append_assoc]
      have finish : (c.scan .normal).1.start = c.pos + gap.length := congrArg (c.pos + ·) length
      rw [tokens_gap longer spaces]
      change (Cursor.mk s' (c.pos + gap.length)).tokens =
        (Cursor.mk s' (c.scan .normal).1.start).tokens.map ([] ++ ·)
      rw [finish]
      cases (Cursor.mk s' (c.pos + gap.length)).tokens <;> rfl
    · have nop := (isTerminator_of_read fetched).symm.trans terminator
      rw [proper] at nop
      cases nop
  | case2 c lexeme proper inductionHypothesis =>
    intro ts read
    obtain ⟨t, behind, fetched, ⟨nop, _⟩ | ⟨lexeme, us, others, rfl⟩⟩ := tokens_ok read
    · exact absurd ((isTerminator_of_read fetched).trans nop) proper
    · obtain rfl := (read_ok fetched).left
      have ended := getLast?_lexemes _ ended
      have within : (c.scan .normal).2.pos ≤ c.source.size := Nat.min_le_right _ _
      -- The token stops before the last lexeme, which is the break that keeps it as it is.
      have again := read_begins begins fetched lexeme (lexemes_last ended within).1 stops
      have rest := inductionHypothesis begins within ended stops us others
      rw [tokens_of_ok again, lexeme, if_neg Bool.false_ne_true, rest]
      cases (Cursor.mk s' last.start).tokens <;> rfl

theorem tokens_comment {rest : List Byte} (ahead : c.rest = Byte.hash :: rest) :
    c.tokens = .ok [] := by
  have here : c.source.bytes[c.pos]? = some Byte.hash := by
    rw [← List.head?_drop, ← Cursor.rest, ahead]
    rfl
  have aligned := Source.aligned_of_ascii here rfl
  obtain ⟨text, cut⟩ := Source.slice?_of_aligned aligned aligned (Nat.le_refl _)
  have still : c.skipSpace = c := by
    unfold skipSpace skipWhile
    rw [ahead]
    rfl
  have scanned : c.scan .normal = (⟨.comment, c.pos, 0⟩, c.advance 0) := by
    simp only [scan, still, ahead, Munch.ofBytes_hash]
  have fetched : c.read .normal = (.ok (.nop c.pos), c.advance 0) := by
    apply read_eq_ok_iff.mpr
    rw [scanned]
    exact ⟨text, cut, rfl, rfl⟩
  rw [tokens_of_ok fetched]
  rfl

end Cursor

end CurveScript
