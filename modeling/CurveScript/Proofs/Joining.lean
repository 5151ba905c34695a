import CurveScript.Proofs.Extension

/-! # Joining commands

Reading two texts joined by white space or by `;` gives the tokens of the first and behind
them, moved, those of the second: `tokenize_join`. The first text has to be read to its end for
that; if its scan ended at a comment, all that follows is part of the comment. -/

namespace CurveScript

/-! ## The mark between two commands -/

namespace Munch

theorem ofBytes_semicolon {mode : Mode} (rest : List Byte) :
    ofBytes mode (Byte.semicolon :: rest) = ⟨.lexeme (.operator .semicolon), 1⟩ := by
  -- No longer operator begins with this byte.
  change ofOpening ⟨.semicolon, []⟩ rest = _
  cases rest <;> rfl

end Munch

/-- The mark between two commands, as a token. -/
def Token.semicolon (p : Nat) : Token :=
  ⟨.semicolon, ";", ⟨p, p + 1⟩, .absent⟩

/-! ## The second part -/

theorem Token.shift_shift (n m : Nat) (t : Token) : (t.shift n).shift m = t.shift (m + n) := by
  simp only [shift, Nat.add_assoc, Nat.add_comm n]

theorem Failure.relocate_relocate (text text' : String) (n m : Nat) (failure : Failure) :
    (failure.relocate text n).relocate text' m = failure.relocate text' (m + n) := by
  cases failure with
  | misaligned => rfl
  | diagnostic d => simp only [relocate, Diagnostic.locate, Nat.add_assoc, Nat.add_comm n]

/-- The result for a text that stands `n` bytes behind the start of a longer one, with the
    tokens `front` before it. -/
def continued (text : String) (n : Nat) (front : List Token)
    (result : Except Failure (List Token)) : Except Failure (List Token) :=
  (result.map (front ++ ·.map (Token.shift n))).mapError (Failure.relocate text n)

theorem continued_continued (text text' : String) (n m : Nat) (front front' : List Token)
    (result : Except Failure (List Token)) :
    continued text' m front' (continued text n front result) =
      continued text' (m + n) (front' ++ front.map (Token.shift m)) result := by
  cases result with
  | ok ts =>
    simp [continued, Except.map, Except.mapError, Function.comp_def, Token.shift_shift]
  | error failure =>
    simp [continued, Except.map, Except.mapError, Failure.relocate_relocate]

theorem tokens_carried {s t : String} (zeroFree : 0 ∉ Text.bytes s)
    (short : (Text.bytes (s ++ t)).length ≤ maxFragment) :
    (Cursor.mk (Source.ofText (s ++ t)) (Text.bytes s).length).tokens =
      continued (s ++ t) (Text.bytes s).length [] (tokenize t) := by
  have carried := Cursor.tokens_carry (c := Cursor.ofText t) (Source.carries_append zeroFree short)
  have here : (Cursor.ofText t).carry (Text.bytes s).length (Source.ofText (s ++ t)) =
      Cursor.mk (Source.ofText (s ++ t)) (Text.bytes s).length :=
    congrArg (Cursor.mk _) (Nat.zero_add _)
  rw [← here, carried]
  rfl

theorem zeroFree_of_space {sep : String} (spaces : ∀ b ∈ Text.bytes sep, b.isSpace = true) :
    0 ∉ Text.bytes sep := by
  intro member
  cases spaces 0 member

theorem tokenize_space {sep b : String} (spaces : ∀ x ∈ Text.bytes sep, x.isSpace = true)
    (short : (Text.bytes (sep ++ b)).length ≤ maxFragment) :
    tokenize (sep ++ b) = continued (sep ++ b) (Text.bytes sep).length [] (tokenize b) := by
  have zeroFree := zeroFree_of_space spaces
  have ahead : (Cursor.ofText (sep ++ b)).rest = Text.bytes sep ++ fragment b :=
    fragment_append zeroFree short
  have read := Cursor.tokens_gap ahead spaces
  rw [tokenize, read, ← tokens_carried zeroFree short]
  exact congrArg (fun p => (Cursor.mk _ p).tokens) (Nat.zero_add _)

/-- A text that starts with a lexeme has the token of that lexeme read first. -/
theorem Cursor.read_word {mode : Mode} {s b : String} {k : Class} {payload : Payload}
    {tail : List Byte} (ahead : fragment (s ++ b) = Text.bytes s ++ tail)
    (member : Text.bytes s ∈ k.words mode)
    (munch : Munch.ofBytes mode (Text.bytes s ++ tail) = ⟨.lexeme k, (Text.bytes s).length⟩)
    (valued : Payload.ofBytes? k (Text.bytes s) = some payload) :
    (ofText (s ++ b)).read mode = (.ok ⟨.lexeme k, s, ⟨0, (Text.bytes s).length⟩, payload⟩,
      ⟨Source.ofText (s ++ b), (Text.bytes s).length⟩) := by
  have still : (ofText (s ++ b)).skipSpace = ofText (s ++ b) := by
    apply skipWhile_of_run
    change Byte.run Byte.isSpace (fragment (s ++ b)) = 0
    rw [ahead, Munch.run_space_of_mem member]
  have size : (Text.bytes s).length ≤ (Source.ofText (s ++ b)).size := by
    change _ ≤ (fragment (s ++ b)).length
    rw [ahead, List.length_append]
    exact Nat.le_add_right _ _
  have scanned : (ofText (s ++ b)).scan mode = (⟨.lexeme k, 0, (Text.bytes s).length⟩,
      ⟨Source.ofText (s ++ b), (Text.bytes s).length⟩) := by
    have landed : (ofText (s ++ b)).advance (Text.bytes s).length =
        ⟨Source.ofText (s ++ b), (Text.bytes s).length⟩ := by
      apply congrArg (Cursor.mk _)
      change min (0 + (Text.bytes s).length) (Source.ofText (s ++ b)).size = (Text.bytes s).length
      omega
    have munched : Munch.ofBytes mode (ofText (s ++ b)).rest =
        ⟨.lexeme k, (Text.bytes s).length⟩ := by
      rw [← munch, ← ahead]
      rfl
    simp only [scan, still, munched, landed]
    rfl
  have cut : (Source.ofText (s ++ b)).slice? 0 (Text.bytes s).length = some s := by
    apply Source.slice?_eq_some_iff.mpr
    exact ⟨size, (Text.slice?_append_left (Nat.le_refl _)).trans (Text.slice?_whole s)⟩
  apply read_eq_ok_iff.mpr
  rw [scanned]
  refine ⟨s, by rwa [Lexeme.stop, Nat.zero_add], ?_, rfl⟩
  simp only [Token.ofLexeme, valued, Lexeme.stop, Nat.zero_add]

/-- A text that starts with a lexeme reads as the token of that lexeme and what follows it. -/
theorem tokenize_word {s b : String} {k : Class} {payload : Payload} (zeroFree : 0 ∉ Text.bytes s)
    (short : (Text.bytes (s ++ b)).length ≤ maxFragment)
    (member : Text.bytes s ∈ k.words .normal)
    (munch : Munch.ofBytes .normal (Text.bytes s ++ fragment b) =
      ⟨.lexeme k, (Text.bytes s).length⟩)
    (valued : Payload.ofBytes? k (Text.bytes s) = some payload) :
    tokenize (s ++ b) = continued (s ++ b) (Text.bytes s).length
      [⟨.lexeme k, s, ⟨0, (Text.bytes s).length⟩, payload⟩] (tokenize b) := by
  have fetched := Cursor.read_word (fragment_append zeroFree short) member munch valued
  rw [tokenize, Cursor.tokens_of_ok fetched, tokens_carried zeroFree short, Token.isNop_lexeme]
  cases tokenize b <;> rfl

theorem tokenize_semicolon {b : String} (short : (Text.bytes (";" ++ b)).length ≤ maxFragment) :
    tokenize (";" ++ b) = continued (";" ++ b) 1 [.semicolon 0] (tokenize b) := by
  have member : Text.bytes ";" ∈ (Class.operator .semicolon).words .normal :=
    ⟨";", by decide, rfl⟩
  exact tokenize_word (by decide) short member (Munch.ofBytes_semicolon _) rfl

/-! ## The first part -/

/-- The tag of the lexeme with which the scan of a text ends. -/
def scanEnd (text : String) : Option Tag :=
  ((Cursor.ofText text).lexemes .normal).getLast?.map Lexeme.tag

theorem lexemes_of_scanEnd {a : String} {tag : Tag} (ended : scanEnd a = some tag) :
    ∃ last, ((Cursor.ofText a).lexemes .normal).getLast? = some last ∧
      last.start ≤ (fragment a).length ∧
      Munch.ofBytes .normal ((fragment a).drop last.start) = ⟨tag, last.length⟩ := by
  obtain ⟨last, found, rfl⟩ := Option.map_eq_some_iff.mp ended
  obtain ⟨_, inside, munch⟩ := Cursor.lexemes_last found (Nat.zero_le _)
  exact ⟨last, found, inside, munch⟩

theorem fragment_of_zeroFree {s : String} (zeroFree : 0 ∉ Text.bytes s)
    (short : (Text.bytes s).length ≤ maxFragment) : fragment s = Text.bytes s := by
  have whole := fragment_append (t := "") zeroFree (by rwa [String.append_empty])
  rw [String.append_empty] at whole
  rw [whole]
  exact List.append_nil _

theorem tokenize_append {a z : String} {ta : List Token} (zeroFree : 0 ∉ Text.bytes a)
    (short : (Text.bytes (a ++ z)).length ≤ maxFragment) (tokenized : tokenize a = .ok ta)
    (ended : scanEnd a = some .endOfText)
    (stops : (fragment z).head?.any Byte.isWordByte = false) :
    tokenize (a ++ z) = continued (a ++ z) (Text.bytes a).length ta (tokenize z) := by
  have whole := fragment_of_zeroFree zeroFree (Text.length_le_of_append short).1
  obtain ⟨last, found, inside, munch⟩ := lexemes_of_scanEnd ended
  have nothing := Munch.eq_nil_of_endOfText munch
  -- The scan of `a` ends where `z` starts, and goes on there in the longer text.
  have finish : last.start = (Text.bytes a).length := by
    rw [List.drop_eq_nil_iff] at nothing
    rw [← whole]
    omega
  obtain ⟨tail, begins⟩ := Source.begins_append a z
  have same : tail = fragment z := by
    have joined : fragment (a ++ z) = fragment a ++ tail := begins.bytes_eq
    rw [fragment_append zeroFree short, whole] at joined
    exact (List.append_cancel_left joined).symm
  have stopped : ((fragment a).drop last.start ++ tail).head?.any Byte.isWordByte = false := by
    rw [nothing, same]
    exact stops
  have read := Cursor.tokens_begins (c := Cursor.ofText a) begins (Nat.zero_le _) found stopped
    ta tokenized
  rw [finish, tokens_carried zeroFree short] at read
  change (Cursor.ofText (a ++ z)).tokens = _ at read
  rw [tokenize, read]
  cases tokenize z <;> rfl

/-! ## Joined texts -/

theorem stops_of_space {sep b : String} (spaces : ∀ x ∈ Text.bytes sep, x.isSpace = true)
    (nonempty : sep ≠ "") (short : (Text.bytes (sep ++ b)).length ≤ maxFragment) :
    (fragment (sep ++ b)).head?.any Byte.isWordByte = false := by
  rw [fragment_append (zeroFree_of_space spaces) short]
  cases bytes : Text.bytes sep with
  | nil => exact absurd (Text.bytes_injective (bytes.trans rfl)) nonempty
  | cons x rest =>
    have space := spaces x (by rw [bytes]; exact List.mem_cons_self)
    have outside := Byte.imp_of_all (q := fun b => !b.isWordByte) (by decide +kernel) space
    simpa using outside

theorem tokenize_join_space {a sep b : String} {ta : List Token} (zeroFree : 0 ∉ Text.bytes a)
    (short : (Text.bytes (a ++ sep ++ b)).length ≤ maxFragment) (tokenized : tokenize a = .ok ta)
    (ended : scanEnd a = some .endOfText) (nonempty : sep ≠ "")
    (spaces : ∀ x ∈ Text.bytes sep, x.isSpace = true) :
    tokenize (a ++ sep ++ b) = continued (a ++ sep ++ b)
      ((Text.bytes a).length + (Text.bytes sep).length) ta (tokenize b) := by
  rw [String.append_assoc] at short ⊢
  have shorter := (Text.length_le_of_append short).2
  have stops := stops_of_space spaces nonempty shorter
  rw [tokenize_append zeroFree short tokenized ended stops, tokenize_space spaces shorter,
    continued_continued, List.map_nil, List.append_nil]

theorem tokenize_join_semicolon {a b : String} {ta : List Token} (zeroFree : 0 ∉ Text.bytes a)
    (short : (Text.bytes (a ++ ";" ++ b)).length ≤ maxFragment) (tokenized : tokenize a = .ok ta)
    (ended : scanEnd a = some .endOfText) :
    tokenize (a ++ ";" ++ b) = continued (a ++ ";" ++ b) ((Text.bytes a).length + 1)
      (ta ++ [.semicolon (Text.bytes a).length]) (tokenize b) := by
  rw [String.append_assoc] at short ⊢
  have shorter := (Text.length_le_of_append short).2
  have stops : (fragment (";" ++ b)).head?.any Byte.isWordByte = false := by
    rw [fragment_append (by decide) shorter]
    rfl
  have mark : (Token.semicolon 0).shift (Text.bytes a).length =
      .semicolon (Text.bytes a).length := by
    simp [Token.shift, Token.semicolon, Nat.add_comm]
  rw [tokenize_append zeroFree short tokenized ended stops, tokenize_semicolon shorter,
    continued_continued, List.map_singleton, mark]

theorem tokenize_comment {a : String} {ta : List Token} (tokenized : tokenize a = .ok ta)
    (ended : scanEnd a = some .comment) (x : String) : tokenize (a ++ x) = .ok ta := by
  obtain ⟨last, found, inside, munch⟩ := lexemes_of_scanEnd ended
  obtain ⟨rest, ahead⟩ := Munch.eq_hash_of_comment munch
  obtain ⟨tail, begins⟩ := Source.begins_append a x
  -- The break is the `#` itself, whatever follows it.
  have stops : ((fragment a).drop last.start ++ tail).head?.any Byte.isWordByte = false := by
    rw [ahead]
    rfl
  have read := Cursor.tokens_begins (c := Cursor.ofText a) begins (Nat.zero_le _) found stops
    ta tokenized
  have comment : (Cursor.mk (Source.ofText (a ++ x)) last.start).rest =
      Byte.hash :: (rest ++ tail) := by
    have longer := Cursor.rest_begins (c := Cursor.mk (Source.ofText a) last.start) begins inside
    have here : (Cursor.mk (Source.ofText a) last.start).rest = Byte.hash :: rest := ahead
    rw [here] at longer
    exact longer
  rw [Cursor.tokens_comment comment] at read
  change (Cursor.ofText (a ++ x)).tokens = .ok (ta ++ []) at read
  rw [List.append_nil] at read
  exact read

theorem tokenize_ok_or_diagnostic {text : String} (fits : (Source.ofText text).Fits) :
    (∃ ts, tokenize text = .ok ts) ∨ ∃ d, tokenize text = .error (.diagnostic d) := by
  obtain ⟨_, _, _, _, _, decodes⟩ :=
    (Cursor.ofText text).lexemes_decodes fits (Source.aligned_zero _)
  rcases decodes.ok_or_blamed with ok | ⟨_, _, _, d, _, _, _, _, failed⟩
  · exact .inl ok
  · exact .inr ⟨d, failed⟩

/-- The result `whole` is that of a text whose end alone has the result `tail`: the tokens
    `front` come first, and everything in the end stands `n` bytes later. -/
structure Continues (n : Nat) (front : List Token) (tail whole : Except Failure (List Token)) :
    Prop where
  ok : ∀ ts, tail = .ok ts → whole = .ok (front ++ ts.map (Token.shift n))
  error : ∀ failure, tail = .error failure → ∃ d near, failure = .diagnostic d ∧
    whole = .error (.diagnostic ⟨d.cause, d.offset + n, near⟩)

theorem continues_of_eq {b text : String} {n : Nat} {front : List Token}
    {whole : Except Failure (List Token)} (short : (Text.bytes b).length ≤ maxFragment)
    (joined : whole = continued text n front (tokenize b)) :
    Continues n front (tokenize b) whole := by
  have fits : (Source.ofText b).Fits :=
    Nat.le_trans (List.takeWhile_prefix _).length_le short
  rcases tokenize_ok_or_diagnostic fits with ⟨ts, read⟩ | ⟨d, failed⟩
  · rw [read] at joined ⊢
    refine ⟨?_, ?_⟩
    · intro us same
      cases same
      exact joined
    · intro failure same
      cases same
  · rw [failed] at joined ⊢
    refine ⟨?_, ?_⟩
    · intro us same
      cases same
    · intro failure same
      cases same
      exact ⟨d, _, rfl, joined⟩

/-- Reading commutes with joining. With white space between two texts the tokens of the first are
    followed by those of the second, moved; with `;` there is one token more between them. What
    is wrong in the second text is wrong in the same way, at an offset that is moved alike.
    Behind a comment nothing is read. -/
theorem tokenize_join {a : String} {ta : List Token} (zeroFree : 0 ∉ Text.bytes a)
    (tokenized : tokenize a = .ok ta) (sep b : String) :
    (scanEnd a = some .endOfText → (Text.bytes (a ++ sep ++ b)).length ≤ maxFragment →
      (sep ≠ "" → (∀ x ∈ Text.bytes sep, x.isSpace = true) →
        Continues ((Text.bytes a).length + (Text.bytes sep).length) ta (tokenize b)
          (tokenize (a ++ sep ++ b))) ∧
      (sep = ";" →
        Continues ((Text.bytes a).length + 1) (ta ++ [.semicolon (Text.bytes a).length])
          (tokenize b) (tokenize (a ++ sep ++ b)))) ∧
    (scanEnd a = some .comment → ∀ x, tokenize (a ++ x) = .ok ta) := by
  refine ⟨?_, tokenize_comment tokenized⟩
  intro ended short
  have shorter := (Text.length_le_of_append short).2
  constructor
  · intro nonempty spaces
    exact continues_of_eq shorter
      (tokenize_join_space zeroFree short tokenized ended nonempty spaces)
  · intro semicolon
    subst semicolon
    exact continues_of_eq shorter (tokenize_join_semicolon zeroFree short tokenized ended)

theorem tokenize_join_exponent :
    (0 ∉ Text.bytes "(2e" ∧ ∃ ta, tokenize "(2e" = .ok ta ∧ scanEnd "(2e" = some .endOfText ∧
      Continues 5 ta (tokenize "1.5 'q") (tokenize ("(2e" ++ " \t" ++ "1.5 'q")) ∧
      Continues 4 (ta ++ [.semicolon 3]) (tokenize "@3 #c") (tokenize ("(2e" ++ ";" ++ "@3 #c"))) ∧
    (0 ∉ Text.bytes "e#" ∧ ∃ te, tokenize "e#" = .ok te ∧ scanEnd "e#" = some .comment ∧
      tokenize ("e#" ++ "r;s\x00") = .ok te) := by
  have zeroFree : 0 ∉ Text.bytes "(2e" := by decide
  have zeroFree' : 0 ∉ Text.bytes "e#" := by decide
  have ended : scanEnd "(2e" = some .endOfText := by decide +kernel
  have ended' : scanEnd "e#" = some .comment := by decide +kernel
  have read : tokenize "(2e" = .ok [⟨.lparen, "(", ⟨0, 1⟩, .absent⟩,
      ⟨.number, "2", ⟨1, 2⟩, .number ⟨4611686018427387904⟩⟩,
      ⟨.lowerName, "e", ⟨2, 3⟩, .absent⟩] := by
    decide +kernel
  have read' : tokenize "e#" = .ok [⟨.lowerName, "e", ⟨0, 1⟩, .absent⟩] := by
    decide +kernel
  have spaced := tokenize_join zeroFree read " \t" "1.5 'q"
  have marked := tokenize_join zeroFree read ";" "@3 #c"
  have commented := tokenize_join zeroFree' read' "" ""
  refine ⟨⟨zeroFree, _, read, ended, ?_, ?_⟩, zeroFree', _, read', ended', ?_⟩
  · exact (spaced.1 ended (by decide)).1 (by decide) (by decide +kernel)
  · exact (marked.1 ended (by decide)).2 rfl
  · exact commented.2 ended' "r;s\x00"

end CurveScript
