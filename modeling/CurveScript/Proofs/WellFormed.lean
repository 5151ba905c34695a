import CurveScript.Proofs.Delimiters
import CurveScript.Proofs.Outcome

/-! # Tokens that are handed out

Nothing in the type of tokens ties kind, text, place and payload together. The tokens that a
reader hands out come from four sources only: words of a class, the empty token that marks the
end, and the two sorts of text taken as it stands. Main ingredients:

* `Operator.mem_spellings_iff`, `Operator.fixed?_eq_some_iff` and `Kind.fixed?_lexeme`, by which
  the tables of the scan, of the tags, of the kinds and of the map from tags to kinds agree;
* `Token.Spells mode k t`, which says that the text of `t` is a word of the class `k` and its
  payload is what the word denotes;
* `Cursor.spells_of_read`, for every token that is read;
* `Token.WellFormed f t`, what holds of every token that a fetch `f` hands out;
* `Reachable.call_wellFormed`, that it does hold. -/

namespace CurveScript

/-! ## Payloads -/

theorem Payload.ofBytes?_sort {k : Class} {w : List Byte} {payload : Payload}
    (valued : ofBytes? k w = some payload) :
    ((∃ x, payload = .number x) ↔ k = .number) ∧ ((∃ d, payload = .dataset d) ↔ k = .dataset) := by
  cases k with
  | number =>
    obtain ⟨d, _, rfl⟩ := Option.map_eq_some_iff.mp valued
    simp
  | dataset =>
    obtain ⟨d, _, rfl⟩ := Option.map_eq_some_iff.mp valued
    simp
  | _ =>
    cases valued
    simp

/-! ## Tables that agree

How operators are written is said in the list of their spellings, in the rules that take them, in
the texts of tags and in the names of kinds, and a map leads from tags to kinds. -/

namespace Operator

/-- A text is scanned as an operator, and as nothing else, if it is one of its spellings. -/
theorem mem_spellings_iff {op : Operator} {s : String} (mode : Mode) : s ∈ op.spellings ↔
    Munch.ofBytes mode (Text.bytes s) = ⟨.lexeme (.operator op), (Text.bytes s).length⟩ := by
  constructor
  · intro inSpellings
    have member : Text.bytes s ∈ (Class.operator op).words mode := ⟨s, inSpellings, rfl⟩
    obtain ⟨k, tagged, long, unique⟩ := Munch.ofBytes_covers member []
    rw [List.append_nil] at tagged long unique
    have whole := Nat.le_antisymm long (Munch.length_le mode _)
    rw [unique whole] at tagged
    rw [← tagged, whole]
  · intro munch
    obtain ⟨v, ⟨u, inSpellings, rfl⟩, begins, length⟩ := Munch.word_of_ofBytes munch
    rwa [← Text.bytes_injective (begins.eq_of_length length)]

/-- The texts of tags are the spellings of the operators that have only one. -/
theorem fixed?_eq_some_iff {op : Operator} {l : String} :
    op.fixed? = some l ↔ op.spellings = [l] := by
  cases op <;> simp [fixed?, spellings]

end Operator

namespace Kind

/-- A tag and the kind that it becomes have the same text, or both have none. -/
theorem fixed?_lexeme (k : Class) : (lexeme k).fixed? = k.fixed? := by
  cases k with
  | operator op => cases op <;> rfl
  | _ => rfl

/-- An operator is named by its first spelling. -/
theorem name_lexeme (op : Operator) :
    op.spellings.head? = some (lexeme (.operator op)).name := by
  cases op <;> rfl

end Kind

/-! ## Words of a class -/

namespace Token

/-- The token is a word of a class, and its payload is what the word denotes. -/
structure Spells (mode : Mode) (k : Class) (t : Token) : Prop where
  kind_eq : t.kind = .lexeme k
  word : Text.bytes t.text ∈ k.words mode
  payload_eq : Payload.ofBytes? k (Text.bytes t.text) = some t.payload

namespace Spells

variable {mode : Mode} {k : Class} {t : Token}

theorem kind_eq_iff (spells : t.Spells mode k) {k' : Class} : t.kind = .lexeme k' ↔ k = k' := by
  rw [spells.kind_eq, Kind.lexeme_inj]

theorem text_ne_empty (spells : t.Spells mode k) : t.text ≠ "" := by
  intro empty
  have nonempty := Munch.ne_nil_of_mem spells.word
  rw [empty] at nonempty
  exact nonempty rfl

theorem text_mem_spellings {op : Operator} (spells : t.Spells mode (.operator op)) :
    t.text ∈ op.spellings := by
  obtain ⟨s, member, spelled⟩ := spells.word
  rwa [Text.bytes_injective spelled]

end Spells

end Token

/-- A token that is read is a word of a class, unless it marks the end. -/
theorem Cursor.spells_of_read {mode : Mode} {c behind : Cursor} {t : Token}
    (fetched : c.read mode = (.ok t, behind)) :
    (∃ k, t.Spells mode k) ∨ t = .nop c.skipSpace.pos := by
  obtain ⟨text, cut, decoded, _⟩ := read_eq_ok_iff.mp fetched
  rcases Token.ofLexeme_ok decoded with ⟨k, payload, tagged, valued, rfl⟩ | ⟨_, rfl⟩
  · refine .inl ⟨k, rfl, ?_, valued⟩
    have munch : Munch.ofBytes mode c.skipSpace.rest = ⟨.lexeme k, (c.scan mode).1.length⟩ := by
      rw [← tagged]
      rfl
    obtain ⟨v, member, ⟨rest, joined⟩, length⟩ := Munch.word_of_ofBytes munch
    have bytes : Text.bytes text = v := by
      rw [Source.bytes_of_slice? cut, List.extract_eq_take_drop, Lexeme.stop,
        Nat.add_sub_cancel_left, ← length]
      change c.skipSpace.rest.take v.length = v
      rw [← joined, List.take_left]
    rw [bytes]
    exact member
  · exact .inr rfl

/-! ## Well-formed tokens -/

namespace Token

/-- What holds of every token that a fetch `f` hands out. -/
structure WellFormed (f : Fetch) (t : Token) : Prop where
  /-- Parsed pieces of a command are not handed out. -/
  unparsed : t.kind ≠ .expr ∧ t.kind ≠ .varExpr
  word : t.kind = .word → f = .word
  rest : t.kind = .rest → f = .restOfCommand ∨ f = .restOfLine
  number : (∃ x, t.payload = .number x) ↔ t.kind = .number
  dataset : (∃ d, t.payload = .dataset d) ↔ t.kind = .dataset
  absent : t.kind ≠ .number → t.kind ≠ .dataset → t.payload = .absent
  nop : t.kind = .nop ↔ t.span.start = t.span.stop ∧ t.text = "" ∧ t.kind ≠ .rest
  fixed : ∀ l, t.kind.fixed? = some l → t.text = l
  notEq : t.kind = .notEq → t.text = "!=" ∨ t.text = "<>"
  dots : t.kind = .dots → t.text = ".." ∨ t.text = "..."
  /-- A token has the text of the tag that it was made from, if that has one. -/
  tagged : ∀ source lexeme text, ofLexeme source lexeme text = .ok t →
    t.kind.fixed? = lexeme.tag.fixed?

variable {f : Fetch} {t : Token}

theorem fixed?_of_ofLexeme {source text : String} {lexeme : Lexeme}
    (decoded : ofLexeme source lexeme text = .ok t) : t.kind.fixed? = lexeme.tag.fixed? := by
  rcases ofLexeme_ok decoded with ⟨k, _, tagged, _, rfl⟩ | ⟨terminator, rfl⟩
  · rw [tagged]
    exact Kind.fixed?_lexeme k
  · cases tagged : lexeme.tag with
    | comment | endOfText => rfl
    | _ => rw [tagged] at terminator; cases terminator

theorem Spells.wellFormed {mode : Mode} {k : Class} (spells : t.Spells mode k) :
    t.WellFormed f where
  unparsed := by simp [spells.kind_eq]
  word := by simp [spells.kind_eq]
  rest := by simp [spells.kind_eq]
  number := (Payload.ofBytes?_sort spells.payload_eq).1.trans spells.kind_eq_iff.symm
  dataset := (Payload.ofBytes?_sort spells.payload_eq).2.trans spells.kind_eq_iff.symm
  absent := by
    obtain ⟨number, dataset⟩ := Payload.ofBytes?_sort spells.payload_eq
    intro other other'
    cases payload : t.payload with
    | absent => rfl
    | number x => exact absurd (spells.kind_eq_iff.mpr (number.mp ⟨x, payload⟩)) other
    | dataset d => exact absurd (spells.kind_eq_iff.mpr (dataset.mp ⟨d, payload⟩)) other'
  nop := by simp [spells.kind_eq, spells.text_ne_empty]
  fixed := by
    intro l fixed
    rw [spells.kind_eq, Kind.fixed?_lexeme] at fixed
    cases k with
    | operator op =>
      have text := spells.text_mem_spellings
      rw [Operator.fixed?_eq_some_iff.mp fixed] at text
      exact List.mem_singleton.mp text
    | _ => cases fixed
  -- The two operators with a second spelling have no fixed text.
  notEq := by
    intro same
    obtain rfl : k = .operator .notEq := spells.kind_eq_iff.mp same
    simpa [Operator.spellings] using spells.text_mem_spellings
  dots := by
    intro same
    obtain rfl : k = .operator .dots := spells.kind_eq_iff.mp same
    simpa [Operator.spellings] using spells.text_mem_spellings
  tagged := fun _ _ _ => fixed?_of_ofLexeme

theorem wellFormed_nop (p : Nat) : (nop p).WellFormed f := by
  constructor
  case tagged => exact fun _ _ _ => fixed?_of_ofLexeme
  all_goals simp [nop, Span.point, Kind.fixed?]

theorem wellFormed_word {text : String} {start stop : Nat} (proper : start < stop) :
    WellFormed .word ⟨.word, text, ⟨start, stop⟩, .absent⟩ := by
  have apart : start ≠ stop := Nat.ne_of_lt proper
  constructor
  case tagged => exact fun _ _ _ => fixed?_of_ofLexeme
  all_goals simp [apart, Kind.fixed?]

theorem wellFormed_rest {text : String} {span : Span}
    (fetch : f = .restOfCommand ∨ f = .restOfLine) :
    WellFormed f ⟨.rest, text, span, .absent⟩ := by
  constructor
  case tagged => exact fun _ _ _ => fixed?_of_ofLexeme
  all_goals simp [fetch, Kind.fixed?]

end Token

/-! ## Fetched tokens -/

namespace Cursor

variable {c behind : Cursor} {f : Fetch} {t : Token}

theorem wellFormed_of_read {mode : Mode} (fetched : c.read mode = (.ok t, behind)) :
    t.WellFormed f := by
  rcases spells_of_read fetched with ⟨k, spells⟩ | rfl
  · exact spells.wellFormed
  · exact Token.wellFormed_nop _

theorem Takes.wellFormed (takes : Takes c f t behind) : t.WellFormed f := by
  cases takes with
  | passed _ fetched => exact wellFormed_of_read fetched
  | cut stretch _ =>
    cases stretch with
    | @word t behind fetched proper =>
      apply Token.wellFormed_word
      -- The word holds at least the token that it was grown from, which is no end.
      have reads := read_ok fetched
      rcases spells_of_read fetched with ⟨k, spells⟩ | rfl
      · have apart : t.span.start ≠ t.span.stop := by
          intro same
          have cut := reads.cut
          rw [same] at cut
          exact spells.text_ne_empty
            (Text.eq_empty_of_slice? (Source.slice?_eq_some_iff.mp cut).2)
        have ordered := reads.start_le_stop
        rw [← reads.start_eq]
        change t.span.start < behind.pos + Byte.run Byte.isWordByte behind.rest
        rw [← reads.stop_eq]
        omega
      · cases proper
    | restOfCommand _ _ => exact Token.wellFormed_rest (.inl rfl)
    | restOfLine => exact Token.wellFormed_rest (.inr rfl)

end Cursor

theorem Reader.Fetched.wellFormed {r : Reader} {f : Fetch} {t : Token}
    {answer : Except Failure Token × Reader} (fetched : Reader.Fetched r f answer)
    (ok : answer.1 = .ok t) : t.WellFormed f := by
  cases fetched with
  | refused _ | uncut _ | mismatched _ _ => cases ok
  | peeked read =>
    cases ok
    exact Cursor.wellFormed_of_read read
  | absent _ _ =>
    cases ok
    exact Token.wellFormed_nop _
  | taken takes =>
    cases ok
    exact takes.wellFormed

/-- Every token that a call hands out comes from a fetch and is well formed. -/
theorem Reachable.call_wellFormed {text : String} {seen : List Token} {r : Reader} {call : Call}
    {t : Token} (reachable : Reachable text seen r) (handed : (r.call call).1.token? = some t) :
    ∃ f, call = .fetch f ∧ t.WellFormed f := by
  obtain ⟨f, rfl, ok⟩ := Reader.fetch_of_token? handed
  have fetched := Reader.fetch_fetched reachable.intact.coherent f
  exact ⟨f, rfl, fetched.wellFormed ok⟩

theorem Reachable.call_wellFormed_grown :
    ∃ seen r t, Reachable "@1x" seen r ∧ (r.call (.fetch .word)).1.token? = some t ∧
      t = ⟨.word, "@1x", ⟨0, 3⟩, .absent⟩ ∧
      ∃ f, Call.fetch .word = .fetch f ∧ t.WellFormed f := by
  have beginning : Reachable "@1x" [] (.ofText "@1x") := .start
  have selected := beginning.call (.fetch .next) trivial
  -- The selector is given back before the word is fetched.
  have owned : (Call.pushBack ⟨.dataset, "@1", ⟨0, 2⟩, .dataset (.index 1)⟩).Owned
      (((Reader.ofText "@1x").call (.fetch .next)).1.token?.toList ++ []) := by
    unfold Call.Owned
    decide +kernel
  have reachable := selected.call _ owned
  have handed : ((((Reader.ofText "@1x").call (.fetch .next)).2.call (.pushBack
      ⟨.dataset, "@1", ⟨0, 2⟩, .dataset (.index 1)⟩)).2.call (.fetch .word)).1.token? =
        some ⟨.word, "@1x", ⟨0, 3⟩, .absent⟩ := by
    decide +kernel
  exact ⟨_, _, _, reachable, handed, rfl, Reachable.call_wellFormed reachable handed⟩

end CurveScript
