import CurveScript.Proofs.Joining
import CurveScript.Proofs.WellFormed

/-! # Reading the texts of tokens again

Tokens may touch each other in a text. If their texts are written again with white space
between them, reading gives the same tokens at other places: `tokenize_respaced`. Each token is
a word of its class, and a word that is followed by white space is munched as it is alone. -/

namespace CurveScript

/-! ## Tokens of a text -/

/-- Every token that is read without a failure is a word of its class, with no zero byte. -/
theorem Cursor.tokens_spell {c : Cursor} {ts : List Token} (read : c.tokens = .ok ts) :
    ∀ t ∈ ts, (∃ k, t.Spells .normal k) ∧ 0 ∉ Text.bytes t.text := by
  induction ts generalizing c with
  | nil => simp
  | cons t ts inductionHypothesis =>
    obtain ⟨t', behind, fetched, ⟨_, empty⟩ | ⟨proper, us, others, same⟩⟩ := tokens_ok read
    · cases empty
    · cases same
      intro u member
      cases member with
      | head =>
        constructor
        · rcases spells_of_read fetched with spells | rfl
          · exact spells
          · cases proper
        · rw [Source.bytes_of_slice? (read_ok fetched).cut, List.extract_eq_take_drop]
          intro member
          exact c.source.zeroFree (List.mem_of_mem_drop (List.mem_of_mem_take member))
      | tail _ member => exact inductionHypothesis others u member

/-! ## Writing tokens with separators between them -/

/-- The texts of tokens in order, each but the last one followed by its separator. -/
def respaced : List Token → List String → String
  | [], _ => ""
  | t :: ts, seps => t.text ++ seps.headD "" ++ respaced ts seps.tail

/-- The tokens moved to the places where `respaced` puts their texts, with the first one at
    offset `p`. -/
def relocated (p : Nat) : List Token → List String → List Token
  | [], _ => []
  | t :: ts, seps =>
    { t with span := ⟨p, p + (Text.bytes t.text).length⟩ } ::
      relocated (p + (Text.bytes t.text).length + (Text.bytes (seps.headD "")).length) ts seps.tail

theorem relocated_shift (n p : Nat) (ts : List Token) (seps : List String) :
    (relocated p ts seps).map (Token.shift n) = relocated (p + n) ts seps := by
  induction ts generalizing p seps with
  | nil => rfl
  | cons t ts inductionHypothesis =>
    simp only [relocated, List.map_cons, inductionHypothesis, Token.shift]
    simp only [Nat.add_right_comm _ _ n]

theorem relocated_same (p : Nat) (ts : List Token) (seps : List String) :
    List.Forall₂ (fun t u => u.kind = t.kind ∧ u.text = t.text ∧ u.payload = t.payload) ts
      (relocated p ts seps) := by
  induction ts generalizing p seps with
  | nil => exact .nil
  | cons t ts inductionHypothesis => exact .cons ⟨rfl, rfl, rfl⟩ (inductionHypothesis _ _)

theorem tokenize_spelled {t : Token} {k : Class} {sep b : String} (spells : t.Spells .normal k)
    (zeroFree : 0 ∉ Text.bytes t.text)
    (short : (Text.bytes (t.text ++ sep ++ b)).length ≤ maxFragment)
    (spaces : ∀ x ∈ Text.bytes sep, x.isSpace = true)
    (stops : (fragment (sep ++ b)).head?.any Byte.isWordByte = false) :
    tokenize (t.text ++ sep ++ b) = continued (t.text ++ sep ++ b)
      ((Text.bytes t.text).length + (Text.bytes sep).length)
      [{ t with span := ⟨0, (Text.bytes t.text).length⟩ }] (tokenize b) := by
  rw [String.append_assoc] at short ⊢
  have shorter := (Text.length_le_of_append short).2
  have munch : Munch.ofBytes .normal (Text.bytes t.text ++ []) =
      ⟨.lexeme k, (Text.bytes t.text).length⟩ := by
    rw [List.append_nil]
    exact Munch.ofBytes_word spells.word
  rw [tokenize_word zeroFree short spells.word
      (Munch.ofBytes_before_break munch (Nat.le_refl _) stops) spells.payload_eq,
    tokenize_space spaces shorter, continued_continued, ← spells.kind_eq, List.map_nil,
    List.append_nil]

theorem tokenize_respaced_of_spells {ts : List Token} {seps : List String}
    (spell : ∀ t ∈ ts, (∃ k, t.Spells .normal k) ∧ 0 ∉ Text.bytes t.text)
    (count : seps.length = ts.length - 1)
    (spaces : ∀ sep ∈ seps, sep ≠ "" ∧ ∀ x ∈ Text.bytes sep, x.isSpace = true)
    (short : (Text.bytes (respaced ts seps)).length ≤ maxFragment) :
    tokenize (respaced ts seps) = .ok (relocated 0 ts seps) := by
  induction ts generalizing seps with
  | nil =>
    have nothing : tokenize "" = .ok [] := by decide +kernel
    exact nothing
  | cons t ts inductionHypothesis =>
    obtain ⟨⟨k, spells⟩, zeroFree⟩ := spell t List.mem_cons_self
    rw [respaced] at short ⊢
    have shorter : (Text.bytes (seps.headD "" ++ respaced ts seps.tail)).length ≤ maxFragment := by
      rw [String.append_assoc] at short
      exact (Text.length_le_of_append short).2
    have rest : tokenize (respaced ts seps.tail) = .ok (relocated 0 ts seps.tail) := by
      apply inductionHypothesis
      · exact fun u member => spell u (List.mem_cons_of_mem t member)
      · rw [List.length_tail, count, List.length_cons, Nat.add_sub_cancel]
      · exact fun sep member => spaces sep (List.mem_of_mem_tail member)
      · exact (Text.length_le_of_append shorter).2
    have separated : (∀ x ∈ Text.bytes (seps.headD ""), x.isSpace = true) ∧
        (fragment (seps.headD "" ++ respaced ts seps.tail)).head?.any Byte.isWordByte = false := by
      cases seps with
      | nil =>
        -- There is no separator behind the last token, and no text either.
        have last : ts = [] := by simpa using count.symm
        subst last
        exact ⟨by decide +kernel, by decide +kernel⟩
      | cons sep seps =>
        obtain ⟨nonempty, blank⟩ := spaces sep List.mem_cons_self
        exact ⟨blank, stops_of_space blank nonempty shorter⟩
    rw [tokenize_spelled spells zeroFree short separated.1 separated.2, rest]
    change Except.ok (_ :: (relocated 0 ts seps.tail).map (Token.shift _)) = _
    rw [relocated_shift, relocated]
    simp only [Nat.zero_add]

/-- Tokens survive being written and read again. Whatever white space is put between their
    texts, and whether or not there was any before, the same tokens are read: only their places
    differ, which are those where the texts were put. -/
theorem tokenize_respaced {source : String} {ts : List Token} (tokenized : tokenize source = .ok ts)
    (seps : List String) (count : seps.length = ts.length - 1)
    (spaces : ∀ sep ∈ seps, sep ≠ "" ∧ ∀ x ∈ Text.bytes sep, x.isSpace = true)
    (short : (Text.bytes (respaced ts seps)).length ≤ maxFragment) :
    tokenize (respaced ts seps) = .ok (relocated 0 ts seps) ∧
      List.Forall₂ (fun t u => u.kind = t.kind ∧ u.text = t.text ∧ u.payload = t.payload) ts
        (relocated 0 ts seps) :=
  ⟨tokenize_respaced_of_spells (Cursor.tokens_spell tokenized) count spaces short,
    relocated_same 0 ts seps⟩

theorem tokenize_respaced_touching :
    ∃ ts, tokenize ">>=2e" = .ok ts ∧ respaced ts [" ", "\t ", "\n"] = ">> =\t 2\ne" ∧
      tokenize ">> =\t 2\ne" = .ok (relocated 0 ts [" ", "\t ", "\n"]) ∧
      List.Forall₂ (fun t u => u.kind = t.kind ∧ u.text = t.text ∧ u.payload = t.payload) ts
        (relocated 0 ts [" ", "\t ", "\n"]) := by
  have read : tokenize ">>=2e" = .ok [⟨.append, ">>", ⟨0, 2⟩, .absent⟩,
      ⟨.assign, "=", ⟨2, 3⟩, .absent⟩,
      ⟨.number, "2", ⟨3, 4⟩, .number ⟨4611686018427387904⟩⟩,
      ⟨.lowerName, "e", ⟨4, 5⟩, .absent⟩] := by
    decide +kernel
  have again := tokenize_respaced read [" ", "\t ", "\n"] rfl (by decide +kernel) (by decide)
  exact ⟨_, read, by decide, again⟩

end CurveScript
