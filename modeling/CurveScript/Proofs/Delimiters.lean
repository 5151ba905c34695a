import CurveScript.Proofs.Alphabet
import CurveScript.Proofs.LongestMatch

/-! # Words end where a bare word ends

White space, `;` and `#` keep lexemes apart. None of them can continue a lexeme, so that what
is munched before such a byte does not depend on it or on anything behind it:
`Munch.ofBytes_before_break`. A string is the only word that may contain such bytes, and it is
settled by its closing quote. -/

namespace CurveScript

namespace Munch

variable {mode : Mode} {k : Class} {w : List Byte}

theorem ofBytes_word (member : w ∈ k.words mode) : ofBytes mode w = ⟨.lexeme k, w.length⟩ := by
  obtain ⟨k', tagged, long, unique⟩ := ofBytes_covers member []
  rw [List.append_nil] at tagged long unique
  have length : w.length = (ofBytes mode w).length := Nat.le_antisymm long (length_le mode w)
  rw [unique length] at tagged
  cases munch : ofBytes mode w with
  | mk tag n =>
    rw [munch] at tagged length
    rw [← tagged, length]

theorem ne_nil_of_mem (member : w ∈ k.words mode) : w ≠ [] := by
  intro empty
  have munch := ofBytes_word member
  rw [empty] at munch
  cases munch

theorem word_of_ofBytes {r : List Byte} {n : Nat} (munch : ofBytes mode r = ⟨.lexeme k, n⟩) :
    ∃ v ∈ k.words mode, v <+: r ∧ v.length = n := by
  have munched := ofBytes_munched mode r
  rw [munch] at munched
  cases munched with
  | word _ rest member => exact ⟨_, member, List.prefix_append _ rest, rfl⟩

theorem head_quoted (member : w ∈ Class.quoted.words mode) : w.head? = some Byte.quote := by
  obtain ⟨front, joined, close, _, rfl⟩ := Language.mem_mul.mp member
  obtain ⟨start, started, u, _, rfl⟩ := Language.mem_mul.mp joined
  rw [Grammar.mem_mark.mp started]
  rfl

theorem eq_quoted_of_head (member : w ∈ k.words mode) (head : w.head? = some Byte.quote) :
    k = .quoted := by
  cases w with
  | nil => cases head
  | cons b rest =>
    cases head
    have tagged : (ofQuoted rest).tag = .lexeme k := congrArg Munch.tag (ofBytes_word member)
    simp only [ofQuoted] at tagged
    split at tagged
    · cases tagged
      rfl
    · cases tagged

theorem head_unspaced (member : w ∈ k.words mode) : ∀ b ∈ w.head?, b.isSpace = false := by
  intro b head
  rcases Class.words_cases member with rfl | ⟨op, s, inSpellings, rfl⟩ | lexical
  · rw [head_quoted member] at head
    cases head
    rfl
  · have listed : ∀ op ∈ Operator.all, ∀ s ∈ op.spellings,
        ∀ b ∈ (Text.bytes s).head?, b.isSpace = false := by
      decide +kernel
    exact listed op (Operator.mem_all op) s inSpellings b head
  · have outside := Byte.imp_of_all (q := fun b => !b.isSpace) (by decide +kernel)
      (lexical b (List.mem_of_mem_head? head))
    simpa using outside

/-- There is no white space to skip before a word. -/
theorem run_space_of_mem (member : w ∈ k.words mode) (s : List Byte) :
    Byte.run Byte.isSpace (w ++ s) = 0 := by
  have unspaced := head_unspaced member
  cases w with
  | nil => exact absurd rfl (ne_nil_of_mem member)
  | cons b rest => simp [Byte.run_cons, unspaced b rfl]

/-- Only a string goes on over a byte that ends a bare word. -/
theorem quoted_of_break {u t : List Byte} {d : Byte} (nonempty : u ≠ [])
    (member : u ++ d :: t ∈ k.words mode) (stops : d.isWordByte = false) : k = .quoted := by
  by_contra unquoted
  have inside : d ∈ (u ++ d :: t).tail := by
    rw [List.tail_append_of_ne_nil nonempty]
    simp
  rw [Class.words_solid unquoted member d inside] at stops
  cases stops

/-- What is munched in front of a byte that ends a bare word, or in front of the end, does not
    depend on what follows there. -/
theorem ofBytes_before_break {u x y : List Byte} {n : Nat}
    (munch : ofBytes mode (u ++ x) = ⟨.lexeme k, n⟩) (short : n ≤ u.length)
    (stops : y.head?.any Byte.isWordByte = false) :
    ofBytes mode (u ++ y) = ⟨.lexeme k, n⟩ := by
  obtain ⟨v, member, begins, rfl⟩ := word_of_ofBytes munch
  obtain ⟨r, rfl⟩ := List.prefix_of_prefix_length_le begins (List.prefix_append u x) short
  by_cases quoted : k = .quoted
  · subst quoted
    rw [List.append_assoc]
    exact ofBytes_quoted member _
  · -- The new munch is a word as well, and it is no shorter.
    obtain ⟨k', tagged, long, unique⟩ := ofBytes_covers member (r ++ y)
    rw [← List.append_assoc] at tagged long unique
    generalize munch' : ofBytes mode (v ++ r ++ y) = m at tagged long unique ⊢
    obtain ⟨tag, n⟩ := m
    cases tagged
    obtain ⟨v', member', begins', rfl⟩ := word_of_ofBytes munch'
    dsimp only at long unique
    have nonempty := ne_nil_of_mem member
    have within : v'.length ≤ (v ++ r).length := by
      by_contra longer
      -- It would go on over the break, which only a string does, and a string starts with
      -- a quote, as the first munch would have to as well.
      apply quoted
      obtain ⟨t, rfl⟩ := List.prefix_of_prefix_length_le (List.prefix_append _ y) begins' (by omega)
      cases t with
      | nil => simp at longer
      | cons d t =>
        obtain ⟨tail, joined⟩ := (List.prefix_append_right_inj _).mp begins'
        have stopped : d.isWordByte = false := by
          rw [← joined] at stops
          exact stops
        have string := quoted_of_break (by simp [nonempty]) member' stopped
        subst string
        have head := head_quoted member'
        rw [List.append_assoc, List.head?_append_of_ne_nil _ nonempty] at head
        exact eq_quoted_of_head member head
    have inside : v' <+: v ++ r ++ x :=
      (List.prefix_of_prefix_length_le begins' (List.prefix_append _ y) within).trans
        (List.prefix_append _ x)
    obtain ⟨s, joined⟩ := inside
    have least : v'.length ≤ v.length := by
      obtain ⟨_, _, least, _⟩ := ofBytes_covers member' s
      rw [joined, munch] at least
      exact least
    have same : v.length = v'.length := Nat.le_antisymm long least
    rw [unique same, same]

end Munch

end CurveScript
