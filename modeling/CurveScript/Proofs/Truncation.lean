import CurveScript.Proofs.Characters
import CurveScript.Proofs.Joining
import CurveScript.Proofs.Stops
import CurveScript.Proofs.ZeroByte

/-! # Fragments that are cut off

A fragment has no more bytes than a 32-bit offset can address. It is cut off after that many bytes,
and nothing makes sure that a character ends there. Two calls cut the text at the end of the
fragment whatever stands before it, and what they answer depends on that one place:

* If the fragment ends between two characters, a session on the text is a session on the text cut
  off there (`Source.exists_cut`, `Reachable.exists_rebase`), which fits. Both calls return.
* If it ends inside a character (`Source.Splits`), neither call ever returns
  (`Reader.breaks_of_inner`).

Only a fragment that is too long can split a character, `Source.Splits.overlong`. -/

namespace CurveScript

/-! ## Characters across an offset -/

/-- An offset that is no boundary lies inside a character. -/
theorem Text.exists_char_across {s : String} {p : Nat} (inside : p ≤ (bytes s).length)
    (inner : isBoundary s p = false) :
    ∃ q c, q < p ∧ p < q + c.utf8Size ∧ String.utf8EncodeChar c <+: (bytes s).drop q := by
  -- The character starts at the last boundary before the offset.
  generalize found : Nat.findGreatest (isBoundary s · = true) p = q
  obtain ⟨before, boundary, last⟩ := Nat.findGreatest_eq_iff.mp found
  have boundary : isBoundary s q = true := by
    rcases Nat.eq_zero_or_pos q with rfl | positive
    · exact isBoundary_zero s
    · exact boundary (Nat.ne_of_gt positive)
  have apart : q ≠ p := by
    rintro rfl
    rw [boundary] at inner
    cases inner
  obtain ⟨c, encoded, behind⟩ := char_at boundary (by omega)
  have positive := c.utf8Size_pos
  refine ⟨q, c, by omega, ?_, encoded⟩
  by_contra short
  exact last (by omega) (Nat.le_of_not_lt short) behind

namespace Source

/-- The character `c` starts in the fragment and ends behind it. -/
def Splits (source : Source) (c : Char) : Prop :=
  ∃ p, p < source.size ∧ source.size < p + c.utf8Size ∧
    String.utf8EncodeChar c <+: (Text.bytes source.text).drop p

variable {source : Source}

theorem Splits.inner {c : Char} (splits : source.Splits c) :
    Text.isBoundary source.text source.size = false := by
  obtain ⟨p, starts, ends, encoded⟩ := splits
  obtain ⟨i, finish⟩ := Nat.exists_eq_add_of_lt starts
  rw [finish, Nat.add_assoc]
  exact Text.isBoundary_inside encoded (Nat.succ_pos i) (by omega)

/-- A fragment ends on a boundary unless it splits a character. -/
theorem isBoundary_size_iff (source : Source) :
    Text.isBoundary source.text source.size = true ↔ ∀ c, ¬ source.Splits c := by
  constructor
  · intro boundary c splits
    rw [splits.inner] at boundary
    cases boundary
  · intro unsplit
    by_contra inner
    obtain ⟨p, c, splits⟩ := Text.exists_char_across source.size_le (Bool.not_eq_true _ ▸ inner)
    exact unsplit c ⟨p, splits⟩

theorem Splits.overlong {c : Char} (splits : source.Splits c) : ¬ source.Fits := by
  intro fits
  exact (isBoundary_size_iff source).mp (aligned_size fits).boundary c splits

theorem size_of_overlong (overlong : ¬ source.Fits) : source.size = maxFragment := by
  rw [size, source.bytes_eq, fragment, List.length_take]
  exact Nat.min_eq_left (Nat.le_of_not_le overlong)

/-! ## Fragments that end between characters -/

/-- A text whose fragment ends on a boundary cannot be told from the text cut off there. -/
theorem exists_cut {text : String} (boundary : Text.isBoundary text (ofText text).size = true) :
    ∃ s, (ofText s).Fits ∧ (ofText s).Alike (ofText text) := by
  obtain ⟨s, t, rfl, length⟩ := Text.isBoundary_iff_append.mp boundary
  have bytes : fragment (s ++ t) = Text.bytes s := by
    have begins := List.prefix_iff_eq_take.mp (Source.bytes_prefix (ofText (s ++ t)))
    change fragment (s ++ t) = (Text.bytes (s ++ t)).take (ofText (s ++ t)).size at begins
    rw [begins, Text.bytes_append, length, List.take_left]
  have zeroFree : 0 ∉ Text.bytes s := by
    rw [← bytes]
    exact (ofText (s ++ t)).zeroFree
  have short : (Text.bytes s).length ≤ maxFragment := by
    rw [← length]
    exact size_le_maxFragment _
  have same : fragment (s ++ t) = fragment s := by
    rw [bytes, fragment_of_zeroFree zeroFree short]
  exact ⟨s, Nat.le_trans (List.takeWhile_prefix _).length_le short, alike_of_fragment_eq same⟩

theorem Alike.firstStop {s s' : Source} (alike : s.Alike s') {stops : Byte → Bool} {start p : Nat}
    (first : s.FirstStop stops start p) : s'.FirstStop stops start p := by
  have bytes : s'.bytes = s.bytes := alike.bytes_eq
  unfold FirstStop size at *
  rw [bytes]
  exact first

end Source

/-- A session on a text hands out the tokens of a session on any text like it, and leaves the
    reader in the same place. -/
theorem Reachable.exists_rebase {text text' : String} {seen : List Token} {r : Reader}
    (alike : (Source.ofText text).Alike (Source.ofText text'))
    (reachable : Reachable text' seen r) :
    ∃ r₀, Reachable text seen r₀ ∧ r = r₀.rebase (Source.ofText text') := by
  induction reachable with
  | start => exact ⟨.ofText text, .start, rfl⟩
  | call call _ owned inductionHypothesis =>
    obtain ⟨r₀, reachable, rfl⟩ := inductionHypothesis
    rw [Reader.call_rebase alike reachable.intact call]
    exact ⟨(r₀.call call).2, reachable.call call owned, rfl⟩

/-! ## The calls that cut the text at the end -/

namespace Reader

/-- The reader hands out the whole fragment, and also what is left of it behind white space. -/
structure Finishes (source : Source) (r : Reader) : Prop where
  input : ∃ t, r.input? = some t ∧ Text.bytes t = source.bytes
  restOfLine : ∃ s rest, source.FirstStop (!·.isSpace) r.position s ∧
    Took source ⟨.rest, rest, ⟨s, source.size⟩, .absent⟩ (r.fetch .restOfLine)

/-- The reader can hand out neither. -/
structure Breaks (r : Reader) : Prop where
  input : r.input? = none
  restOfLine : r.fetch .restOfLine = (.error .misaligned, r)

variable {s s' source : Source} {r : Reader}

theorem Settled.finishes (settled : Settled source r) (fits : source.Fits) :
    r.Finishes source := by
  obtain ⟨rest, took⟩ := restOfLine_took settled fits
  exact ⟨settled.input fits, _, rest, settled.firstStop, took⟩

theorem Took.rebase {t : Token} {answer : Except Failure Token × Reader} (alike : s.Alike s')
    (took : Took s t answer) : Took s' t (answer.1, answer.2.rebase s') := by
  obtain ⟨result, cut, position, lookahead⟩ := took
  refine ⟨result, ?_, ?_, lookahead⟩
  · rw [← cut]
    exact alike.slice?_eq t.span.start t.span.stop
  · rw [position_rebase]
    exact position

theorem Finishes.rebase (alike : s.Alike s') (intact : Intact s r) (finishes : r.Finishes s) :
    (r.rebase s').Finishes s' := by
  obtain ⟨⟨t, input, bytes⟩, p, rest, first, took⟩ := finishes
  constructor
  · have answer := congrArg Prod.fst (call_rebase alike intact .input)
    refine ⟨t, (Answer.text.inj answer).trans input, ?_⟩
    rw [bytes]
    exact alike.bytes_eq.symm
  · have size : s'.size = s.size := alike.size_eq
    refine ⟨p, rest, ?_, ?_⟩
    · rw [position_rebase]
      exact alike.firstStop first
    · rw [fetch_rebase alike intact, size]
      exact took.rebase alike

/-- No text can be cut at the end of a fragment that ends inside a character. -/
theorem breaks_of_inner
    (inner : Text.isBoundary r.cursor.source.text r.cursor.source.size = false) : r.Breaks := by
  have uncut : ∀ start, r.cursor.source.slice? start r.cursor.source.size = none := by
    intro start
    cases cut : r.cursor.source.slice? start r.cursor.source.size with
    | none => rfl
    | some t =>
      rw [(Source.aligned_of_slice? cut).2.boundary] at inner
      cases inner
  have refused : ∀ start, r.cursor.skipToEnd.sliceFrom? start = none := uncut
  constructor
  · exact uncut 0
  · simp only [fetch, restOfLine, refused]

end Reader

/-- What becomes of a fragment that is cut off. Its end is a boundary unless a character is split
    there, which takes a fragment that is too long. If it is one, every reader that a session can
    reach hands out the whole fragment and the rest of the line. If it is none, no reader does. -/
theorem Reachable.finishes_unless_split {text : String} {seen : List Token} {r : Reader}
    (reachable : Reachable text seen r) :
    (Text.isBoundary text (Source.ofText text).size = true ↔
      ∀ c, ¬ (Source.ofText text).Splits c) ∧
    (∀ c, (Source.ofText text).Splits c →
      ¬ (Source.ofText text).Fits ∧ (Source.ofText text).size = maxFragment) ∧
    (Text.isBoundary text (Source.ofText text).size = true → r.Finishes (Source.ofText text)) ∧
    (Text.isBoundary text (Source.ofText text).size = false → r.Breaks) := by
  refine ⟨Source.isBoundary_size_iff _, ?_, ?_, ?_⟩
  · intro c splits
    exact ⟨splits.overlong, Source.size_of_overlong splits.overlong⟩
  · intro boundary
    -- What holds of all readers on the text cut off at its boundary carries over.
    obtain ⟨s, fits, alike⟩ := Source.exists_cut boundary
    obtain ⟨r₀, reachable₀, rfl⟩ := reachable.exists_rebase alike
    exact ((reachable₀.settled).1.finishes fits).rebase alike reachable₀.intact
  · intro inner
    apply Reader.breaks_of_inner
    rw [reachable.intact.source_eq]
    exact inner

/-! ## An accent at the limit -/

/-- So many letters and one character of two bytes. -/
def Text.accented (n : Nat) : String :=
  String.ofList (List.replicate n 'a') ++ "é"

namespace Text

theorem bytes_letters (n : Nat) :
    bytes (String.ofList (List.replicate n 'a')) = List.replicate n 0x61 := by
  have letter : String.utf8EncodeChar 'a' = [0x61] := by decide
  rw [bytes_ofList]
  induction n with
  | zero => rfl
  | succ n inductionHypothesis =>
    rw [List.replicate_succ, List.flatMap_cons, inductionHypothesis, letter]
    rfl

theorem isBoundary_accented (n p : Nat) : isBoundary (accented n) (p + n) = isBoundary "é" p := by
  have moved := isBoundary_append_right (String.ofList (List.replicate n 'a')) "é" p
  rw [bytes_letters, List.length_replicate] at moved
  exact moved

end Text

namespace Source

theorem overlong_accented {n : Nat} (long : maxFragment ≤ n + 1) :
    ¬ (ofText (Text.accented n)).Fits := by
  have bytes : Text.bytes (Text.accented n) = List.replicate n 0x61 ++ [0xC3, 0xA9] := by
    have accent : Text.bytes "é" = [0xC3, 0xA9] := by decide
    rw [Text.accented, Text.bytes_append, Text.bytes_letters, accent]
  have letters : (0 : Byte) ∉ List.replicate n 0x61 := by simp
  have accent : ([0xC3, 0xA9] : List Byte).takeWhile (· != 0) = [0xC3, 0xA9] := by decide
  unfold Fits
  change ¬ ((Text.bytes (Text.accented n)).takeWhile (· != 0)).length ≤ maxFragment
  rw [bytes, takeWhile_zeroFree letters, accent, List.length_append, List.length_replicate,
    List.length_cons, List.length_singleton]
  omega

end Source

/-- Where the limit falls between letters and accent, the fragment ends on a boundary although it
    is too long. -/
theorem Reachable.finishes_unless_split_between :
    ∃ seen r, Reachable (Text.accented maxFragment) seen r ∧
      ¬ (Source.ofText (Text.accented maxFragment)).Fits ∧
      Text.isBoundary (Text.accented maxFragment)
        (Source.ofText (Text.accented maxFragment)).size = true ∧
      r.Finishes (Source.ofText (Text.accented maxFragment)) := by
  have beginning : Reachable (Text.accented maxFragment) [] (.ofText (Text.accented maxFragment)) :=
    .start
  have peeked := beginning.call (.fetch .peek) trivial
  have overlong := Source.overlong_accented (Nat.le_succ maxFragment)
  have boundary : Text.isBoundary (Text.accented maxFragment)
      (Source.ofText (Text.accented maxFragment)).size = true := by
    have between := Text.isBoundary_accented maxFragment 0
    rw [Nat.zero_add] at between
    rw [Source.size_of_overlong overlong, between]
    exact Text.isBoundary_zero "é"
  obtain ⟨_, _, finishes, _⟩ := peeked.finishes_unless_split
  exact ⟨_, _, peeked, overlong, boundary, finishes boundary⟩

/-- One letter less, and the limit falls inside the accent. -/
theorem Reader.breaks_inside_accent :
    Text.isBoundary (Text.accented (maxFragment - 1))
      (Source.ofText (Text.accented (maxFragment - 1))).size = false ∧
    Reachable (Text.accented (maxFragment - 1)) [] (.ofText (Text.accented (maxFragment - 1))) ∧
    (Reader.ofText (Text.accented (maxFragment - 1))).input? = none ∧
    (Reader.ofText (Text.accented (maxFragment - 1))).restOfLine =
      (.error .misaligned, .ofText (Text.accented (maxFragment - 1))) := by
  have limit : 1 + (maxFragment - 1) = maxFragment := by decide
  have overlong := Source.overlong_accented (n := maxFragment - 1) (by omega)
  have inner : Text.isBoundary (Text.accented (maxFragment - 1))
      (Source.ofText (Text.accented (maxFragment - 1))).size = false := by
    have inside := Text.isBoundary_accented (maxFragment - 1) 1
    rw [limit] at inside
    rw [Source.size_of_overlong overlong, inside]
    decide
  obtain ⟨input, restOfLine⟩ :=
    Reader.breaks_of_inner (r := .ofText (Text.accented (maxFragment - 1))) inner
  exact ⟨inner, .start, input, restOfLine⟩

end CurveScript
