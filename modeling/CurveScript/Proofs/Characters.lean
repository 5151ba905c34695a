import CurveScript.Proofs.MachineWords
import CurveScript.Proofs.Placement
import Mathlib.Data.Nat.Find
import Mathlib.Logic.Function.Iterate
import Mathlib.Order.Bounds.Basic
import Mathlib.Order.Interval.Set.Defs

/-! # Cursors and characters

The first byte of a character tells its width, so that a cursor can move from character to
character without looking at the others:

* `Cursor.advanceChar_least`, that a move over one character ends at the next boundary;
* `Cursor.characters_boundaries`, that such moves visit all boundaries of a fragment.

`Cursor.Sound` puts together what holds of a cursor that has been moved about. -/

namespace CurveScript

/-! ## Character after character -/

/-- No boundary lies inside a character. -/
theorem Text.isBoundary_inside {s : String} {p i : Nat} {c : Char}
    (encoded : String.utf8EncodeChar c <+: (bytes s).drop p) (after : 0 < i)
    (before : i < c.utf8Size) : isBoundary s (p + i) = false := by
  obtain ⟨tail, whole⟩ := encoded
  rw [← String.length_utf8EncodeChar] at before
  have found : (bytes s)[p + i]? = some (String.utf8EncodeChar c)[i] := by
    rw [← List.getElem?_drop, ← whole, List.getElem?_append_left before]
    exact List.getElem?_eq_getElem before
  rw [← Bool.not_eq_true, isBoundary_iff_first]
  rintro (finish | ⟨b, same, first⟩)
  · rw [finish, List.getElem?_length] at found
    cases found
  · rw [found] at same
    cases same
    rw [UInt8.isUTF8FirstByte_getElem_utf8EncodeChar] at first
    omega

namespace Cursor

variable {c : Cursor}

/-- A move over a character ends at the next boundary. -/
theorem advanceChar_least (fits : c.source.Fits) (aligned : c.source.Aligned c.pos)
    (before : c.pos < c.source.size) :
    IsLeast {q | c.source.Aligned q ∧ c.pos < q} c.advanceChar.pos := by
  obtain ⟨char, encoded, behind⟩ := Source.char_at fits aligned before
  have width : c.current.charWidth = char.utf8Size := by
    rw [List.drop_eq_getElem_cons before] at encoded
    rw [current, Source.byteAt, List.getD_eq_getElem?_getD, List.getElem?_eq_getElem before]
    exact (Byte.char_head encoded).2
  have reached : c.advanceChar.pos = c.pos + char.utf8Size := by
    rw [advanceChar, width]
    exact Nat.min_eq_left behind.inside
  have positive := char.utf8Size_pos
  rw [reached]
  refine ⟨⟨behind, by omega⟩, ?_⟩
  rintro q ⟨aligned', after⟩
  -- A boundary that comes earlier would lie inside the character.
  by_contra short
  obtain ⟨i, rfl⟩ := Nat.exists_eq_add_of_lt after
  obtain ⟨tail, whole⟩ := c.source.bytes_prefix
  have inText : String.utf8EncodeChar char <+: (Text.bytes c.source.text).drop c.pos := by
    rw [← whole, List.drop_append_of_le_length aligned.inside]
    exact encoded.trans (List.prefix_append _ _)
  have inner := Text.isBoundary_inside (i := i + 1) inText (Nat.succ_pos i) (by omega)
  rw [← Nat.add_assoc, aligned'.boundary] at inner
  cases inner

theorem advanceChar_end (finish : c.pos = c.source.size) : c.advanceChar = c := by
  have still : min (c.pos + c.current.charWidth) c.source.size = c.pos := by omega
  rw [advanceChar, advance, moveTo, still]

/-- How far the first `n` characters of a text reach. -/
def characters (text : String) (n : Nat) : Nat :=
  (advanceChar^[n] (ofText text)).pos

variable {text : String}

theorem characters_placed (fits : (Source.ofText text).Fits) (n : Nat) :
    (advanceChar^[n] (ofText text)).source = .ofText text ∧
      (Source.ofText text).Aligned (characters text n) := by
  induction n with
  | zero => exact ⟨rfl, Source.aligned_zero _⟩
  | succ n inductionHypothesis =>
    obtain ⟨source, aligned⟩ := inductionHypothesis
    unfold characters at *
    rw [Function.iterate_succ_apply']
    generalize advanceChar^[n] (ofText text) = c at *
    rw [← source] at fits aligned ⊢
    refine ⟨rfl, ?_⟩
    rcases Nat.lt_or_eq_of_le aligned.inside with before | finish
    · exact (advanceChar_least fits aligned before).1.1
    · rw [advanceChar_end finish]
      exact aligned

theorem characters_succ (fits : (Source.ofText text).Fits) (n : Nat) :
    (characters text n < (Source.ofText text).size →
      IsLeast {q | (Source.ofText text).Aligned q ∧ characters text n < q}
        (characters text (n + 1))) ∧
    (characters text n = (Source.ofText text).size →
      characters text (n + 1) = (Source.ofText text).size) := by
  obtain ⟨source, aligned⟩ := characters_placed fits n
  unfold characters at *
  rw [Function.iterate_succ_apply']
  generalize advanceChar^[n] (ofText text) = c at *
  rw [← source] at fits aligned ⊢
  refine ⟨advanceChar_least fits aligned, fun finish => ?_⟩
  rw [advanceChar_end finish, finish]

/-- Every boundary up to the one behind `n` characters is behind some of them. -/
theorem exists_characters (fits : (Source.ofText text).Fits) {n p : Nat}
    (aligned : (Source.ofText text).Aligned p) (reached : p ≤ characters text n) :
    ∃ i ≤ n, characters text i = p := by
  induction n with
  | zero => exact ⟨0, Nat.le_refl 0, (Nat.le_zero.mp reached).symm⟩
  | succ n inductionHypothesis =>
    rcases Nat.lt_or_ge (characters text n) p with after | before
    · have next := (characters_succ fits n).1 (Nat.lt_of_lt_of_le after aligned.inside)
      exact ⟨n + 1, Nat.le_refl _, Nat.le_antisymm (next.2 ⟨aligned, after⟩) reached⟩
    · obtain ⟨i, earlier, same⟩ := inductionHypothesis before
      exact ⟨i, Nat.le_succ_of_le earlier, same⟩

theorem exists_characters_eq_size (fits : (Source.ofText text).Fits) :
    ∃ n, characters text n = (Source.ofText text).size := by
  by_contra missing
  have further : ∀ n, n ≤ characters text n := by
    intro n
    induction n with
    | zero => exact Nat.zero_le _
    | succ n inductionHypothesis =>
      have before : characters text n < (Source.ofText text).size :=
        Nat.lt_of_le_of_ne (characters_placed fits n).2.inside fun same => missing ⟨n, same⟩
      exact Nat.lt_of_le_of_lt inductionHypothesis ((characters_succ fits n).1 before).1.2
  have beyond := further ((Source.ofText text).size + 1)
  have inside := (characters_placed fits ((Source.ofText text).size + 1)).2.inside
  omega

/-- Moves over one character after the other visit all boundaries of the fragment in order, each of
    them once, and then stay at the end. -/
theorem characters_boundaries (fits : (Source.ofText text).Fits) :
    ∃ n, StrictMonoOn (characters text) (Set.Iic n) ∧
      (∀ m, n ≤ m → characters text m = (Source.ofText text).size) ∧
      ∀ p, (Source.ofText text).Aligned p ↔ ∃ i ≤ n, characters text i = p := by
  -- As many steps as it takes to reach the end are as many as there are characters.
  have ends := exists_characters_eq_size fits
  refine ⟨Nat.find ends, ?_, ?_, ?_⟩
  · have further : ∀ i < Nat.find ends, characters text i < characters text (i + 1) := by
      intro i early
      have before := Nat.lt_of_le_of_ne (characters_placed fits i).2.inside (Nat.find_min ends early)
      exact ((characters_succ fits i).1 before).1.2
    intro i _ j last less
    rw [Set.mem_Iic] at last
    induction j, less using Nat.le_induction with
    | base => exact further i last
    | succ j _ inductionHypothesis =>
      exact (inductionHypothesis (Nat.le_of_succ_le last)).trans (further j last)
  · intro m later
    induction m, later using Nat.le_induction with
    | base => exact Nat.find_spec ends
    | succ m _ inductionHypothesis => exact (characters_succ fits m).2 inductionHypothesis
  · intro p
    constructor
    · intro aligned
      apply exists_characters fits aligned
      rw [Nat.find_spec ends]
      exact aligned.inside
    · rintro ⟨i, _, rfl⟩
      exact (characters_placed fits i).2

end Cursor

/-! ## Wherever a cursor roams -/

/-- What holds of a cursor on a text, and of every move that it may make next. -/
structure Cursor.Sound (text : String) (c : Cursor) : Prop where
  source_eq : c.source = .ofText text
  inside : c.pos ≤ c.source.size
  size_le : c.source.size ≤ (Text.bytes text).length
  zeroFree : 0 ∉ (Text.bytes text).take c.source.size
  current_eq_zero_iff : c.current = 0 ↔ c.atEnd = true
  rest_eq : c.rest = (Text.bytes text).extract c.pos c.source.size ∧ c.words.rest? = some c.rest
  exact : c.words.pos.toNat = c.pos ∧ c.words.size.toNat = c.source.size
  runs : ∀ m : Move, m.Stops → ∀ w, Words.Runs m c.words w ↔ w = (c.move m).words
  forward : ∀ m : Move, (∀ p, m ≠ .moveTo p) → c.pos ≤ (c.move m).pos
  character : c.source.Fits → c.source.Aligned c.pos → c.pos < c.source.size →
    IsLeast {q | c.source.Aligned q ∧ c.pos < q} (c.move .advanceChar).pos
  finished : c.pos = c.source.size → c.move .advanceChar = c

theorem Cursor.Placed.sound {text : String} {c : Cursor} (placed : c.Placed text) :
    c.Sound text := by
  obtain ⟨source_eq, inside⟩ := placed
  have text_eq : c.source.text = text := congrArg Source.text source_eq
  have begins := Source.bytes_prefix c.source
  have rest_eq := c.rest_eq_extract
  rw [text_eq] at begins rest_eq
  constructor
  case source_eq => exact source_eq
  case inside => exact inside
  case size_le => exact begins.length_le
  case zeroFree =>
    rw [Source.size, ← List.prefix_iff_eq_take.mp begins]
    exact c.source.zeroFree
  case current_eq_zero_iff => exact c.current_eq_zero_iff
  case rest_eq => exact ⟨rest_eq, words_rest? inside⟩
  case exact => exact ⟨words_pos inside, c.words_size⟩
  case runs => exact fun m stops => runs_iff stops inside
  case forward => exact fun m => (move_moved inside m).forward
  case character => exact advanceChar_least
  case finished => exact advanceChar_end

/-- However a cursor has been moved about on a text, it is inside the fragment, the end of which is
    the only place where it reads a zero, and its next move, if only that stops at a zero, is one
    that machine words can make. It goes back only if it is told to. Moves over one character after
    the other visit the boundaries of the fragment, each of them once. -/
theorem Roams.moves_sound {text : String} {saved : List Cursor} {c : Cursor}
    (roams : Roams text saved c) : c.Sound text ∧
    ((Source.ofText text).Fits → ∃ n, StrictMonoOn (Cursor.characters text) (Set.Iic n) ∧
      (∀ m, n ≤ m → Cursor.characters text m = (Source.ofText text).size) ∧
      ∀ p, (Source.ofText text).Aligned p ↔ ∃ i ≤ n, Cursor.characters text i = p) :=
  ⟨roams.placed.1.sound, Cursor.characters_boundaries⟩

theorem Roams.moves_sound_restored :
    ∃ saved c, Roams "é;x\x00y" saved c ∧ c.pos = 2 ∧ c.Sound "é;x\x00y" ∧
      (Source.ofText "é;x\x00y").Fits ∧
      ∃ n, StrictMonoOn (Cursor.characters "é;x\x00y") (Set.Iic n) ∧
        (∀ m, n ≤ m → Cursor.characters "é;x\x00y" m = 4) ∧
        ∀ p, (Source.ofText "é;x\x00y").Aligned p ↔
          ∃ i ≤ n, Cursor.characters "é;x\x00y" i = p := by
  have beginning : Roams "é;x\x00y" [] (.ofText "é;x\x00y") := .start
  have moved := beginning.save.move (.advance 0xFFFFFFFF) trivial
  have searched := (moved.move (.moveTo 1) trivial).move (.seek 0x79) trivial
  -- The copy that was kept at the start is taken up again.
  have restored := (searched.restore List.mem_cons_self).move .advanceChar trivial
  have fits : (Source.ofText "é;x\x00y").Fits := by
    unfold Source.Fits
    decide +kernel
  obtain ⟨sound, visits⟩ := restored.moves_sound
  exact ⟨_, _, restored, by decide +kernel, sound, fits, visits fits⟩

end CurveScript
