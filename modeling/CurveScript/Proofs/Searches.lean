import CurveScript.Proofs.MachineWords
import CurveScript.Proofs.Stops
import CurveScript.Proofs.ZeroByte

/-! # Searches and loops over bytes

A cursor finds the end of a stretch in two ways: by a search among the bytes that are left, and by
a loop that reads one byte after the other until it reads a zero. Both stop at the first byte of a
class or at the end of the fragment, `Source.FirstStop`, since no byte of a fragment is zero:

* `Cursor.seek?_eq_loop` and `Cursor.seekEither_eq_loop`, searches as loops;
* `Cursor.skipWhile_firstStop`, where a loop ends;
* `Cursor.skipWhile_zero`, that what stands behind a zero byte makes no difference. -/

namespace CurveScript

namespace Cursor

variable {c : Cursor} {p q : Byte → Bool}

theorem skipWhile_congr (same : ∀ b ∈ c.rest, p b = q b) : c.skipWhile p = c.skipWhile q := by
  have run : ∀ w : List Byte, (∀ b ∈ w, p b = q b) → Byte.run p w = Byte.run q w := by
    intro w
    induction w with
    | nil => exact fun _ => rfl
    | cons b w inductionHypothesis =>
      intro agree
      rw [Byte.run_cons, Byte.run_cons, agree b List.mem_cons_self,
        inductionHypothesis fun d member => agree d (List.mem_cons_of_mem b member)]
  rw [skipWhile, skipWhile, run c.rest same]

/-- A test for zero never makes a difference inside a fragment. -/
theorem skipWhile_nonzero (p : Byte → Bool) (c : Cursor) :
    c.skipWhile (fun x => x != 0 && p x) = c.skipWhile p := by
  apply skipWhile_congr
  intro b member
  have nonzero : b ≠ 0 := by
    rintro rfl
    exact c.source.zeroFree (List.mem_of_mem_drop member)
  simp [nonzero]

theorem seek?_eq_loop (a : Byte) (c : Cursor) : c.seek? a =
    if (c.skipWhile fun x => x != 0 && x != a).pos < c.source.size then
      some (c.skipWhile fun x => x != 0 && x != a)
    else none := by
  rw [skipWhile_nonzero, seek?_eq]

theorem seekEither_eq_loop (a b : Byte) (inside : c.pos ≤ c.source.size) :
    c.seekEither a b = c.skipWhile fun x => x != 0 && x != a && x != b := by
  have split : (fun x : Byte => x != 0 && x != a && x != b) =
      fun x => x != 0 && !(x == a || x == b) := by
    funext x
    rw [Bool.not_or, ← Bool.and_assoc]
    rfl
  rw [split, skipWhile_nonzero, seekEither_eq a b inside]

theorem skipWhile_firstStop (p : Byte → Bool) (inside : c.pos ≤ c.source.size) :
    c.source.FirstStop (!p ·) c.pos (c.skipWhile p).pos :=
  (skipWhile_halts fun _ _ => rfl).firstStop inside

theorem loops_iff (stops : p 0 = false) (inside : c.pos ≤ c.source.size) (w : Words) :
    Words.Loops p c.words w ↔ w = (c.skipWhile p).words := by
  constructor
  · intro loops
    exact loops.unique (words_loops stops inside)
  · rintro rfl
    exact words_loops stops inside

/-- In machine words too, a search among the bytes that are left ends where a loop does. -/
theorem runs_seekEither_iff (a b : Byte) (inside : c.pos ≤ c.source.size) (w : Words) :
    Words.Runs (.seekEither a b) c.words w ↔
      Words.Loops (fun x => x != 0 && x != a && x != b) c.words w := by
  rw [runs_iff (m := .seekEither a b) trivial inside, loops_iff rfl inside, move,
    seekEither_eq_loop a b inside]

theorem runs_seek_iff (a : Byte) (inside : c.pos ≤ c.source.size) (w : Words) :
    Words.Runs (.seek a) c.words w ↔
      ∃ v, Words.Loops (fun x => x != 0 && x != a) c.words v ∧
        w = if v.pos < v.size then v else c.words := by
  have before : (c.skipWhile fun x => x != 0 && x != a).words.pos <
      (c.skipWhile fun x => x != 0 && x != a).words.size ↔
      (c.skipWhile fun x => x != 0 && x != a).pos < c.source.size := by
    rw [UInt32.lt_iff_toNat_lt, words_size, words_pos (skipWhile_inside _ inside)]
    rfl
  rw [runs_iff (m := .seek a) trivial inside, move, seek?_eq_loop]
  simp only [loops_iff (p := fun x => x != 0 && x != a) rfl inside, exists_eq_left]
  by_cases found : (c.skipWhile fun x => x != 0 && x != a).pos < c.source.size
  · rw [if_pos found, if_pos (before.mpr found), Option.getD_some]
  · rw [if_neg found, if_neg (mt before.mp found), Option.getD_none]

theorem skipWhile_zero {s t : String} (zeroFree : 0 ∉ Text.bytes s) (p : Byte → Bool) (n : Nat) :
    (skipWhile p ⟨.ofText (s ++ "\x00" ++ t), n⟩).pos = (skipWhile p ⟨.ofText s, n⟩).pos := by
  have same : (Source.ofText (s ++ "\x00" ++ t)).bytes = (Source.ofText s).bytes :=
    fragment_zero zeroFree t
  simp only [skipWhile, rest, same]

theorem skipCommand_zero {s t : String} (zeroFree : 0 ∉ Text.bytes s) {n : Nat}
    (inside : n ≤ (Source.ofText (s ++ "\x00" ++ t)).size) :
    (skipCommand ⟨.ofText (s ++ "\x00" ++ t), n⟩).pos = (skipCommand ⟨.ofText s, n⟩).pos := by
  have size : (Source.ofText (s ++ "\x00" ++ t)).size = (Source.ofText s).size :=
    congrArg List.length (fragment_zero zeroFree t)
  unfold skipCommand
  rw [seekEither_eq _ _ (c := ⟨.ofText (s ++ "\x00" ++ t), n⟩) inside,
    seekEither_eq _ _ (c := ⟨.ofText s, n⟩) (size ▸ inside)]
  exact skipWhile_zero zeroFree _ n

/-- No zero byte of a text stands before the end of the fragment. -/
theorem size_le_of_zero {text : String} {q : Nat} (placed : c.Placed text)
    (zero : (Text.bytes text)[q]? = some 0) : c.source.size ≤ q := by
  have text_eq : c.source.text = text := congrArg Source.text placed.source_eq
  by_contra before
  have within : q < c.source.bytes.length := Nat.lt_of_not_le before
  have found := Source.getElem?_text (List.getElem?_eq_getElem within)
  rw [text_eq, zero] at found
  exact c.source.zeroFree (Option.some.inj found ▸ List.getElem_mem within)

/-- What searches and loops find from a cursor on a text. -/
structure Searching (text : String) (c : Cursor) : Prop where
  source_eq : c.source = .ofText text
  seekEither : ∀ a b, c.seekEither a b = c.skipWhile fun x => x != 0 && x != a && x != b
  seek : ∀ a, c.seek? a =
    if (c.skipWhile fun x => x != 0 && x != a).pos < c.source.size then
      some (c.skipWhile fun x => x != 0 && x != a)
    else none
  seekEitherWords : ∀ a b w, Words.Runs (.seekEither a b) c.words w ↔
    Words.Loops (fun x => x != 0 && x != a && x != b) c.words w
  seekWords : ∀ a w, Words.Runs (.seek a) c.words w ↔
    ∃ v, Words.Loops (fun x => x != 0 && x != a) c.words v ∧
      w = if v.pos < v.size then v else c.words
  loop : ∀ p : Byte → Bool, p 0 = false →
    (∀ w, Words.Loops p c.words w ↔ w = (c.skipWhile p).words) ∧
      c.source.FirstStop (!p ·) c.pos (c.skipWhile p).pos
  word : c.source.FirstStop Byte.endsWord c.pos c.skipWord.pos
  command : c.source.FirstStop Byte.endsCommand c.pos c.skipCommand.pos
  bounded : ∀ q, (Text.bytes text)[q]? = some 0 → c.skipWord.pos ≤ q ∧ c.skipCommand.pos ≤ q
  unseen : ∀ s t, text = s ++ "\x00" ++ t → 0 ∉ Text.bytes s →
    c.skipWord.pos = (skipWord ⟨.ofText s, c.pos⟩).pos ∧
      c.skipCommand.pos = (skipCommand ⟨.ofText s, c.pos⟩).pos

theorem Placed.searching {text : String} (placed : c.Placed text) : c.Searching text := by
  have inside := placed.inside
  have command := skipCommand_halts inside
  constructor
  case source_eq => exact placed.source_eq
  case seekEither => exact fun a b => seekEither_eq_loop a b inside
  case seek => exact fun a => seek?_eq_loop a c
  case seekEitherWords => exact fun a b => runs_seekEither_iff a b inside
  case seekWords => exact fun a => runs_seek_iff a inside
  case loop => exact fun p stops => ⟨loops_iff stops inside, skipWhile_firstStop p inside⟩
  case word => exact c.skipWord_halts.firstStop inside
  case command => exact command.firstStop inside
  case bounded =>
    intro q zero
    have behind := size_le_of_zero placed zero
    have within : c.skipCommand.pos ≤ c.source.size :=
      (command.firstStop inside).2 ⟨inside, .inl rfl⟩
    exact ⟨Nat.le_trans (skipWhile_inside _ inside) behind, Nat.le_trans within behind⟩
  case unseen =>
    rintro s t rfl zeroFree
    obtain ⟨source, n⟩ := c
    obtain rfl : source = .ofText (s ++ "\x00" ++ t) := placed.source_eq
    exact ⟨skipWhile_zero zeroFree _ n, skipCommand_zero zeroFree inside⟩

end Cursor

/-- However a cursor has been moved about on a text, a search for one byte or for either of two ends
    where a loop over all other bytes does, whatever bytes are searched for, and a loop ends at the
    first byte that stops it. Hence a bare word and a command end at the first of their delimiters or
    with the fragment, and nothing that stands behind a zero byte changes where. -/
theorem Roams.searches_agree {text : String} {saved : List Cursor} {c : Cursor}
    (roams : Roams text saved c) : c.Searching text :=
  roams.placed.1.searching

theorem Roams.searches_agree_zero :
    ∃ saved c, Roams "ab\x00;" saved c ∧ c.pos = 1 ∧ c.Searching "ab\x00;" ∧
      (c.seekEither 0 Byte.semicolon).pos = 2 ∧ (c.seek? Byte.semicolon).isNone = true := by
  have beginning : Roams "ab\x00;" [] (.ofText "ab\x00;") := .start
  have moved := (beginning.move .skipToEnd trivial).move (.moveTo 1) trivial
  exact ⟨_, _, moved, by decide +kernel, moved.searches_agree, by decide +kernel,
    by decide +kernel⟩

end CurveScript
