import CurveScript.Proofs.Moves
import Mathlib.Data.Nat.Find

/-! # Scans come to an end

A scan may be started anywhere, also inside a character, where no parser ever starts one. From
every place of the fragment it does the same few things, `Cursor.Advances`: it skips white space,
moves behind a lexeme and stays inside the fragment, and it gets ahead unless it finds a
terminator. Offsets up to the end of a fragment fit into 32-bit words, so that no arithmetic on
the way wraps around (`WordExact`).

Hence scans that follow each other, each in a mode of its own, find a terminator before they have
used up more scans than there are bytes (`Cursor.length_scanned`), and then they find it again and
again (`Cursor.scan_of_terminator`). -/

namespace CurveScript

/-! ## Offsets in machine words -/

/-- Offsets from `first` to `last` are computed alike in 32-bit words: no sum of an offset and a
    length that stays in the range wraps around, and no difference of two of the offsets does. -/
def WordExact (first last : Nat) : Prop :=
  ∀ p n, first ≤ p → p + n ≤ last →
    (UInt32.ofNat p + UInt32.ofNat n).toNat = p + n ∧
      (UInt32.ofNat (p + n) - UInt32.ofNat p).toNat = n

theorem wordExact_of_le {first last : Nat} (small : last ≤ maxFragment) : WordExact first last := by
  intro p n _ inside
  have fits : p + n < UInt32.size := Nat.lt_succ_of_le (Nat.le_trans inside small)
  have start : (UInt32.ofNat p).toNat = p := UInt32.toNat_ofNat_of_lt' (by omega)
  have length : (UInt32.ofNat n).toNat = n := UInt32.toNat_ofNat_of_lt' (by omega)
  have stop : (UInt32.ofNat (p + n)).toNat = p + n := UInt32.toNat_ofNat_of_lt' fits
  constructor
  · rw [UInt32.toNat_add, start, length, Nat.mod_eq_of_lt fits]
  · rw [UInt32.toNat_sub_of_le _ _ (UInt32.le_iff_toNat_le.mpr (by omega)), start, stop]
    omega

theorem Source.size_le_maxFragment (source : Source) : source.size ≤ maxFragment := by
  rw [size, source.bytes_eq, fragment]
  exact List.length_take_le _ _

theorem Tag.isTerminator_iff {tag : Tag} :
    tag.isTerminator = true ↔ tag = .endOfText ∨ tag = .comment := by
  cases tag <;> simp [isTerminator]

namespace Cursor

/-! ## One scan -/

/-- What a scan at `c` does that finds `l` and leaves `c'`. -/
structure Advances (c : Cursor) (l : Lexeme) (c' : Cursor) : Prop where
  source_eq : c'.source = c.source
  le_start : c.pos ≤ l.start
  gap : ∀ b ∈ c.source.bytes.extract c.pos l.start, b.isSpace = true
  stop_eq : l.stop = c'.pos
  inside : c'.pos ≤ c.source.size
  empty_iff : l.length = 0 ↔ l.tag = .endOfText ∨ l.tag = .comment
  exact : WordExact c.pos c'.pos

variable {c : Cursor} {mode : Mode}

theorem skipSpace_inside (inside : c.pos ≤ c.source.size) : c.skipSpace.pos ≤ c.source.size :=
  skipWhile_inside Byte.isSpace inside

theorem scan_stop_inside (mode : Mode) (inside : c.pos ≤ c.source.size) :
    (c.scan mode).1.stop ≤ c.source.size := by
  have short := Munch.length_le mode c.skipSpace.rest
  have start := skipSpace_inside inside
  rw [rest_length] at short
  change c.skipSpace.pos + (Munch.ofBytes mode c.skipSpace.rest).length ≤ c.source.size
  have source : c.skipSpace.source = c.source := rfl
  rw [source] at short
  omega

theorem scan_advances (inside : c.pos ≤ c.source.size) (mode : Mode) :
    Advances c (c.scan mode).1 (c.scan mode).2 := by
  have stop := scan_stop_inside mode inside
  -- The clamp at the end of the fragment has nothing to do.
  have landed : (c.scan mode).2.pos = (c.scan mode).1.stop := Nat.min_eq_left stop
  constructor
  case source_eq => rfl
  case le_start => exact Nat.le_add_right _ _
  case gap =>
    have moved : (c.scan mode).1.start - c.pos = Byte.run Byte.isSpace c.rest :=
      Nat.add_sub_cancel_left _ _
    rw [List.extract_eq_take_drop, moved]
    exact Byte.all_take_run Byte.isSpace c.rest
  case stop_eq => exact landed.symm
  case inside => rwa [landed]
  case empty_iff =>
    rw [← Tag.isTerminator_iff]
    constructor
    · intro empty
      by_contra proper
      have positive : 0 < (c.scan mode).1.length := Munch.length_pos (Bool.eq_false_iff.mpr proper)
      omega
    · exact Munch.length_of_isTerminator
  case exact =>
    apply wordExact_of_le
    rw [landed]
    exact Nat.le_trans stop c.source.size_le_maxFragment

/-- A terminator is not moved over. -/
theorem scan_left_of_terminator (terminator : (c.scan mode).1.tag.isTerminator = true)
    (inside : c.pos ≤ c.source.size) : (c.scan mode).2 = c.skipSpace := by
  have empty : (Munch.ofBytes mode c.skipSpace.rest).length = 0 :=
    Munch.length_of_isTerminator terminator
  have start : c.skipSpace.pos ≤ c.skipSpace.source.size := skipSpace_inside inside
  change c.skipSpace.advance (Munch.ofBytes mode c.skipSpace.rest).length = c.skipSpace
  rw [empty, advance, moveTo, Nat.add_zero, Nat.min_eq_left start]

/-- A terminator is found again where it was found, in any mode. -/
theorem scan_of_terminator (terminator : (c.scan mode).1.tag.isTerminator = true)
    (inside : c.pos ≤ c.source.size) (mode' : Mode) : (c.scan mode).2.scan mode' = c.scan mode := by
  have same : Munch.ofBytes mode' c.skipSpace.rest = Munch.ofBytes mode c.skipSpace.rest := by
    cases Munch.isTerminator_iff.mp terminator with
    | inl ended => rw [ended, Munch.ofBytes_nil, Munch.ofBytes_nil]
    | inr comment =>
      obtain ⟨rest, comment⟩ := comment
      rw [comment, Munch.ofBytes_hash, Munch.ofBytes_hash]
  rw [scan_left_of_terminator terminator inside, scan_skipSpace]
  simp only [scan, same]

/-! ## One scan after another -/

/-- The cursor behind `n` scans, where scan number `i` is made in the mode `modes i`. -/
def scanned (modes : Nat → Mode) (c : Cursor) : Nat → Cursor
  | 0 => c
  | n + 1 => ((c.scanned modes n).scan (modes n)).2

/-- The lexeme that scan number `n` finds, counted from zero. -/
def found (modes : Nat → Mode) (c : Cursor) (n : Nat) : Lexeme :=
  ((c.scanned modes n).scan (modes n)).1

variable {modes : Nat → Mode}

theorem scanned_inside (modes : Nat → Mode) (inside : c.pos ≤ c.source.size) (n : Nat) :
    (c.scanned modes n).source = c.source ∧
      (c.scanned modes n).pos ≤ (c.scanned modes n).source.size := by
  induction n with
  | zero => exact ⟨rfl, inside⟩
  | succ n inductionHypothesis =>
    obtain ⟨source, within⟩ := inductionHypothesis
    have advances := scan_advances within (modes n)
    have same : (c.scanned modes (n + 1)).source = (c.scanned modes n).source := advances.source_eq
    exact ⟨same.trans source, same ▸ advances.inside⟩

/-- Every scan that finds no terminator uses up at least one byte. -/
theorem length_scanned {n : Nat}
    (proper : ∀ i < n, (c.found modes i).tag.isTerminator = false) :
    (c.scanned modes n).rest.length + n ≤ c.rest.length := by
  induction n with
  | zero => exact Nat.le_refl _
  | succ n inductionHypothesis =>
    have before := inductionHypothesis fun i earlier => proper i (Nat.lt_succ_of_lt earlier)
    have less : (c.scanned modes (n + 1)).rest.length < (c.scanned modes n).rest.length :=
      scan_progress (proper n (Nat.lt_succ_self n))
    omega

theorem exists_terminator (modes : Nat → Mode) (c : Cursor) :
    ∃ n ≤ c.rest.length, (c.found modes n).tag.isTerminator = true := by
  by_contra missing
  have proper : ∀ i < c.rest.length + 1, (c.found modes i).tag.isTerminator = false := by
    intro i within
    rw [← Bool.not_eq_true]
    exact fun terminator => missing ⟨i, Nat.le_of_lt_succ within, terminator⟩
  have used := length_scanned proper
  omega

/-- From a terminator on, every scan finds it and leaves the cursor in front of it. -/
theorem found_after {n : Nat} (inside : c.pos ≤ c.source.size)
    (terminator : (c.found modes n).tag.isTerminator = true) {m : Nat} (later : n ≤ m) :
    c.found modes m = c.found modes n ∧
      c.scanned modes (m + 1) = (c.scanned modes n).skipSpace := by
  have within := (scanned_inside modes inside n).2
  have left := scan_left_of_terminator terminator within
  induction m, later using Nat.le_induction with
  | base => exact ⟨rfl, left⟩
  | succ m _ inductionHypothesis =>
    obtain ⟨_, behind⟩ := inductionHypothesis
    have again : (c.scanned modes (m + 1)).scan (modes (m + 1)) =
        (c.scanned modes n).scan (modes n) := by
      rw [behind, ← left]
      exact scan_of_terminator terminator within _
    exact ⟨congrArg Prod.fst again, (congrArg Prod.snd again).trans left⟩

/-- Scanning makes progress from every offset to which a cursor can be moved, also from inside a
    character and from behind the end, and it ends: a terminator is found after at most one scan
    more than there are bytes left, and from then on nothing else is found and nothing moves. -/
theorem moveTo_scans_end (text : String) (p : Nat) :
    (∀ mode, Advances ((ofText text).moveTo p) (((ofText text).moveTo p).scan mode).1
      (((ofText text).moveTo p).scan mode).2) ∧
    ∀ modes : Nat → Mode, ∃ n,
      n + 1 ≤ (fragment text).length - ((ofText text).moveTo p).pos + 1 ∧
      (∀ i < n, (((ofText text).moveTo p).found modes i).tag.isTerminator = false) ∧
      (((ofText text).moveTo p).found modes n).tag.isTerminator = true ∧
      ∀ m, n ≤ m →
        ((ofText text).moveTo p).found modes m = ((ofText text).moveTo p).found modes n ∧
        (((ofText text).moveTo p).scanned modes (m + 1)).pos =
          (((ofText text).moveTo p).found modes n).start := by
  have inside : ((ofText text).moveTo p).pos ≤ ((ofText text).moveTo p).source.size :=
    Nat.min_le_right _ _
  refine ⟨scan_advances inside, fun modes => ?_⟩
  generalize start : (ofText text).moveTo p = c at inside
  have size : c.source.size = (fragment text).length := by rw [← start]; rfl
  have ends := exists_terminator modes c
  obtain ⟨bound, terminator⟩ := Nat.find_spec ends
  have length := c.rest_length
  refine ⟨Nat.find ends, by omega, ?_, terminator, ?_⟩
  · intro i earlier
    rw [← Bool.not_eq_true]
    intro found
    exact Nat.find_min ends earlier ⟨by omega, found⟩
  · intro m later
    obtain ⟨same, behind⟩ := found_after inside terminator later
    exact ⟨same, congrArg Cursor.pos behind⟩

end Cursor

end CurveScript
