import CurveScript.Proofs.Reading

/-! # Moves of a cursor

A cursor may be moved about in any way: ahead by any distance, to any offset, over bytes of a
class, to a byte that is searched for, and back to a place of which a copy was kept. Whatever is
done with it, `Roams`, it stays inside the fragment.

* `Cursor.seek?_eq` and `Cursor.seekEither_eq`, that a search is a run over all other bytes;
* `Cursor.move_moved`, what one move does;
* `Roams.placed`, what any number of moves does. -/

namespace CurveScript

/-! ## Searches are runs -/

theorem Byte.findIdx?_eq (test : Byte → Bool) (w : List Byte) :
    w.findIdx? test = if run (!test ·) w < w.length then some (run (!test ·) w) else none := by
  induction w with
  | nil => rfl
  | cons b w inductionHypothesis =>
    rw [List.findIdx?_cons, run_cons, List.length_cons, inductionHypothesis]
    by_cases found : test b = true
    · simp [found]
    · by_cases later : run (!test ·) w < w.length <;> simp [found, later]

namespace Cursor

variable {c : Cursor}

theorem run_lt_iff (p : Byte → Bool) (c : Cursor) :
    Byte.run p c.rest < c.rest.length ↔ (c.skipWhile p).pos < c.source.size := by
  change _ ↔ c.pos + Byte.run p c.rest < c.source.size
  rw [rest_length]
  omega

/-- A search for a byte ends where the run of all other bytes ends, unless that is the end. -/
theorem seek?_eq (b : Byte) (c : Cursor) : c.seek? b =
    if (c.skipWhile (· != b)).pos < c.source.size then some (c.skipWhile (· != b)) else none := by
  have search : c.rest.idxOf? b = if Byte.run (· != b) c.rest < c.rest.length
      then some (Byte.run (· != b) c.rest) else none :=
    Byte.findIdx?_eq (· == b) c.rest
  rw [seek?, search]
  by_cases found : (c.skipWhile (· != b)).pos < c.source.size
  · rw [if_pos found, if_pos ((run_lt_iff _ c).mpr found)]
    rfl
  · rw [if_neg found, if_neg (mt (run_lt_iff _ c).mp found)]
    rfl

theorem seekEither_eq (a b : Byte) (inside : c.pos ≤ c.source.size) :
    c.seekEither a b = c.skipWhile fun x => !(x == a || x == b) := by
  rw [seekEither, Byte.findIdx?_eq]
  by_cases found : Byte.run (fun x => !(x == a || x == b)) c.rest < c.rest.length
  · rw [if_pos found]
    rfl
  · -- All bytes that are left are others, so that the run goes on to the end.
    have whole : Byte.run (fun x => !(x == a || x == b)) c.rest = c.rest.length :=
      Nat.le_antisymm (Byte.run_le_length _ _) (Nat.le_of_not_lt found)
    rw [if_neg found, skipWhile, whole, rest_length, Nat.add_sub_cancel' inside]
    rfl

theorem skipWhile_inside (p : Byte → Bool) (inside : c.pos ≤ c.source.size) :
    (c.skipWhile p).pos ≤ c.source.size := by
  have short := Byte.run_le_length p c.rest
  rw [rest_length] at short
  change c.pos + Byte.run p c.rest ≤ c.source.size
  omega

end Cursor

/-! ## Moves -/

/-- A move of a cursor, with distances and offsets that are 32-bit words. White space is skipped
    as any other class of bytes is. -/
inductive Move where
  | advance (n : UInt32)
  | advanceChar
  | moveTo (p : UInt32)
  | skipWhile (p : Byte → Bool)
  | seek (b : Byte)
  | seekEither (a b : Byte)
  | skipToEnd

/-- The zero byte that is read at the end stops the move. -/
def Move.Stops : Move → Prop
  | .skipWhile p => p 0 = false
  | _ => True

namespace Cursor

/-- The cursor after a move. A search that finds nothing leaves it where it was. -/
def move (c : Cursor) : Move → Cursor
  | .advance n => c.advance n.toNat
  | .advanceChar => c.advanceChar
  | .moveTo p => c.moveTo p.toNat
  | .skipWhile p => c.skipWhile p
  | .seek b => (c.seek? b).getD c
  | .seekEither a b => c.seekEither a b
  | .skipToEnd => c.skipToEnd

/-- What a move does. Only one that is told where to go may go back. -/
structure Moved (c : Cursor) (m : Move) : Prop where
  source_eq : (c.move m).source = c.source
  inside : (c.move m).pos ≤ c.source.size
  forward : (∀ p, m ≠ .moveTo p) → c.pos ≤ (c.move m).pos

variable {c : Cursor}

theorem move_moved (inside : c.pos ≤ c.source.size) (m : Move) : c.Moved m := by
  -- Most moves end where a clamped step ahead does or where a run over bytes does.
  have clamped : ∀ n m, c.move m = c.advance n → c.Moved m := by
    intro n m result
    constructor <;> rw [result]
    · rfl
    · exact Nat.min_le_right _ _
    · exact fun _ => Nat.le_min.mpr ⟨Nat.le_add_right _ _, inside⟩
  have skipped : ∀ p m, c.move m = c.skipWhile p → c.Moved m := by
    intro p m result
    constructor <;> rw [result]
    · rfl
    · exact skipWhile_inside p inside
    · exact fun _ => Nat.le_add_right _ _
  cases m with
  | advance n => exact clamped n.toNat _ rfl
  | advanceChar => exact clamped c.current.charWidth _ rfl
  | moveTo p => exact ⟨rfl, Nat.min_le_right _ _, fun other => absurd rfl (other p)⟩
  | skipWhile p => exact skipped p _ rfl
  | seek b =>
    have result : c.move (.seek b) = (c.seek? b).getD c := rfl
    rw [seek?_eq] at result
    by_cases found : (c.skipWhile (· != b)).pos < c.source.size
    · rw [if_pos found] at result
      exact skipped _ _ result
    · rw [if_neg found] at result
      constructor <;> rw [result]
      · rfl
      · exact inside
      · exact fun _ => Nat.le_refl _
  | seekEither a b => exact skipped _ _ (seekEither_eq a b inside)
  | skipToEnd => exact ⟨rfl, Nat.le_refl _, fun _ => inside⟩

/-- A place in the fragment of a text. -/
structure Placed (text : String) (c : Cursor) : Prop where
  source_eq : c.source = .ofText text
  inside : c.pos ≤ c.source.size

theorem Placed.move {text : String} (placed : c.Placed text) (m : Move) :
    (c.move m).Placed text := by
  have moved := move_moved placed.inside m
  exact ⟨moved.source_eq.trans placed.source_eq, moved.source_eq ▸ moved.inside⟩

end Cursor

/-- The cursor `c` has been moved about on `text`. The cursors in `saved` are copies that were kept
    on the way, and any of them may be taken up again. -/
inductive Roams (text : String) : List Cursor → Cursor → Prop where
  | start : Roams text [] (.ofText text)
  | move {saved : List Cursor} {c : Cursor} (m : Move) :
      Roams text saved c → m.Stops → Roams text saved (c.move m)
  | save {saved : List Cursor} {c : Cursor} : Roams text saved c → Roams text (c :: saved) c
  | restore {saved : List Cursor} {c d : Cursor} :
      Roams text saved c → d ∈ saved → Roams text saved d

theorem Roams.placed {text : String} {saved : List Cursor} {c : Cursor}
    (roams : Roams text saved c) : c.Placed text ∧ ∀ d ∈ saved, d.Placed text := by
  induction roams with
  | start => exact ⟨⟨rfl, Nat.zero_le _⟩, by simp⟩
  | move m _ _ inductionHypothesis => exact ⟨inductionHypothesis.1.move m, inductionHypothesis.2⟩
  | save _ inductionHypothesis =>
    exact ⟨inductionHypothesis.1, List.forall_mem_cons.mpr inductionHypothesis⟩
  | restore _ kept inductionHypothesis =>
    exact ⟨inductionHypothesis.2 _ kept, inductionHypothesis.2⟩

end CurveScript
