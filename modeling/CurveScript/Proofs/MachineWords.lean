import CurveScript.Proofs.Boundary
import CurveScript.Proofs.Moves
import CurveScript.Proofs.Progress

/-! # Moves in machine words

The offsets of a cursor are kept in 32-bit words, and this is how a cursor moves then: `Words.Runs`
has a move for each of those in `Move`, with sums that are checked or saturate, and with bytes that
are looked up in the whole text. Where a sum is not a word or an offset lies outside the text,
there is no move at all.

`Cursor.runs_iff` says that from a place in a fragment there always is one, and that it ends where
the move with numbers ends. A loop over bytes has no bound of its own: it comes to an end because
zero is read at the end of the fragment, and nowhere else (`Cursor.current_eq_zero_iff`). -/

namespace CurveScript

theorem Byte.charWidth_le (b : Byte) : b.charWidth ≤ 4 := by
  unfold charWidth
  repeat' split
  all_goals decide

/-! ## Moves that may fail -/

/-- A cursor in machine words, on a text of which the bytes are given. -/
structure Words where
  bytes : List Byte
  pos : UInt32
  size : UInt32

namespace Words

/-- The byte at the cursor, zero from the end on. There is none if the offset lies outside the
    text. -/
def current? (w : Words) : Option Byte :=
  if w.pos < w.size then w.bytes[w.pos.toNat]? else some 0

/-- The bytes that are left, if the two offsets are in order and inside the text. -/
def rest? (w : Words) : Option (List Byte) :=
  if w.pos ≤ w.size ∧ w.size.toNat ≤ w.bytes.length then
    some (w.bytes.extract w.pos.toNat w.size.toNat)
  else none

/-- The cursor `n` bytes ahead, if its offset is a word. -/
def ahead? (w : Words) (n : Nat) : Option Words :=
  if w.pos.toNat + n < UInt32.size then some { w with pos := w.pos + UInt32.ofNat n } else none

/-- The sum of two words, or the largest word if that comes first. -/
def saturatingAdd (a b : UInt32) : UInt32 :=
  if a.toNat + b.toNat < UInt32.size then a + b else UInt32.ofNat maxFragment

/-- The cursor at an offset, or at the end if that comes first. -/
def clamp (w : Words) (p : UInt32) : Words :=
  { w with pos := if p ≤ w.size then p else w.size }

/-- A loop that goes on by one byte as long as the byte at the cursor is in a class. -/
inductive Loops (p : Byte → Bool) : Words → Words → Prop where
  | stop {w : Words} {b : Byte} : w.current? = some b → p b = false → Loops p w w
  | step {w v u : Words} {b : Byte} : w.current? = some b → p b = true → w.ahead? 1 = some v →
      Loops p v u → Loops p w u

/-- A move in machine words. Where a sum is not a word, or bytes outside the text are looked at,
    there is no such move. -/
inductive Runs : Move → Words → Words → Prop where
  | advance (n : UInt32) (w : Words) : Runs (.advance n) w (w.clamp (saturatingAdd w.pos n))
  | advanceChar {w : Words} {b : Byte} : w.current? = some b →
      Runs .advanceChar w (w.clamp (saturatingAdd w.pos (.ofNat b.charWidth)))
  | moveTo (p : UInt32) (w : Words) : Runs (.moveTo p) w (w.clamp p)
  | skipWhile {p : Byte → Bool} {w v : Words} : Loops p w v → Runs (.skipWhile p) w v
  | found {b : Byte} {w v : Words} {s : List Byte} {n : Nat} : w.rest? = some s →
      s.idxOf? b = some n → w.ahead? n = some v → Runs (.seek b) w v
  | missed {b : Byte} {w : Words} {s : List Byte} : w.rest? = some s → s.idxOf? b = none →
      Runs (.seek b) w w
  | foundEither {a b : Byte} {w v : Words} {s : List Byte} {n : Nat} : w.rest? = some s →
      s.findIdx? (fun x => x == a || x == b) = some n → w.ahead? n = some v →
      Runs (.seekEither a b) w v
  | missedEither {a b : Byte} {w : Words} {s : List Byte} : w.rest? = some s →
      s.findIdx? (fun x => x == a || x == b) = none →
      Runs (.seekEither a b) w { w with pos := w.size }
  | skipToEnd (w : Words) : Runs .skipToEnd w { w with pos := w.size }

theorem toNat_saturatingAdd (a b : UInt32) :
    (saturatingAdd a b).toNat = min (a.toNat + b.toNat) maxFragment := by
  have largest : maxFragment + 1 = UInt32.size := rfl
  unfold saturatingAdd
  split
  · next small =>
    rw [UInt32.toNat_add, Nat.mod_eq_of_lt small]
    omega
  · rw [UInt32.toNat_ofNat_of_lt' (by omega)]
    omega

/-- A loop has one end. -/
theorem Loops.unique {p : Byte → Bool} {w v u : Words} (first : Loops p w v)
    (second : Loops p w u) : v = u := by
  induction first with
  | stop current refused =>
    cases second with
    | stop _ _ => rfl
    | step current' holds _ _ =>
      rw [current] at current'
      cases current'
      rw [refused] at holds
      cases holds
  | step current holds ahead _ inductionHypothesis =>
    cases second with
    | stop current' refused =>
      rw [current] at current'
      cases current'
      rw [refused] at holds
      cases holds
    | step _ _ ahead' later =>
      rw [ahead] at ahead'
      cases ahead'
      exact inductionHypothesis later

/-- A move has one end. -/
theorem Runs.unique {m : Move} {w v u : Words} (first : Runs m w v) (second : Runs m w u) :
    v = u := by
  cases first with
  | advance n _ | moveTo p _ | skipToEnd _ =>
    cases second
    rfl
  | advanceChar current =>
    cases second with
    | advanceChar current' =>
      rw [current] at current'
      cases current'
      rfl
  | skipWhile loops =>
    cases second with
    | skipWhile loops' => exact loops.unique loops'
  -- Two searches look at the same bytes, so that both of them find the same or neither finds any.
  | found rest index ahead =>
    cases second with
    | found rest' index' ahead' =>
      obtain rfl := Option.some.inj (rest.symm.trans rest')
      obtain rfl := Option.some.inj (index.symm.trans index')
      exact Option.some.inj (ahead.symm.trans ahead')
    | missed rest' index' =>
      obtain rfl := Option.some.inj (rest.symm.trans rest')
      cases index.symm.trans index'
  | missed rest index =>
    cases second with
    | found rest' index' _ =>
      obtain rfl := Option.some.inj (rest.symm.trans rest')
      cases index.symm.trans index'
    | missed _ _ => rfl
  | foundEither rest index ahead =>
    cases second with
    | foundEither rest' index' ahead' =>
      obtain rfl := Option.some.inj (rest.symm.trans rest')
      obtain rfl := Option.some.inj (index.symm.trans index')
      exact Option.some.inj (ahead.symm.trans ahead')
    | missedEither rest' index' =>
      obtain rfl := Option.some.inj (rest.symm.trans rest')
      cases index.symm.trans index'
  | missedEither rest index =>
    cases second with
    | foundEither rest' index' _ =>
      obtain rfl := Option.some.inj (rest.symm.trans rest')
      cases index.symm.trans index'
    | missedEither _ _ => rfl

end Words

/-! ## Cursors in words -/

namespace Cursor

/-- The offsets of a cursor as machine words. -/
def words (c : Cursor) : Words :=
  ⟨Text.bytes c.source.text, UInt32.ofNat c.pos, UInt32.ofNat c.source.size⟩

variable {c : Cursor}

theorem words_pos (inside : c.pos ≤ c.source.size) : c.words.pos.toNat = c.pos :=
  UInt32.toNat_ofNat_of_lt' (Nat.lt_succ_of_le (Nat.le_trans inside c.source.size_le_maxFragment))

theorem words_size (c : Cursor) : c.words.size.toNat = c.source.size :=
  UInt32.toNat_ofNat_of_lt' (Nat.lt_succ_of_le c.source.size_le_maxFragment)

/-- What is left of the fragment is a piece of the text. -/
theorem rest_eq_extract (c : Cursor) :
    c.rest = (Text.bytes c.source.text).extract c.pos c.source.size := by
  obtain ⟨tail, whole⟩ := c.source.bytes_prefix
  rw [List.extract_eq_take_drop, ← List.drop_take, ← whole, Source.size, List.take_left]
  rfl

/-- Zero is read at the end, and only there. -/
theorem current_eq_zero_iff (c : Cursor) : c.current = 0 ↔ c.atEnd = true := by
  unfold current Source.byteAt atEnd
  rw [decide_eq_true_iff, List.getD_eq_getElem?_getD]
  constructor
  · intro zero
    by_contra before
    have within : c.pos < c.source.bytes.length := Nat.lt_of_not_le before
    rw [List.getElem?_eq_getElem within, Option.getD_some] at zero
    exact c.source.zeroFree (zero ▸ List.getElem_mem within)
  · intro beyond
    rw [List.getElem?_eq_none beyond, Option.getD_none]

theorem words_current? (inside : c.pos ≤ c.source.size) : c.words.current? = some c.current := by
  simp only [Words.current?, UInt32.lt_iff_toNat_lt, words_pos inside, words_size]
  unfold current Source.byteAt
  rw [List.getD_eq_getElem?_getD]
  split
  · next before =>
    have found : c.source.bytes[c.pos]? = some c.source.bytes[c.pos] := List.getElem?_eq_getElem before
    rw [found, Option.getD_some]
    exact Source.getElem?_text found
  · next beyond => rw [List.getElem?_eq_none (Nat.le_of_not_lt beyond), Option.getD_none]

theorem words_rest? (inside : c.pos ≤ c.source.size) : c.words.rest? = some c.rest := by
  have longer : c.source.size ≤ c.words.bytes.length := c.source.bytes_prefix.length_le
  simp only [Words.rest?, UInt32.le_iff_toNat_le, words_pos inside, words_size]
  rw [if_pos ⟨inside, longer⟩, rest_eq_extract]
  rfl

theorem words_ahead? {n : Nat} (inside : c.pos + n ≤ c.source.size) :
    c.words.ahead? n = some (words { c with pos := c.pos + n }) := by
  have small : c.pos + n < UInt32.size :=
    Nat.lt_succ_of_le (Nat.le_trans inside c.source.size_le_maxFragment)
  rw [Words.ahead?, words_pos (by omega), if_pos small]
  simp [words, UInt32.ofNat_add]

theorem words_clamp (p : UInt32) (c : Cursor) : c.words.clamp p = (c.moveTo p.toNat).words := by
  simp only [Words.clamp, UInt32.le_iff_toNat_le, words_size]
  unfold moveTo words
  split
  · next before => rw [Nat.min_eq_left before, UInt32.ofNat_toNat]
  · next beyond => rw [Nat.min_eq_right (Nat.le_of_not_le beyond)]

/-- A sum that saturates lies behind the end of every fragment, so that it makes no difference. -/
theorem words_clamp_add (n : UInt32) (inside : c.pos ≤ c.source.size) :
    c.words.clamp (Words.saturatingAdd c.words.pos n) = (c.advance n.toNat).words := by
  have bounded := c.source.size_le_maxFragment
  rw [words_clamp, Words.toNat_saturatingAdd, words_pos inside, moveTo, Nat.min_assoc,
    Nat.min_eq_right bounded]
  rfl

/-! ## Moves that do not fail -/

theorem words_loops {p : Byte → Bool} (stops : p 0 = false) (inside : c.pos ≤ c.source.size) :
    Words.Loops p c.words (c.skipWhile p).words := by
  -- The loop goes through the bytes that are left, one after the other.
  generalize left : c.rest = s
  induction s generalizing c with
  | nil =>
    have finish : c.current = 0 := by
      rw [current_eq_zero_iff, atEnd, decide_eq_true_iff]
      exact List.drop_eq_nil_iff.mp left
    have nothing : Byte.run p c.rest = 0 := by rw [left]; rfl
    rw [skipWhile_of_run nothing]
    exact .stop (words_current? inside) (by rw [finish]; exact stops)
  | cons b s inductionHypothesis =>
    have first : c.current = b := by
      rw [current, Source.byteAt, List.getD_eq_getElem?_getD, ← List.head?_drop]
      change c.rest.head?.getD 0 = b
      rw [left]
      rfl
    have within : c.pos + 1 ≤ c.source.size := by
      have length := c.rest_length
      rw [left, List.length_cons] at length
      omega
    have later : rest { c with pos := c.pos + 1 } = s := by
      change c.source.bytes.drop (c.pos + 1) = s
      rw [← List.drop_drop]
      change c.rest.drop 1 = s
      rw [left]
      rfl
    by_cases holds : p b = true
    · have skipped : c.skipWhile p = skipWhile p { c with pos := c.pos + 1 } := by
        rw [skipWhile, skipWhile, left, later, Byte.run_cons, if_pos holds, Nat.add_comm _ 1,
          Nat.add_assoc]
      rw [skipped]
      exact .step (words_current? inside) (first ▸ holds) (words_ahead? within)
        (inductionHypothesis within later)
    · have nothing : Byte.run p c.rest = 0 := by rw [left, Byte.run_cons, if_neg holds]
      rw [skipWhile_of_run nothing]
      exact .stop (words_current? inside) (by rw [first]; simpa using holds)

theorem words_runs {m : Move} (stops : m.Stops) (inside : c.pos ≤ c.source.size) :
    Words.Runs m c.words (c.move m).words := by
  -- Whatever is found among the bytes that are left lies inside the fragment.
  have reached : ∀ {test : Byte → Bool} {n : Nat}, c.rest.findIdx? test = some n →
      c.words.ahead? n = some (words { c with pos := c.pos + n }) := by
    intro test n found
    obtain ⟨within, _⟩ := List.findIdx?_eq_some_iff_getElem.mp found
    rw [rest_length] at within
    exact words_ahead? (by omega)
  cases m with
  | advance n =>
    have moved := words_clamp_add n inside
    exact moved ▸ .advance n c.words
  | advanceChar =>
    have width : (UInt32.ofNat c.current.charWidth).toNat = c.current.charWidth :=
      UInt32.toNat_ofNat_of_lt' (Nat.lt_of_le_of_lt (Byte.charWidth_le _) (by decide))
    have moved := words_clamp_add (.ofNat c.current.charWidth) inside
    rw [width] at moved
    exact moved ▸ .advanceChar (words_current? inside)
  | moveTo p =>
    have moved := words_clamp p c
    exact moved ▸ .moveTo p c.words
  | skipWhile p => exact .skipWhile (words_loops stops inside)
  | seek b =>
    cases found : c.rest.idxOf? b with
    | none =>
      have still : c.move (.seek b) = c := by rw [move, seek?, found]; rfl
      rw [still]
      exact .missed (words_rest? inside) found
    | some n =>
      have moved : c.move (.seek b) = { c with pos := c.pos + n } := by rw [move, seek?, found]; rfl
      rw [moved]
      exact .found (words_rest? inside) found (reached found)
  | seekEither a b =>
    cases found : c.rest.findIdx? fun x => x == a || x == b with
    | none =>
      have moved : c.move (.seekEither a b) = c.skipToEnd := by rw [move, seekEither, found]
      rw [moved]
      exact .missedEither (words_rest? inside) found
    | some n =>
      have moved : c.move (.seekEither a b) = { c with pos := c.pos + n } := by
        rw [move, seekEither, found]
      rw [moved]
      exact .foundEither (words_rest? inside) found (reached found)
  | skipToEnd => exact .skipToEnd c.words

/-- In machine words a move does what it does with numbers, and nothing else. -/
theorem runs_iff {m : Move} (stops : m.Stops) (inside : c.pos ≤ c.source.size) (w : Words) :
    Words.Runs m c.words w ↔ w = (c.move m).words := by
  constructor
  · intro runs
    exact runs.unique (words_runs stops inside)
  · rintro rfl
    exact words_runs stops inside

end Cursor

end CurveScript
