import CurveScript.Proofs.Reading

/-! # Character boundaries

Where a text may be cut. An offset is a boundary if the bytes before it are whole
characters, and everything about boundaries follows from three facts about bytes:

* every byte of ASCII stands on a boundary (`Text.isBoundary_of_ascii`);
* behind the character that starts at a boundary there is the next boundary, and the first
  byte of the character tells its width (`Text.char_at`, `Byte.charWidth_head`);
* no later byte of a character is ASCII (`Byte.nonAscii_tail`).

A fragment that is not cut off ends on a boundary and at the end of a character, because
what ends it is the end of the text or a zero byte. -/

namespace CurveScript

/-! ## Bytes of one character -/

namespace Byte

theorem isUTF8FirstByte_of_ascii {b : Byte} (ascii : b.isNonAscii = false) : b.IsUTF8FirstByte := by
  have checked := forall_of_all (p := fun b => b.isNonAscii || decide b.IsUTF8FirstByte)
    (by decide +kernel) b
  simpa [ascii] using checked

theorem charWidth_of_ascii {b : Byte} (ascii : b.isNonAscii = false) : b.charWidth = 1 := by
  have checked := forall_of_all (p := fun b => b.isNonAscii || b.charWidth == 1)
    (by decide +kernel) b
  simpa [ascii] using checked

theorem ascii_of_test {p : Byte → Bool}
    (checked : (List.range 256).all
      (fun n => !p (UInt8.ofNat n) || !isNonAscii (UInt8.ofNat n)) = true) :
    ∀ b, p b = true → b.isNonAscii = false := by
  intro b holds
  have ascii := imp_of_all (q := fun b => !isNonAscii b) checked holds
  simpa using ascii

theorem utf8ByteSize_eq {b : Byte} (first : b.IsUTF8FirstByte) :
    b.utf8ByteSize first = b.charWidth := by
  have checked := forall_of_all (p := fun b => !decide b.IsUTF8FirstByte ||
    (if b &&& 0x80 = 0 then 1 else if b &&& 0xe0 = 0xc0 then 2
      else if b &&& 0xf0 = 0xe0 then 3 else 4) == b.charWidth) (by decide +kernel) b
  simpa [first, UInt8.utf8ByteSize] using checked

/-- The first byte of a character tells its width. -/
theorem charWidth_head {b : Byte} {tail : List Byte} {c : Char}
    (encoded : String.utf8EncodeChar c = b :: tail) : b.charWidth = c.utf8Size := by
  -- Decoding reads the width off the first byte, and it gives back what was encoded.
  have size := ByteArray.utf8Size_utf8DecodeChar (b := [c].utf8Encode) (i := 0) (h := by simp)
  rw [List.utf8DecodeChar_utf8Encode_cons, utf8ByteSize_eq] at size
  have nonempty : 0 < [c].utf8Encode.size := by simp [List.utf8Encode, encoded]
  have first : [c].utf8Encode[0] = b := by simp [List.utf8Encode, encoded]
  rw [size, first]

/-- Bytes that begin with a character begin with its first byte. -/
theorem char_head {b : Byte} {rest : List Byte} {c : Char}
    (encoded : String.utf8EncodeChar c <+: b :: rest) :
    (String.utf8EncodeChar c).head? = some b ∧ b.charWidth = c.utf8Size := by
  obtain ⟨tail, joined⟩ := encoded
  cases chars : String.utf8EncodeChar c with
  | nil =>
    have width := c.utf8Size_pos
    rw [← String.length_utf8EncodeChar, chars] at width
    exact absurd width (Nat.lt_irrefl 0)
  | cons d others =>
    rw [chars] at joined
    cases joined
    exact ⟨rfl, charWidth_head chars⟩

/-- The bytes behind the first byte of a character are beyond ASCII. -/
theorem nonAscii_tail {b d : Byte} {tail : List Byte} {c : Char}
    (encoded : String.utf8EncodeChar c = b :: tail) (member : d ∈ tail) : d.isNonAscii = true := by
  cases ascii : d.isNonAscii with
  | true => rfl
  | false =>
    obtain ⟨i, inside, rfl⟩ := List.getElem_of_mem member
    have first := isUTF8FirstByte_of_ascii ascii
    have bound : i + 1 < (String.utf8EncodeChar c).length := by
      rw [encoded]
      exact Nat.succ_lt_succ inside
    have later : (String.utf8EncodeChar c)[i + 1] = tail[i] := by simp [encoded]
    rw [← later, UInt8.isUTF8FirstByte_getElem_utf8EncodeChar] at first
    cases first

end Byte

/-! ## Boundaries of a text -/

namespace Text

theorem bytes_ofList (chars : List Char) :
    bytes (String.ofList chars) = chars.flatMap String.utf8EncodeChar := by
  simp [bytes, List.utf8Encode]

theorem isBoundary_iff_append {s : String} {p : Nat} :
    isBoundary s p = true ↔ ∃ before after, s = before ++ after ∧ p = (bytes before).length := by
  rw [isBoundary_iff, String.Pos.Raw.isValid_iff_exists_append]
  have size : ∀ before : String, (⟨p⟩ : String.Pos.Raw) = before.rawEndPos ↔
      p = (bytes before).length := by
    intro before
    rw [String.Pos.Raw.ext_iff]
    simp [bytes]
  simp only [size]

theorem isBoundary_zero (s : String) : isBoundary s 0 = true :=
  isBoundary_iff_append.mpr ⟨"", s, by simp, by simp [bytes]⟩

theorem isBoundary_length (s : String) : isBoundary s (bytes s).length = true :=
  isBoundary_iff_append.mpr ⟨s, "", by simp, rfl⟩

theorem isBoundary_of_ascii {s : String} {p : Nat} {b : Byte} (found : (bytes s)[p]? = some b)
    (ascii : b.isNonAscii = false) : isBoundary s p = true := by
  rw [isBoundary_iff, String.Pos.Raw.isValid_iff_isUTF8FirstByte]
  obtain ⟨inside, rfl⟩ := List.getElem?_eq_some_iff.mp found
  have before : (⟨p⟩ : String.Pos.Raw) < s.rawEndPos := by
    simpa [String.Pos.Raw.lt_iff, bytes] using inside
  exact .inr ⟨before, Byte.isUTF8FirstByte_of_ascii ascii⟩

/-- A character starts at every boundary before the end, and stops at a boundary. -/
theorem char_at {s : String} {p : Nat} (boundary : isBoundary s p = true)
    (inside : p < (bytes s).length) :
    ∃ c, String.utf8EncodeChar c <+: (bytes s).drop p ∧ isBoundary s (p + c.utf8Size) = true := by
  obtain ⟨before, after, rfl, rfl⟩ := isBoundary_iff_append.mp boundary
  cases chars : after.toList with
  | nil =>
    have empty : after = "" := by simpa using chars
    rw [empty, String.append_empty] at inside
    exact absurd inside (Nat.lt_irrefl _)
  | cons c rest =>
    have whole : after = String.ofList [c] ++ String.ofList rest := by
      rw [← String.ofList_append, ← String.ofList_toList (s := after), chars]
      rfl
    refine ⟨c, ?_, isBoundary_iff_append.mpr ⟨before ++ String.ofList [c], String.ofList rest, ?_, ?_⟩⟩
    · rw [bytes_append, List.drop_left, whole, bytes_append, bytes_ofList]
      simp
    · rw [whole, String.append_assoc]
    · rw [bytes_append, List.length_append, bytes_ofList]
      simp

end Text

/-! ## Boundaries of a fragment -/

namespace Source

/-- The fragment reaches to the first zero byte, or to the end of the text. -/
def Fits (source : Source) : Prop :=
  ((Text.bytes source.text).takeWhile (· != 0)).length ≤ maxFragment

/-- An offset of the fragment at which the text may be cut. -/
structure Aligned (source : Source) (p : Nat) : Prop where
  inside : p ≤ source.size
  boundary : Text.isBoundary source.text p = true

variable {source : Source} {p q : Nat}

theorem bytes_append_of_fits (fits : source.Fits) :
    ∃ tail, Text.bytes source.text = source.bytes ++ tail ∧ ∀ b, tail.head? = some b → b = 0 := by
  refine ⟨(Text.bytes source.text).dropWhile (· != 0), ?_, ?_⟩
  · rw [source.bytes_eq, fragment, List.take_of_length_le fits, List.takeWhile_append_dropWhile]
  · intro b found
    have stopped := List.head?_dropWhile_not (· != 0) (Text.bytes source.text)
    rw [found] at stopped
    simpa using stopped

theorem getElem?_text {b : Byte} (found : source.bytes[p]? = some b) :
    (Text.bytes source.text)[p]? = some b := by
  obtain ⟨tail, whole⟩ := source.bytes_prefix
  obtain ⟨inside, _⟩ := List.getElem?_eq_some_iff.mp found
  rw [← whole, List.getElem?_append_left inside]
  exact found

theorem zeroFree (source : Source) : 0 ∉ source.bytes := by
  intro member
  rw [source.bytes_eq] at member
  have nonzero := List.all_eq_true.mp List.all_takeWhile 0 (List.mem_of_mem_take member)
  simp at nonzero

theorem aligned_zero (source : Source) : source.Aligned 0 :=
  ⟨Nat.zero_le _, Text.isBoundary_zero _⟩

theorem aligned_size (fits : source.Fits) : source.Aligned source.size := by
  refine ⟨Nat.le_refl _, ?_⟩
  obtain ⟨tail, whole, zero⟩ := bytes_append_of_fits fits
  cases tail with
  | nil =>
    have all : source.size = (Text.bytes source.text).length := by
      rw [whole, List.append_nil, size]
    rw [all]
    exact Text.isBoundary_length _
  | cons b tail =>
    -- The byte behind the fragment is zero, which is ASCII.
    have found : (Text.bytes source.text)[source.size]? = some b := by
      rw [whole, size]
      simp
    apply Text.isBoundary_of_ascii found
    rw [zero b rfl]
    rfl

theorem aligned_of_ascii {b : Byte} (found : source.bytes[p]? = some b)
    (ascii : b.isNonAscii = false) : source.Aligned p := by
  obtain ⟨inside, _⟩ := List.getElem?_eq_some_iff.mp found
  exact ⟨Nat.le_of_lt inside, Text.isBoundary_of_ascii (getElem?_text found) ascii⟩

/-- The character at a boundary of the fragment lies in the fragment as a whole. -/
theorem char_at (fits : source.Fits) (aligned : source.Aligned p) (inside : p < source.size) :
    ∃ c, String.utf8EncodeChar c <+: source.bytes.drop p ∧ source.Aligned (p + c.utf8Size) := by
  obtain ⟨tail, whole, zero⟩ := bytes_append_of_fits fits
  have longer : source.size ≤ (Text.bytes source.text).length := source.bytes_prefix.length_le
  obtain ⟨c, encoded, boundary⟩ := Text.char_at aligned.boundary (Nat.lt_of_lt_of_le inside longer)
  rw [whole, List.drop_append_of_le_length aligned.inside] at encoded
  have within : String.utf8EncodeChar c <+: source.bytes.drop p := by
    rcases List.prefix_or_prefix_of_prefix encoded (List.prefix_append _ tail) with shorter | beyond
    · exact shorter
    · -- If the character went on behind the fragment, it would contain the zero byte there.
      obtain ⟨extra, spread⟩ := beyond
      cases extra with
      | nil =>
        rw [List.append_nil] at spread
        exact spread ▸ List.prefix_rfl
      | cons d extra =>
        have next : d = 0 := by
          rw [← spread] at encoded
          obtain ⟨_, joined⟩ := (List.prefix_append_right_inj _).mp encoded
          apply zero
          rw [← joined]
          rfl
        cases fragment : source.bytes.drop p with
        | nil => exact absurd (List.drop_eq_nil_iff.mp fragment) (Nat.not_le_of_lt inside)
        | cons b rest =>
          rw [fragment] at spread
          have late := Byte.nonAscii_tail spread.symm (d := d) (by simp)
          rw [next] at late
          cases late
  have width := within.length_le
  rw [String.length_utf8EncodeChar, List.length_drop, ← size] at width
  exact ⟨c, within, by omega, boundary⟩

/-- The character at a boundary, as its first byte tells it. -/
theorem char_ahead {b : Byte} {rest : List Byte} (fits : source.Fits) (aligned : source.Aligned p)
    (ahead : source.bytes.drop p = b :: rest) :
    ∃ c, String.utf8EncodeChar c <+: b :: rest ∧ (String.utf8EncodeChar c).head? = some b ∧
      min b.charWidth (rest.length + 1) = c.utf8Size ∧ source.Aligned (p + c.utf8Size) := by
  have inside : p < source.size := by
    have length := congrArg List.length ahead
    rw [List.length_drop, List.length_cons, ← size] at length
    omega
  obtain ⟨c, encoded, behind⟩ := char_at fits aligned inside
  rw [ahead] at encoded
  obtain ⟨first, width⟩ := Byte.char_head encoded
  have short := encoded.length_le
  rw [String.length_utf8EncodeChar, List.length_cons] at short
  exact ⟨c, encoded, first, by omega, behind⟩

theorem aligned_succ {b : Byte} (aligned : source.Aligned p) (found : source.bytes[p]? = some b)
    (ascii : b.isNonAscii = false) : source.Aligned (p + 1) := by
  obtain ⟨inside, _⟩ := List.getElem?_eq_some_iff.mp found
  obtain ⟨within, same⟩ := List.getElem?_eq_some_iff.mp (getElem?_text found)
  obtain ⟨c, encoded, boundary⟩ := Text.char_at aligned.boundary within
  rw [List.drop_eq_getElem_cons within, same] at encoded
  have width := (Byte.char_head encoded).2
  rw [Byte.charWidth_of_ascii ascii] at width
  rw [← width] at boundary
  exact ⟨inside, boundary⟩

/-- A move over bytes of ASCII goes from boundary to boundary. -/
theorem aligned_add {u s : List Byte} (aligned : source.Aligned p)
    (ahead : source.bytes.drop p = u ++ s) (ascii : ∀ b ∈ u, b.isNonAscii = false) :
    source.Aligned (p + u.length) := by
  induction u generalizing p with
  | nil => exact aligned
  | cons b u inductionHypothesis =>
    have found : source.bytes[p]? = some b := by
      rw [← List.head?_drop, ahead]
      rfl
    have behind : source.bytes.drop (p + 1) = u ++ s := by
      rw [← List.drop_drop, ahead]
      rfl
    have next := inductionHypothesis (aligned_succ aligned found (ascii b List.mem_cons_self)) behind
      fun c member => ascii c (List.mem_cons_of_mem b member)
    rw [List.length_cons, Nat.add_comm u.length, ← Nat.add_assoc]
    exact next

theorem aligned_run {test : Byte → Bool} (aligned : source.Aligned p)
    (ascii : ∀ b, test b = true → b.isNonAscii = false) :
    source.Aligned (p + Byte.run test (source.bytes.drop p)) := by
  obtain ⟨u, s, ahead, length, all, _⟩ := Byte.run_split test (source.bytes.drop p)
  rw [length]
  exact aligned_add aligned ahead fun b member => ascii b (all b member)

/-- A stretch ends on a boundary if it ends with the fragment or before a byte of ASCII. -/
theorem aligned_before {u s : List Byte} (fits : source.Fits) (inside : p ≤ source.size)
    (ahead : source.bytes.drop p = u ++ s) (ascii : ∀ b, s.head? = some b → b.isNonAscii = false) :
    source.Aligned (p + u.length) := by
  have behind : source.bytes.drop (p + u.length) = s := by
    rw [← List.drop_drop, ahead, List.drop_left]
  cases s with
  | nil =>
    -- Nothing is left, so that the stretch ends with the fragment.
    have finish : p + u.length = source.size := by
      have length := congrArg List.length ahead
      rw [List.length_drop, List.append_nil, ← size] at length
      omega
    rw [finish]
    exact aligned_size fits
  | cons b s =>
    have found : source.bytes[p + u.length]? = some b := by
      rw [← List.head?_drop, behind]
      rfl
    exact aligned_of_ascii found (ascii b rfl)

/-- Between two boundaries in order there is a piece of text. -/
theorem slice?_of_aligned (first : source.Aligned p) (last : source.Aligned q) (ordered : p ≤ q) :
    ∃ t, source.slice? p q = some t := by
  unfold slice? Text.slice?
  rw [if_pos last.inside, dif_pos ⟨ordered, first.boundary, last.boundary⟩]
  exact ⟨_, rfl⟩

theorem aligned_of_slice? {t : String} (cut : source.slice? p q = some t) :
    source.Aligned p ∧ source.Aligned q := by
  obtain ⟨inside, cut⟩ := slice?_eq_some_iff.mp cut
  obtain ⟨first, last⟩ := Text.isBoundary_of_slice? cut
  exact ⟨⟨Nat.le_trans (Text.le_of_slice? cut) inside, first⟩, ⟨inside, last⟩⟩

end Source

theorem Cursor.aligned_skipSpace {c : Cursor} (aligned : c.source.Aligned c.pos) :
    c.source.Aligned c.skipSpace.pos :=
  Source.aligned_run aligned (Byte.ascii_of_test (by decide +kernel))

end CurveScript
