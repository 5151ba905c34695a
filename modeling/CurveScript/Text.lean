import CurveScript.Byte

/-! # Text addressed by byte offsets

Offsets into a text count the bytes of its UTF-8 form. Only some of them stand
between two characters, and only those can begin or end a piece of text:

* `bytes s`, the UTF-8 form of a text;
* `isBoundary s p`, whether offset `p` stands between two characters;
* `slice? s start stop`, the piece between two boundaries;
* `window? s n offset`, at most `n` bytes of text that end at an offset. -/

namespace CurveScript.Text

def bytes (s : String) : List Byte :=
  s.toByteArray.data.toList

theorem bytes_append (s t : String) : bytes (s ++ t) = bytes s ++ bytes t := by
  simp [bytes, String.toByteArray_append, ByteArray.data_append]

theorem bytes_injective {s t : String} (same : bytes s = bytes t) : s = t := by
  apply String.toByteArray_inj.mp
  apply ByteArray.ext
  exact Array.toList_inj.mp same

/-- Whether the byte offset `p` stands between two characters of `s`, or at one of
    its two ends. -/
def isBoundary (s : String) (p : Nat) : Bool :=
  String.Pos.Raw.isValid s ⟨p⟩

theorem isBoundary_iff {s : String} {p : Nat} :
    isBoundary s p = true ↔ String.Pos.Raw.IsValid s ⟨p⟩ :=
  String.Pos.Raw.isValid_eq_true_iff

/-- The piece of `s` from one byte offset to another. There is none when the offsets
    are out of order or one of them is no boundary. -/
def slice? (s : String) (start stop : Nat) : Option String :=
  if h : start ≤ stop ∧ isBoundary s start ∧ isBoundary s stop then
    some (String.extract ⟨⟨start⟩, isBoundary_iff.mp h.2.1⟩ ⟨⟨stop⟩, isBoundary_iff.mp h.2.2⟩)
  else
    none

/-- The bytes of a piece are the bytes between its two offsets. -/
theorem bytes_of_slice? {s t : String} {start stop : Nat} (cut : slice? s start stop = some t) :
    bytes t = (bytes s).extract start stop := by
  unfold slice? at cut
  split at cut
  · cases cut
    simp [bytes, String.toByteArray_extract, ByteArray.data_extract]
  · cases cut

/-- The first boundary among the `n` offsets before `stop`, or `stop` itself. -/
def boundaryWithin (s : String) (n stop : Nat) : Nat :=
  (((List.range n).map (stop - n + ·)).find? (isBoundary s)).getD stop

/-- The last `n` bytes of text before `offset`, less the bytes of a character that
    starts earlier. There is no window when fewer than `n` bytes precede `offset`,
    or when `offset` is no boundary. -/
def window? (s : String) (n offset : Nat) : Option String :=
  if offset < n then none else slice? s (boundaryWithin s n offset) offset

end CurveScript.Text
