import CurveScript.Proofs.Refinement
import Mathlib.Data.List.Find

/-! # A text inside a longer one

What is read at a place depends on the bytes from there on. A text that is put behind another
one therefore reads as it does alone, except that all offsets grow by the same number and that
a diagnostic shows other text before its place. Main ingredients:

* `Text.slice?_append_left` and `Text.slice?_append_right`, pieces of two texts joined;
* `Source.Carries n s s'`, which says that `s` is what stands in `s'` from offset `n` on;
* `Cursor.read_carry` for one token and `Cursor.tokens_carry` for all of them. -/

namespace CurveScript

/-! ## Pieces of joined texts -/

namespace Text

theorem length_le_of_append {s t : String} {n : Nat} (short : (bytes (s ++ t)).length ≤ n) :
    (bytes s).length ≤ n ∧ (bytes t).length ≤ n := by
  rw [bytes_append, List.length_append] at short
  omega

theorem isBoundary_iff_first {s : String} {p : Nat} :
    isBoundary s p = true ↔
      p = (bytes s).length ∨ ∃ b, (bytes s)[p]? = some b ∧ b.IsUTF8FirstByte := by
  rw [isBoundary_iff, String.Pos.Raw.isValid_iff_isUTF8FirstByte]
  have size : (bytes s).length = s.rawEndPos.byteIdx := by simp [bytes]
  constructor
  · intro valid
    cases valid with
    | inl finish => exact .inl (by rw [size, ← finish])
    | inr found =>
      obtain ⟨inside, first⟩ := found
      have inside : p < (bytes s).length := by
        rw [size]
        exact inside
      exact .inr ⟨_, List.getElem?_eq_getElem inside, first⟩
  · intro found
    cases found with
    | inl finish => exact .inl (by rw [String.Pos.Raw.ext_iff, ← size, finish])
    | inr found =>
      obtain ⟨b, found, first⟩ := found
      obtain ⟨inside, rfl⟩ := List.getElem?_eq_some_iff.mp found
      rw [size] at inside
      exact .inr ⟨inside, first⟩

theorem isBoundary_append_left {s t : String} {p : Nat} (inside : p ≤ (bytes s).length) :
    isBoundary (s ++ t) p = isBoundary s p := by
  by_cases finish : p = (bytes s).length
  · have behind : isBoundary (s ++ t) (bytes s).length = true :=
      isBoundary_iff_append.mpr ⟨s, t, rfl, rfl⟩
    rw [finish, behind, isBoundary_length]
  · have before : p < (bytes s).length := by omega
    rw [Bool.eq_iff_iff, isBoundary_iff_first, isBoundary_iff_first, bytes_append,
      List.getElem?_append_left before, List.length_append]
    have apart : p ≠ (bytes s).length + (bytes t).length := by omega
    simp [finish, apart]

theorem isBoundary_append_right (s t : String) (p : Nat) :
    isBoundary (s ++ t) (p + (bytes s).length) = isBoundary t p := by
  rw [Bool.eq_iff_iff, isBoundary_iff_first, isBoundary_iff_first, bytes_append,
    List.getElem?_append_right (by omega), List.length_append, Nat.add_sub_cancel]
  constructor <;> intro found <;> refine found.imp_left ?_ <;> omega

theorem slice?_eq_some_iff {s t : String} {start stop : Nat} :
    slice? s start stop = some t ↔
      start ≤ stop ∧ isBoundary s start = true ∧ isBoundary s stop = true ∧
        bytes t = (bytes s).extract start stop := by
  constructor
  · intro cut
    have ends := isBoundary_of_slice? cut
    exact ⟨le_of_slice? cut, ends.1, ends.2, bytes_of_slice? cut⟩
  · intro ⟨ordered, first, last, same⟩
    cases cut : slice? s start stop with
    | none => simp [slice?, ordered, first, last] at cut
    | some u => rw [bytes_injective (same.trans (bytes_of_slice? cut).symm)]

theorem slice?_whole (s : String) : slice? s 0 (bytes s).length = some s := by
  apply slice?_eq_some_iff.mpr
  exact ⟨Nat.zero_le _, isBoundary_zero s, isBoundary_length s, by simp⟩

theorem slice?_append_left {s t : String} {start stop : Nat} (inside : stop ≤ (bytes s).length) :
    slice? (s ++ t) start stop = slice? s start stop := by
  ext u
  rw [slice?_eq_some_iff, slice?_eq_some_iff]
  apply and_congr_right
  intro ordered
  rw [isBoundary_append_left (by omega), isBoundary_append_left inside, bytes_append,
    List.extract_eq_take_drop, List.extract_eq_take_drop, List.drop_append_of_le_length (by omega),
    List.take_append_of_le_length (by rw [List.length_drop]; omega)]

theorem slice?_append_right (s t : String) (start stop : Nat) :
    slice? (s ++ t) (start + (bytes s).length) (stop + (bytes s).length) = slice? t start stop := by
  ext u
  rw [slice?_eq_some_iff, slice?_eq_some_iff, isBoundary_append_right, isBoundary_append_right,
    bytes_append, List.extract_eq_take_drop, List.extract_eq_take_drop]
  simp [Nat.add_comm _ (bytes s).length, ← List.drop_drop, Nat.add_sub_add_left]

theorem boundaryWithin_append_left {s t : String} {n stop : Nat} (enough : n ≤ stop)
    (inside : stop ≤ (bytes s).length) :
    boundaryWithin (s ++ t) n stop = boundaryWithin s n stop := by
  have same : ∀ p ∈ (List.range n).map (stop - n + ·),
      isBoundary (s ++ t) p = isBoundary s p := by
    intro p member
    simp only [List.mem_map, List.mem_range] at member
    obtain ⟨i, small, rfl⟩ := member
    exact isBoundary_append_left (by omega)
  simp only [boundaryWithin, List.find?_congr same]

theorem window?_append_left {s t : String} {n offset : Nat} (inside : offset ≤ (bytes s).length) :
    window? (s ++ t) n offset = window? s n offset := by
  unfold window?
  split
  · rfl
  · next enough =>
    rw [boundaryWithin_append_left (by omega) inside, slice?_append_left inside]

end Text

/-! ## Fragments of joined texts -/

theorem fragment_prefix_append (s t : String) : fragment s <+: fragment (s ++ t) := by
  unfold fragment
  rw [Text.bytes_append, List.takeWhile_append]
  split
  · next whole =>
    have all : (Text.bytes s).takeWhile (· != 0) = Text.bytes s :=
      (List.takeWhile_prefix _).eq_of_length whole
    rw [all]
    exact (List.prefix_append _ _).take _
  · exact List.prefix_rfl

theorem takeWhile_zeroFree {s : List Byte} (zeroFree : 0 ∉ s) (t : List Byte) :
    (s ++ t).takeWhile (· != 0) = s ++ t.takeWhile (· != 0) := by
  apply List.takeWhile_append_of_pos
  intro b member
  simp only [bne_iff_ne]
  rintro rfl
  exact zeroFree member

theorem fragment_append {s t : String} (zeroFree : 0 ∉ Text.bytes s)
    (short : (Text.bytes (s ++ t)).length ≤ maxFragment) :
    fragment (s ++ t) = Text.bytes s ++ fragment t := by
  rw [Text.bytes_append, List.length_append] at short
  have least := (List.takeWhile_prefix (l := Text.bytes t) (· != 0)).length_le
  rw [fragment, fragment, Text.bytes_append, takeWhile_zeroFree zeroFree,
    List.take_of_length_le (by rw [List.length_append]; omega), List.take_of_length_le (by omega)]

namespace Source

/-- The source `s` is what stands in `s'` from offset `n` on. -/
structure Carries (n : Nat) (s s' : Source) : Prop where
  inside : n ≤ s'.size
  bytes_eq : s'.bytes.drop n = s.bytes
  slice?_eq : ∀ start stop, s'.slice? (start + n) (stop + n) = s.slice? start stop

theorem Carries.size_eq {n : Nat} {s s' : Source} (carries : s.Carries n s') :
    s'.size = s.size + n := by
  have length := congrArg List.length carries.bytes_eq
  have inside := carries.inside
  rw [List.length_drop] at length
  unfold size at *
  omega

theorem carries_append {s t : String} (zeroFree : 0 ∉ Text.bytes s)
    (short : (Text.bytes (s ++ t)).length ≤ maxFragment) :
    (ofText t).Carries (Text.bytes s).length (ofText (s ++ t)) := by
  have joined : (ofText (s ++ t)).bytes = Text.bytes s ++ (ofText t).bytes :=
    fragment_append zeroFree short
  have size : (ofText (s ++ t)).size = (ofText t).size + (Text.bytes s).length := by
    rw [Source.size, joined, List.length_append, Nat.add_comm]
    rfl
  refine ⟨by omega, by rw [joined, List.drop_left], ?_⟩
  intro start stop
  ext u
  have same : Text.slice? (ofText (s ++ t)).text (start + (Text.bytes s).length)
      (stop + (Text.bytes s).length) = Text.slice? (ofText t).text start stop :=
    Text.slice?_append_right s t start stop
  rw [slice?_eq_some_iff, slice?_eq_some_iff, size, Nat.add_le_add_iff_right, same]

theorem size_le (source : Source) : source.size ≤ (Text.bytes source.text).length :=
  source.bytes_prefix.length_le

end Source

/-! ## Reading at another place -/

def Token.shift (n : Nat) (t : Token) : Token :=
  { t with span := ⟨t.span.start + n, t.span.stop + n⟩ }

def Lexeme.shift (n : Nat) (l : Lexeme) : Lexeme :=
  { l with start := l.start + n }

/-- The same failure in another text, `n` bytes later. -/
def Failure.relocate (text : String) (n : Nat) : Failure → Failure
  | .diagnostic d => .diagnostic (.locate d.cause text (d.offset + n))
  | .misaligned => .misaligned

theorem Lexeme.stop_shift (n : Nat) (l : Lexeme) : (l.shift n).stop = l.stop + n := by
  simp only [stop, shift]
  omega

theorem Token.ofLexeme_shift (source source' : String) (n : Nat) (l : Lexeme) (text : String) :
    ofLexeme source' (l.shift n) text =
      match ofLexeme source l text with
      | .ok t => .ok (t.shift n)
      | .error d => .error (.locate d.cause source' (d.offset + n)) := by
  unfold ofLexeme
  rw [Lexeme.stop_shift]
  cases tagged : l.tag with
  | lexeme k =>
    cases valued : Payload.ofBytes? k (Text.bytes text) with
    | none => simp [Lexeme.shift, tagged, valued, Diagnostic.locate]
    | some payload => simp [Lexeme.shift, tagged, valued, Token.shift]
  | comment | endOfText => simp [Lexeme.shift, tagged, Token.shift, Token.nop, Span.point]
  | unclosedString | badSigil | badSelector | badChar =>
    simp [Lexeme.shift, tagged, Diagnostic.locate]

/-- A diagnostic shows the text before the offset that it names. -/
theorem Token.ofLexeme_located {source : String} {lexeme : Lexeme} {text : String} {d : Diagnostic}
    (refused : Token.ofLexeme source lexeme text = .error d) :
    d = .locate d.cause source d.offset := by
  have same : ofLexeme source lexeme text = _ := Token.ofLexeme_shift source source 0 lexeme text
  rw [refused] at same
  exact Except.error.inj same

namespace Cursor

/-- The cursor of a source at its place in one that carries it. -/
def carry (n : Nat) (s' : Source) (c : Cursor) : Cursor :=
  ⟨s', c.pos + n⟩

variable {n : Nat} {s' : Source} {c : Cursor}

theorem rest_carry (carries : c.source.Carries n s') : (c.carry n s').rest = c.rest := by
  simp only [carry, rest, ← carries.bytes_eq, List.drop_drop, Nat.add_comm n]

theorem skipWhile_carry (carries : c.source.Carries n s') (p : Byte → Bool) :
    (c.carry n s').skipWhile p = (c.skipWhile p).carry n s' := by
  unfold skipWhile
  rw [rest_carry carries]
  simp only [carry, Nat.add_right_comm]

theorem moveTo_carry (carries : c.source.Carries n s') (p : Nat) :
    (c.carry n s').moveTo (p + n) = (c.moveTo p).carry n s' := by
  simp only [moveTo, carry, carries.size_eq, Nat.add_min_add_right]

theorem scan_carry (carries : c.source.Carries n s') (mode : Mode) :
    (c.carry n s').scan mode = ((c.scan mode).1.shift n, (c.scan mode).2.carry n s') := by
  have behind : c.skipSpace.source.Carries n s' := carries
  have skipped : (c.carry n s').skipSpace = c.skipSpace.carry n s' := skipWhile_carry carries _
  have moved := moveTo_carry behind
    (c.skipSpace.pos + (Munch.ofBytes mode c.skipSpace.rest).length)
  rw [Nat.add_right_comm] at moved
  simp only [scan, skipped, rest_carry behind]
  exact Prod.ext rfl moved

theorem read_carry (carries : c.source.Carries n s') (mode : Mode) :
    (c.carry n s').read mode =
      (((c.read mode).1.map (Token.shift n)).mapError (Failure.relocate s'.text n),
        (c.read mode).2.carry n s') := by
  have cut := carries.slice?_eq (c.scan mode).1.start (c.scan mode).1.stop
  rw [← Lexeme.stop_shift] at cut
  simp only [read_eq, scan_carry carries, slice?]
  have here : (c.carry n s').source.slice? ((c.scan mode).1.shift n).start
      ((c.scan mode).1.shift n).stop = _ := cut
  rw [here]
  cases c.source.slice? (c.scan mode).1.start (c.scan mode).1.stop with
  | none => rfl
  | some text =>
    dsimp only
    rw [Token.ofLexeme_shift c.source.text]
    cases Token.ofLexeme c.source.text (c.scan mode).1 text <;> rfl

/-- A change of place that every reading step commutes with changes the tokens one by one. -/
theorem tokens_move (source : Source) (move : Cursor → Cursor) {onToken : Token → Token}
    {onFailure : Failure → Failure} (nop : ∀ t, (onToken t).isNop = t.isNop)
    (moves : ∀ c, c.source = source → (move c).read .normal =
      (((c.read .normal).1.map onToken).mapError onFailure, move (c.read .normal).2))
    (here : c.source = source) :
    (move c).tokens = (c.tokens.map (List.map onToken)).mapError onFailure := by
  fun_induction tokens c with
  | case1 c failure behind refused =>
    have moved := moves c here
    rw [refused] at moved
    rw [tokens_of_error moved]
    rfl
  | case2 c t behind fetched ended =>
    have moved := moves c here
    rw [fetched] at moved
    rw [tokens_of_ok moved, if_pos ((nop t).trans ended)]
    rfl
  | case3 c t behind fetched proper inductionHypothesis =>
    have moved := moves c here
    rw [fetched] at moved
    rw [tokens_of_ok moved, if_neg (by rw [nop]; exact proper),
      inductionHypothesis ((read_ok fetched).source_eq.trans here)]
    cases behind.tokens <;> rfl

theorem tokens_carry (carries : c.source.Carries n s') :
    (c.carry n s').tokens =
      (c.tokens.map (List.map (Token.shift n))).mapError (Failure.relocate s'.text n) := by
  apply tokens_move c.source (carry n s')
  · intro t
    rfl
  · intro d same
    rw [← same] at carries
    exact read_carry carries .normal
  · rfl

end Cursor

end CurveScript
