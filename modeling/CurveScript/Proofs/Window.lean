import CurveScript.Proofs.Placement
import CurveScript.Proofs.Restoration

/-! # The text before a diagnostic

A diagnostic shows the ten bytes of text before its offset, less the bytes of a character that
starts earlier. In other words it shows the longest piece of at most ten bytes that ends there,
`Text.LongestTail`. A character has at most four bytes, so that there is always a boundary among
the first four offsets at which the piece may start (`Text.exists_boundary`), and no more than three
bytes are left out.

The search for the start looks at ten offsets at most, wherever the offset of the diagnostic is
(`Text.boundaryWithin_search`). A diagnostic of a session points between two characters of its text,
so that it lacks the text before it only near the start. -/

namespace CurveScript

namespace Text

variable {s w : String} {n offset : Nat}

/-! ## Boundaries close by -/

theorem isBoundary_le {p : Nat} (boundary : isBoundary s p = true) : p ≤ (bytes s).length := by
  obtain ⟨before, after, rfl, rfl⟩ := isBoundary_iff_append.mp boundary
  simp [bytes_append]

/-- No four offsets in a row are all inside characters. -/
theorem exists_boundary {p : Nat} (inside : p ≤ (bytes s).length) :
    ∃ q, p ≤ q ∧ q ≤ p + 3 ∧ isBoundary s q = true := by
  induction p with
  | zero => exact ⟨0, Nat.le_refl 0, by omega, isBoundary_zero s⟩
  | succ p inductionHypothesis =>
    obtain ⟨q, least, close, boundary⟩ := inductionHypothesis (Nat.le_of_succ_le inside)
    by_cases here : q = p
    · -- The character that starts at `p` stops at a boundary close by.
      subst here
      obtain ⟨c, _, behind⟩ := char_at boundary inside
      have positive := c.utf8Size_pos
      have short := c.utf8Size_le_four
      exact ⟨q + c.utf8Size, by omega, by omega, behind⟩
    · exact ⟨q, by omega, by omega, boundary⟩

/-- A search for a boundary that starts at `first` passes over `steps` offsets. It gives up at the
    offset `limit` places behind the start. -/
structure Search (s : String) (first limit steps : Nat) : Prop where
  bounded : steps ≤ limit
  passed : ∀ i < steps, isBoundary s (first + i) = false
  stopped : steps = limit ∨ isBoundary s (first + steps) = true

theorem boundaryWithin_search (s : String) (enough : n ≤ offset) :
    ∃ steps, Search s (offset - n) n steps ∧ boundaryWithin s n offset = offset - n + steps := by
  unfold boundaryWithin
  rw [List.find?_map]
  cases found : (List.range n).find? (isBoundary s ∘ (offset - n + ·)) with
  | none =>
    have passed := List.find?_range_eq_none.mp found
    refine ⟨n, ⟨Nat.le_refl n, by simpa using passed, .inl rfl⟩, ?_⟩
    simp only [Option.map_none, Option.getD_none]
    omega
  | some steps =>
    obtain ⟨boundary, inside, passed⟩ := List.find?_range_eq_some.mp found
    refine ⟨steps, ⟨?_, by simpa using passed, .inr boundary⟩, rfl⟩
    exact Nat.le_of_lt (List.mem_range.mp inside)

/-! ## The window -/

/-- The piece `w` is the longest one of at most `n` bytes at the end of `s`. -/
structure LongestTail (n : Nat) (s w : String) : Prop where
  tail : ∃ front, s = front ++ w
  short : (bytes w).length ≤ n
  longest : ∀ front v, s = front ++ v → (bytes v).length ≤ n → (bytes v).length ≤ (bytes w).length

theorem length_of_slice? {start stop : Nat} (cut : slice? s start stop = some w) :
    (bytes w).length = stop - start := by
  have inside := isBoundary_le (isBoundary_of_slice? cut).2
  rw [bytes_of_slice? cut, List.extract_eq_take_drop, List.length_take, List.length_drop]
  omega

/-- A piece that starts at the first boundary among the last `n` offsets is the longest one. -/
theorem longestTail_of_search {steps : Nat} (enough : n ≤ offset)
    (search : Search s (offset - n) n steps) (cut : slice? s (offset - n + steps) offset = some w) :
    ∃ head, slice? s 0 offset = some head ∧ LongestTail n head w := by
  obtain ⟨ordered, first, last, bytesW⟩ := slice?_eq_some_iff.mp cut
  obtain ⟨before, after, rfl, rfl⟩ := isBoundary_iff_append.mp last
  have head : slice? (before ++ after) 0 (bytes before).length = some before := by
    rw [slice?_append_left (Nat.le_refl _), slice?_whole]
  have length := length_of_slice? cut
  refine ⟨before, head, ?_, by omega, ?_⟩
  · rw [slice?_append_left (Nat.le_refl _)] at cut
    rw [isBoundary_append_left ordered] at first
    obtain ⟨front, rest, rfl, start⟩ := isBoundary_iff_append.mp first
    have same : w = rest := by
      apply bytes_injective
      rw [bytes_of_slice? cut, start, bytes_append, List.extract_eq_take_drop, List.drop_left]
      simp
    exact ⟨front, by rw [same]⟩
  · rintro front v rfl short
    by_contra longer
    rw [bytes_append, List.length_append] at *
    -- A longer piece would start at a boundary that the search has passed over.
    have missed : isBoundary (front ++ v ++ after) (bytes front).length = true :=
      isBoundary_iff_append.mpr ⟨front, v ++ after, by rw [String.append_assoc], rfl⟩
    have passed := search.passed ((bytes front).length - ((bytes front).length +
      (bytes v).length - n)) (by omega)
    have place : (bytes front).length + (bytes v).length - n + ((bytes front).length -
        ((bytes front).length + (bytes v).length - n)) = (bytes front).length := by
      omega
    rw [place, missed] at passed
    cases passed

theorem window?_isSome_iff : (∃ w, window? s n offset = some w) ↔
    n ≤ offset ∧ offset ≤ (bytes s).length ∧ isBoundary s offset = true := by
  unfold window?
  constructor
  · rintro ⟨w, shown⟩
    split at shown
    · cases shown
    · have boundary := (isBoundary_of_slice? shown).2
      exact ⟨by omega, isBoundary_le boundary, boundary⟩
  · rintro ⟨enough, _, boundary⟩
    rw [if_neg (by omega)]
    obtain ⟨steps, search, found⟩ := boundaryWithin_search s enough
    have bounded := search.bounded
    have first : isBoundary s (offset - n + steps) = true := by
      cases search.stopped with
      | inl gaveUp =>
        have back : offset - n + steps = offset := by omega
        rw [back]
        exact boundary
      | inr stopped => exact stopped
    rw [found]
    unfold slice?
    rw [dif_pos ⟨by omega, first, boundary⟩]
    exact ⟨_, rfl⟩

theorem window?_longestTail (shown : window? s n offset = some w) :
    (∃ head, slice? s 0 offset = some head ∧ LongestTail n head w) ∧
      n - 3 ≤ (bytes w).length ∧ (bytes w).length ≤ n := by
  obtain ⟨enough, inside, _⟩ := window?_isSome_iff.mp ⟨w, shown⟩
  obtain ⟨steps, search, found⟩ := boundaryWithin_search s enough
  rw [window?, if_neg (by omega), found] at shown
  have length := length_of_slice? shown
  have bounded := search.bounded
  refine ⟨longestTail_of_search enough search shown, ?_, by omega⟩
  -- The search has not passed over the boundary close by.
  obtain ⟨q, least, close, boundary⟩ := exists_boundary (s := s) (p := offset - n) (by omega)
  by_contra short
  have passed := search.passed (q - (offset - n)) (by omega)
  have place : offset - n + (q - (offset - n)) = q := by omega
  rw [place, boundary] at passed
  cases passed

end Text

/-! ## Diagnostics of a session -/

/-- The diagnostic that an answer holds. -/
def Answer.diagnostic? : Answer → Option Diagnostic
  | .fetched (.error (.diagnostic d)) => some d
  | .diagnostic d => some d
  | _ => none

theorem Cursor.read_located {mode : Mode} {c c' : Cursor} {d : Diagnostic}
    (refused : c.read mode = (.error (.diagnostic d), c')) :
    d = .locate d.cause c.source.text d.offset := by
  obtain ⟨text, _, decoded⟩ := (read_error refused).2.2 _ rfl
  exact Token.ofLexeme_located decoded

namespace Reader

variable {r : Reader} {d : Diagnostic}

theorem Fetched.located {f : Fetch} {answer : Except Failure Token × Reader}
    (fetched : Fetched r f answer) (failed : answer.1 = .error (.diagnostic d)) :
    d = .locate d.cause r.cursor.source.text d.offset := by
  cases fetched with
  | refused refused =>
    obtain rfl : _ = Failure.diagnostic d := Except.error.inj failed
    exact Cursor.read_located (c := r.origin) refused
  | mismatched _ _ =>
    obtain rfl : _ = d := Failure.diagnostic.inj (Except.error.inj failed)
    rfl
  | uncut _ | peeked _ | absent _ _ | taken _ => simp at failed

theorem call_located (coherent : r.Coherent) {call : Call}
    (held : (r.call call).1.diagnostic? = some d) :
    d = .locate d.cause r.cursor.source.text d.offset := by
  cases call with
  | fetch f =>
    apply (fetch_fetched coherent f).located
    cases answered : (r.fetch f).1 with
    | ok t => simp [Reader.call, answered, Answer.diagnostic?] at held
    | error failure =>
      cases failure with
      | misaligned => simp [Reader.call, answered, Answer.diagnostic?] at held
      | diagnostic found => simpa [Reader.call, answered, Answer.diagnostic?] using held
  | raise message =>
    cases held
    rfl
  | pushBack t | position | input => cases held

end Reader

theorem Answer.aligned_diagnostic {source : Source} {answer : Answer} {d : Diagnostic}
    (aligned : answer.Aligned source) (held : answer.diagnostic? = some d) :
    source.Aligned d.offset := by
  match answer with
  | .fetched (.error (.diagnostic found)) =>
    cases held
    exact aligned
  | .diagnostic found =>
    cases held
    exact aligned

/-- The text that a diagnostic shows. It shows some exactly if its offset is a boundary and has ten
    bytes before it, and then it shows the longest piece of at most ten bytes that ends there. The
    start of the piece is found in at most ten steps. Hence only an offset below ten makes a
    diagnostic of a session lack the text before it. -/
theorem Diagnostic.near_longestTail (text : String) :
    (∀ cause offset,
      ((∃ w, (locate cause text offset).near = some w) ↔
        10 ≤ offset ∧ offset ≤ (Text.bytes text).length ∧ Text.isBoundary text offset = true) ∧
      (∀ w, (locate cause text offset).near = some w →
        (∃ head, Text.slice? text 0 offset = some head ∧ Text.LongestTail 10 head w) ∧
          7 ≤ (Text.bytes w).length ∧ (Text.bytes w).length ≤ 10) ∧
      (10 ≤ offset → ∃ steps, Text.Search text (offset - 10) 10 steps ∧
        Text.boundaryWithin text nearLength offset = offset - 10 + steps)) ∧
    ((Source.ofText text).Fits → ∀ seen r call d, Reachable text seen r → call.Owned seen →
      (r.call call).1.diagnostic? = some d → (d.near = none ↔ d.offset < 10)) := by
  constructor
  · intro cause offset
    exact ⟨Text.window?_isSome_iff, fun w => Text.window?_longestTail,
      Text.boundaryWithin_search text⟩
  · intro fits seen r call d reachable owned held
    obtain ⟨settled, _⟩ := reachable.settled
    obtain ⟨inside, boundary⟩ := Answer.aligned_diagnostic (settled.call_answer fits call) held
    have located := Reader.call_located settled.coherent held
    rw [settled.source_eq] at located
    have shown : (∃ w, d.near = some w) ↔ 10 ≤ d.offset := by
      have short : d.offset ≤ (Text.bytes text).length :=
        Nat.le_trans inside (Source.ofText text).size_le
      rw [located]
      refine Text.window?_isSome_iff.trans ⟨And.left, fun enough => ⟨enough, short, boundary⟩⟩
    rw [← Nat.not_le, ← shown, Option.eq_none_iff_forall_ne_some, not_exists]

theorem Diagnostic.near_longestTail_cut :
    ∃ seen r, Reachable "€€€€ 'x" seen r ∧ (Source.ofText "€€€€ 'x").Fits ∧
      (r.call (.raise "m")).1.diagnostic? = some (locate (.raised "m") "€€€€ 'x" 15) ∧
      (locate (.raised "m") "€€€€ 'x" 15).near = some "€€ 'x" ∧
      ((∃ head, Text.slice? "€€€€ 'x" 0 15 = some head ∧ Text.LongestTail 10 head "€€ 'x") ∧
        7 ≤ (Text.bytes "€€ 'x").length ∧ (Text.bytes "€€ 'x").length ≤ 10) ∧
      ((locate (.raised "m") "€€€€ 'x" 15).near = none ↔ 15 < 10) := by
  have fits : (Source.ofText "€€€€ 'x").Fits := by
    unfold Source.Fits
    decide +kernel
  have beginning : Reachable "€€€€ 'x" [] (.ofText "€€€€ 'x") := .start
  have reachable := beginning.call (.fetch .restOfLine) trivial
  have held : (((Reader.ofText "€€€€ 'x").call (.fetch .restOfLine)).2.call
      (.raise "m")).1.diagnostic? = some (locate (.raised "m") "€€€€ 'x" 15) := by
    decide +kernel
  have shown : (locate (.raised "m") "€€€€ 'x" 15).near = some "€€ 'x" := by
    decide +kernel
  obtain ⟨windows, session⟩ := near_longestTail "€€€€ 'x"
  exact ⟨_, _, reachable, fits, held, shown, (windows _ 15).2.1 _ shown,
    session fits _ _ (.raise "m") _ reachable trivial held⟩

end CurveScript
