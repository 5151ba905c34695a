import CurveScript.Proofs.Lookahead

/-! # Tokens tile the text

However fetches are mixed, what has been taken so far is all there is up to the position of
the reader: the texts of the tokens in the order in which they were taken, with white space
and nothing else between them.

`Tiling source p ts q` says this of the stretch from `p` to `q`. One fetch at a plain cursor
tiles the stretch it moves over (`Cursor.Fetched.tiles`), tilings of adjoining stretches join,
and a reader moves as the plain cursor at its origin does. -/

namespace CurveScript

/-! ## Stretches of bytes -/

namespace Source

theorem extract_append (source : Source) {p m q : Nat} (first : p ≤ m) (last : m ≤ q) :
    source.bytes.extract p q = source.bytes.extract p m ++ source.bytes.extract m q := by
  simp only [List.extract_eq_take_drop]
  have split : q - p = (m - p) + (q - m) := by omega
  have place : p + (m - p) = m := by omega
  rw [split, List.take_add, List.drop_drop, place]

end Source

/-! ## Tilings -/

/-- The token `t` is the next thing behind offset `p` that is not white space, or an empty
    token in the white space there. -/
structure Token.Follows (source : Source) (p : Nat) (t : Token) : Prop where
  le_start : p ≤ t.span.start
  start_le_stop : t.span.start ≤ t.span.stop
  stop_le_size : t.span.stop ≤ source.size
  gap : ∀ b ∈ source.bytes.extract p t.span.start, b.isSpace = true
  cut : Text.bytes t.text = source.bytes.extract t.span.start t.span.stop

/-- From `p` to `q` there are the tokens `ts` with nothing but white space before each. -/
inductive Tiling (source : Source) : Nat → List Token → Nat → Prop where
  | nil {p : Nat} : Tiling source p [] p
  | cons {p q : Nat} {t : Token} {ts : List Token} :
      t.Follows source p → Tiling source t.span.stop ts q → Tiling source p (t :: ts) q

namespace Tiling

variable {source : Source} {p q n : Nat} {t : Token} {ts us : List Token}

theorem single (follows : t.Follows source p) : Tiling source p [t] t.span.stop :=
  .cons follows .nil

theorem append (first : Tiling source p ts q) (last : Tiling source q us n) :
    Tiling source p (ts ++ us) n := by
  induction first with
  | nil => exact last
  | cons follows _ inductionHypothesis => exact .cons follows (inductionHypothesis last)

theorem le (tiling : Tiling source p ts q) : p ≤ q := by
  induction tiling with
  | nil => exact Nat.le_refl _
  | cons follows _ inductionHypothesis =>
    exact Nat.le_trans follows.le_start (Nat.le_trans follows.start_le_stop inductionHypothesis)

theorem follows_of_mem (tiling : Tiling source p ts q) (member : t ∈ ts) :
    ∃ m, p ≤ m ∧ t.Follows source m := by
  induction tiling with
  | nil => cases member
  | cons follows _ inductionHypothesis =>
    cases member with
    | head => exact ⟨_, Nat.le_refl _, follows⟩
    | tail _ member =>
      obtain ⟨m, behind, found⟩ := inductionHypothesis member
      have forward := Nat.le_trans follows.le_start follows.start_le_stop
      exact ⟨m, Nat.le_trans forward behind, found⟩

/-- A tiling stops where its last token stops. -/
theorem stop_eq (tiling : Tiling source p ts q) :
    q = (ts.getLast?.map (·.span.stop)).getD p := by
  induction tiling with
  | nil => rfl
  | @cons p q t ts _ _ inductionHypothesis =>
    rw [inductionHypothesis]
    cases ts with
    | nil => rfl
    | cons u ts => simp [List.getLast?_eq_some_getLast]

theorem ordered (tiling : Tiling source p ts q) :
    ts.Pairwise fun t u => t.span.stop ≤ u.span.start := by
  induction tiling with
  | nil => exact .nil
  | cons _ rest inductionHypothesis =>
    refine .cons ?_ inductionHypothesis
    intro u member
    obtain ⟨m, behind, follows⟩ := rest.follows_of_mem member
    exact Nat.le_trans behind follows.le_start

/-- The bytes of a tiled stretch are those of the gaps and the tokens in turn. -/
theorem extract_eq (tiling : Tiling source p ts q) :
    ∃ gaps : List (List Byte), gaps.length = ts.length ∧
      (∀ gap ∈ gaps, ∀ b ∈ gap, b.isSpace = true) ∧
      source.bytes.extract p q =
        (List.zipWith (fun gap t => gap ++ Text.bytes t.text) gaps ts).flatten := by
  induction tiling with
  | nil => exact ⟨[], rfl, by simp, by simp⟩
  | @cons p q t ts follows rest inductionHypothesis =>
    obtain ⟨gaps, sameLength, spaces, tiled⟩ := inductionHypothesis
    refine ⟨source.bytes.extract p t.span.start :: gaps, by simp [sameLength], ?_, ?_⟩
    · rintro gap (_ | ⟨_, member⟩)
      · exact follows.gap
      · exact spaces gap member
    · -- The stretch is split at both ends of its first token.
      have forward := Nat.le_trans follows.start_le_stop rest.le
      rw [source.extract_append follows.le_start forward,
        source.extract_append follows.start_le_stop rest.le, tiled, ← follows.cut]
      simp

end Tiling

/-! ## One fetch at a plain cursor -/

/-- The tokens that a fetch takes: the one it answers with, unless it only looks at it. -/
def Fetch.takes : Fetch → Except Failure Token → List Token
  | .peek, _ => []
  | _, .ok t => [t]
  | _, .error _ => []

namespace Cursor

/-- Anything cut out from the first byte that is not white space follows the cursor. -/
theorem follows_of_cut {c : Cursor} {t : Token} (start : t.span.start = c.skipSpace.pos)
    (cut : c.source.slice? t.span.start t.span.stop = some t.text) : t.Follows c.source c.pos where
  le_start := by
    rw [start]
    exact Nat.le_add_right _ _
  start_le_stop := Text.le_of_slice? (Source.slice?_eq_some_iff.mp cut).2
  stop_le_size := (Source.slice?_eq_some_iff.mp cut).1
  gap := by
    have moved : c.skipSpace.pos - c.pos = Byte.run Byte.isSpace c.rest :=
      Nat.add_sub_cancel_left _ _
    rw [start, List.extract_eq_take_drop, moved]
    exact Byte.all_take_run Byte.isSpace c.rest
  cut := Source.bytes_of_slice? cut

theorem Reads.follows {mode : Mode} {c c' : Cursor} {t : Token} (reads : Reads mode c t c') :
    t.Follows c.source c.pos :=
  follows_of_cut reads.start_eq reads.cut

/-- Nothing at all follows every place of the fragment. -/
theorem follows_nop {source : Source} {p : Nat} (inside : p ≤ source.size) :
    (Token.nop p).Follows source p where
  le_start := Nat.le_refl p
  start_le_stop := Nat.le_refl p
  stop_le_size := inside
  gap := by simp [Token.nop, Span.point]
  cut := by simp [Token.nop, Span.point, Text.bytes]

/-- Where a fetch goes from `c`, with the tokens it takes on the way. -/
def Tiles (c : Cursor) (f : Fetch) (answer : Except Failure Token × Cursor) : Prop :=
  answer.2.source = c.source ∧ Tiling c.source c.pos (f.takes answer.1) answer.2.pos

theorem tiles_taken {c c' : Cursor} {f : Fetch} {t : Token} (taking : f ≠ .peek)
    (source : c'.source = c.source) (stop : t.span.stop = c'.pos) (follows : t.Follows c.source c.pos) :
    Tiles c f (.ok t, c') := by
  refine ⟨source, ?_⟩
  have takes : f.takes (.ok t) = [t] := by
    cases f with
    | peek => exact absurd rfl taking
    | _ => rfl
  rw [takes, ← stop]
  exact .single follows

theorem tiles_failed (c : Cursor) (f : Fetch) (failure : Failure) : Tiles c f (.error failure, c) := by
  refine ⟨rfl, ?_⟩
  have takes : f.takes (.error failure) = [] := by cases f <;> rfl
  rw [takes]
  exact .nil

theorem Fetched.tiles {c : Cursor} {f : Fetch} {answer : Except Failure Token × Cursor}
    (fetched : Fetched c f answer) : Tiles c f answer := by
  cases fetched with
  | refused _ _ | uncut _ _ | mismatched _ _ => exact tiles_failed c _ _
  | peeked _ => exact ⟨rfl, .nil⟩
  | passed passes fetched =>
    have reads := read_ok fetched
    have taking : f ≠ .peek := by
      rintro rfl
      cases passes
    exact tiles_taken taking reads.source_eq reads.stop_eq reads.follows
  | cut stretch cut =>
    have taking : f ≠ .peek := by
      rintro rfl
      cases stretch
    rw [sliceFrom?, slice?, stretch.source_eq] at cut
    exact tiles_taken taking stretch.source_eq rfl (follows_of_cut rfl cut)
  | absent fetched _ =>
    -- The made-up token stands at the cursor, which a token follows.
    have follows := (read_ok fetched).follows
    have inside : c.pos ≤ c.source.size :=
      Nat.le_trans follows.le_start (Nat.le_trans follows.start_le_stop follows.stop_le_size)
    exact tiles_taken (by simp) rfl rfl (follows_nop inside)

end Cursor

/-! ## Any number of fetches -/

namespace Reader

/-- The tokens that fetches take one after another, and the reader they leave. -/
def takeAll : List Fetch → Reader → List Token × Reader
  | [], r => ([], r)
  | f :: fs, r =>
    (f.takes (r.fetch f).1 ++ (takeAll fs (r.fetch f).2).1, (takeAll fs (r.fetch f).2).2)

theorem takeAll_tiling {r : Reader} (coherent : r.Coherent) (fetches : List Fetch) :
    Tiling r.origin.source r.position (r.takeAll fetches).1 (r.takeAll fetches).2.position := by
  induction fetches generalizing r with
  | nil => exact .nil
  | cons f fs inductionHypothesis =>
    -- The positions before and after the fetch are those of the plain cursor.
    have plain := fetch_simulates coherent f
    obtain ⟨source, first⟩ := (r.origin.fetch_fetched f).tiles
    rw [← plain.origin_eq] at source first
    rw [← plain.result_eq] at first
    have rest := inductionHypothesis plain.coherent
    rw [source] at rest
    exact first.append rest

/-- Nothing is lost, doubled or put in another order: after any fetches, failed ones
    included, the bytes up to the position of the reader are those of the tokens taken, in
    turn, with white space between them. -/
theorem takeAll_tiles (text : String) (fetches : List Fetch) :
    ∃ gaps : List (List Byte),
      gaps.length = ((ofText text).takeAll fetches).1.length ∧
      (∀ gap ∈ gaps, ∀ b ∈ gap, b.isSpace = true) ∧
      ((ofText text).takeAll fetches).2.position ≤ (fragment text).length ∧
      (fragment text).take ((ofText text).takeAll fetches).2.position =
        (List.zipWith (fun gap t => gap ++ Text.bytes t.text) gaps
          ((ofText text).takeAll fetches).1).flatten ∧
      (∀ t ∈ ((ofText text).takeAll fetches).1,
        t.span.start ≤ t.span.stop ∧ t.span.stop ≤ (fragment text).length ∧
          Text.bytes t.text = (fragment text).extract t.span.start t.span.stop) ∧
      ((ofText text).takeAll fetches).1.Pairwise (fun t u => t.span.stop ≤ u.span.start) ∧
      ((ofText text).takeAll fetches).2.position =
        (((ofText text).takeAll fetches).1.getLast?.map (·.span.stop)).getD 0 := by
  have tiling := takeAll_tiling (r := ofText text) (coherent_of_lookahead_none rfl) fetches
  obtain ⟨gaps, sameLength, spaces, tiled⟩ := tiling.extract_eq
  have cuts : ∀ t ∈ ((ofText text).takeAll fetches).1,
      t.span.start ≤ t.span.stop ∧ t.span.stop ≤ (fragment text).length ∧
        Text.bytes t.text = (fragment text).extract t.span.start t.span.stop := by
    intro t member
    obtain ⟨_, _, follows⟩ := tiling.follows_of_mem member
    exact ⟨follows.start_le_stop, follows.stop_le_size, follows.cut⟩
  refine ⟨gaps, sameLength, spaces, ?_, ?_, cuts, tiling.ordered, tiling.stop_eq⟩
  · rw [tiling.stop_eq]
    cases last : ((ofText text).takeAll fetches).1.getLast? with
    | none => exact Nat.zero_le _
    | some t => exact (cuts t (List.mem_of_getLast? last)).2.1
  · have whole : (fragment text).extract 0 ((ofText text).takeAll fetches).2.position =
        (fragment text).take ((ofText text).takeAll fetches).2.position := by
      simp [List.extract_eq_take_drop]
    rw [← whole]
    exact tiled

end Reader

end CurveScript
