import CurveScript.Proofs.Delimiters
import CurveScript.Proofs.Outcome
import CurveScript.Proofs.Alignment

/-! # Glob mode

The mode of a scan matters in one place only: behind a sigil and the first byte of a name, where
glob mode goes on over wildcards. Everything else follows from what this does to single munches
(`Munch.ofBytes_glob_of_sigiled`, `Munch.ofBytes_glob_of_other`):

* a lexeme has the same tag and start in both modes, and it is longer in glob mode exactly if it
  is a name that ends before a wildcard (`Cursor.scan_glob`);
* reading fails alike in both modes, or gives tokens that differ in this way (`Cursor.read_glob`).
  A longer name still ends between two characters, since all its bytes are ASCII;
* a token read ahead makes no difference (`Reader.run_glob_extends`). -/

namespace CurveScript

/-! ## Munches -/

/-- The class of names behind a sigil. -/
def Class.Sigiled (k : Class) : Prop :=
  k = .variable ∨ k = .function

theorem Byte.run_of_imp {p q : Byte → Bool} (weaker : ∀ b, p b = true → q b = true)
    (w : List Byte) : run q w = run p w + run q (w.drop (run p w)) := by
  obtain ⟨u, s, rfl, length, all, _⟩ := run_split p w
  rw [length, List.drop_left, run_append fun b member => weaker b (all b member)]

namespace Munch

open Grammar

variable {k : Class} {n : Nat} {w : List Byte}

/-- A name behind a sigil goes on as far as the mode allows. -/
theorem ofBytes_sigiled (sigiled : k.Sigiled) (munch : ofBytes .normal w = ⟨.lexeme k, n⟩) :
    ∃ sigil b rest, w = sigil :: b :: rest ∧
      ∀ mode, ofBytes mode w = ⟨.lexeme k, Byte.run mode.continues rest + 2⟩ := by
  obtain ⟨v, member, ⟨s, rfl⟩, _⟩ := word_of_ofBytes munch
  have rule : ∃ sigil, v ∈ mark sigil * one Byte.isSigilStart * many Byte.isNameByte ∧
      ∀ mode rest, ofBytes mode (sigil :: rest) = ofSigil mode k rest := by
    rw [Class.words_eq] at member
    rcases sigiled with rfl | rfl
    · exact ⟨Byte.dollar, member, fun _ _ => rfl⟩
    · exact ⟨Byte.percent, member, fun _ _ => rfl⟩
  obtain ⟨sigil, member, rule⟩ := rule
  obtain ⟨front, joined, u, _, rfl⟩ := Language.mem_mul.mp member
  obtain ⟨first, marked, second, ⟨b, starts, rfl⟩, rfl⟩ := Language.mem_mul.mp joined
  rw [mem_mark.mp marked]
  refine ⟨sigil, b, u ++ s, by simp, fun mode => ?_⟩
  simp [rule, ofSigil, starts]

theorem ofBytes_glob_of_sigiled (sigiled : k.Sigiled)
    (munch : ofBytes .normal w = ⟨.lexeme k, n⟩) :
    ofBytes .glob w = ⟨.lexeme k, n + Byte.run Byte.isPatternByte (w.drop n)⟩ ∧
      Byte.run Byte.isNameByte (w.drop n) = 0 := by
  obtain ⟨sigil, b, rest, rfl, modes⟩ := ofBytes_sigiled sigiled munch
  have pattern : ∀ b : Byte, b.isNameByte = true → b.isPatternByte = true := by
    simp +contextual [Byte.isPatternByte]
  have normal := (modes .normal).symm.trans munch
  have glob := modes .glob
  simp only [Mode.continues, mk.injEq, true_and] at normal glob
  subst normal
  rw [List.drop_succ_cons, List.drop_succ_cons, glob, Byte.run_of_imp pattern rest]
  refine ⟨?_, Byte.run_drop_run _ _⟩
  rw [Nat.add_right_comm]

theorem ofBytes_glob_of_other (other : ∀ k, (ofBytes .normal w).tag = .lexeme k → ¬ k.Sigiled) :
    ofBytes .glob w = ofBytes .normal w := by
  have sigilRule : ∀ k tail, k.Sigiled → (∀ k', (ofSigil .normal k tail).tag = .lexeme k' →
      ¬ k'.Sigiled) → ofSigil .glob k tail = ofSigil .normal k tail := by
    intro k tail sigiled other
    cases tail with
    | nil => rfl
    | cons b rest =>
      by_cases starts : b.isSigilStart = true
      · exact absurd sigiled (other k (by simp [ofSigil, starts]))
      · simp [ofSigil, starts]
  cases w with
  | nil => rfl
  | cons sigil tail =>
    by_cases dollar : sigil = Byte.dollar
    · subst dollar
      exact sigilRule .variable tail (.inl rfl) other
    by_cases percent : sigil = Byte.percent
    · subst percent
      exact sigilRule .function tail (.inr rfl) other
    -- No other rule looks at the mode.
    simp [ofBytes, dollar, percent]

end Munch

/-! ## Lexemes -/

namespace Lexeme

/-- A name behind a sigil with a wildcard behind it. -/
def BeforeWildcard (source : Source) (l : Lexeme) : Prop :=
  (∃ k : Class, k.Sigiled ∧ l.tag = .lexeme k) ∧ source.bytes[l.stop]? = some Byte.star

/-- How the lexeme `g` of glob mode differs from the lexeme `n` of normal mode. -/
structure Globs (source : Source) (n g : Lexeme) : Prop where
  tag_eq : g.tag = n.tag
  start_eq : g.start = n.start
  same : ¬ n.BeforeWildcard source → g = n
  longer : n.BeforeWildcard source → n.length < g.length ∧
    g.length = n.length + Byte.run Byte.isPatternByte (source.bytes.drop n.stop)

end Lexeme

theorem Byte.run_pattern_eq_zero {w : List Byte} (ended : run isNameByte w = 0)
    (tame : w.head? ≠ some star) : run isPatternByte w = 0 := by
  cases w with
  | nil => rfl
  | cons b w =>
    have unnamed := head_of_run_eq_zero ended
    have unstarred : b ≠ star := by simpa using tame
    simp [run_cons, isPatternByte, unnamed, unstarred]

theorem Cursor.scan_glob (c : Cursor) :
    (c.scan .normal).1.Globs c.source (c.scan .glob).1 := by
  by_cases name : ∃ k : Class, k.Sigiled ∧ (c.scan .normal).1.tag = .lexeme k
  · obtain ⟨k, sigiled, tagged⟩ := name
    have munch : Munch.ofBytes .normal c.skipSpace.rest =
        ⟨.lexeme k, (c.scan .normal).1.length⟩ := by
      rw [← tagged]
      rfl
    obtain ⟨glob, ended⟩ := Munch.ofBytes_glob_of_sigiled sigiled munch
    have behind : c.skipSpace.rest.drop (c.scan .normal).1.length =
        c.source.bytes.drop (c.scan .normal).1.stop := by
      rw [rest, List.drop_drop]
      rfl
    rw [behind] at glob ended
    have tag : (c.scan .glob).1.tag = .lexeme k := congrArg Munch.tag glob
    have length : (c.scan .glob).1.length = _ := congrArg Munch.length glob
    refine ⟨tag.trans tagged.symm, rfl, fun tame => ?_, fun wild => ?_⟩
    · have unstarred : (c.source.bytes.drop (c.scan .normal).1.stop).head? ≠ some Byte.star := by
        intro star
        exact tame ⟨⟨k, sigiled, tagged⟩, by rw [← List.head?_drop, star]⟩
      have same : Munch.ofBytes .glob c.skipSpace.rest = Munch.ofBytes .normal c.skipSpace.rest := by
        rw [glob, munch, Byte.run_pattern_eq_zero ended unstarred, Nat.add_zero]
      simp only [scan, same]
    · refine ⟨?_, length⟩
      obtain ⟨inside, found⟩ := List.getElem?_eq_some_iff.mp wild.2
      rw [length, List.drop_eq_getElem_cons inside, found, Byte.run_cons, if_pos (by decide)]
      dsimp only
      omega
  · have same : Munch.ofBytes .glob c.skipSpace.rest = Munch.ofBytes .normal c.skipSpace.rest :=
      Munch.ofBytes_glob_of_other fun k tagged sigiled => name ⟨k, sigiled, tagged⟩
    refine ⟨congrArg Munch.tag same, rfl, fun _ => ?_, fun wild => absurd wild.1 name⟩
    simp only [scan, same]

/-! ## Tokens -/

namespace Token

/-- A name behind a sigil with a wildcard behind it. -/
def BeforeWildcard (source : Source) (t : Token) : Prop :=
  (t.kind = .variable ∨ t.kind = .function) ∧
    source.bytes[t.span.stop]? = some Byte.star

/-- How the token `g` of glob mode differs from the token `n` of normal mode. -/
structure Globs (source : Source) (n g : Token) : Prop where
  kind_eq : g.kind = n.kind
  start_eq : g.span.start = n.span.start
  payload_eq : g.payload = n.payload
  same : ¬ n.BeforeWildcard source → g = n
  longer : n.BeforeWildcard source → n.span.stop < g.span.stop ∧
    Text.bytes g.text = Text.bytes n.text ++
      (source.bytes.drop n.span.stop).takeWhile Byte.isPatternByte

theorem beforeWildcard_iff {source : Source} {l : Lexeme} {text : String} {t : Token}
    (decoded : ofLexeme source.text l text = .ok t) :
    t.BeforeWildcard source ↔ l.BeforeWildcard source := by
  cases ofLexeme_ok decoded with
  | inl word =>
    obtain ⟨k, payload, tagged, _, rfl⟩ := word
    have sigiled : Kind.lexeme k = .variable ∨ Kind.lexeme k = .function ↔ k.Sigiled :=
      or_congr (Kind.lexeme_inj (k := .variable)) (Kind.lexeme_inj (k := .function))
    simp [BeforeWildcard, Lexeme.BeforeWildcard, tagged, sigiled]
  | inr ended =>
    obtain ⟨terminator, rfl⟩ := ended
    have noLexeme : ∀ k, l.tag ≠ .lexeme k := by
      intro k tagged
      simp [tagged, Tag.isTerminator] at terminator
    simp [BeforeWildcard, Lexeme.BeforeWildcard, nop, noLexeme]

end Token

/-- A word without quotes goes from boundary to boundary, wherever the fragment ends. -/
theorem Source.aligned_word {source : Source} {p n : Nat} {mode : Mode} {k : Class}
    (aligned : source.Aligned p) (unquoted : k ≠ .quoted)
    (munch : Munch.ofBytes mode (source.bytes.drop p) = ⟨.lexeme k, n⟩) :
    source.Aligned (p + n) := by
  have munched := Munch.ofBytes_munched mode (source.bytes.drop p)
  rw [munch] at munched
  generalize ahead : source.bytes.drop p = r at munched
  cases munched with
  | word _ _ member => exact aligned_add aligned ahead (Class.words_ascii mode unquoted member)

theorem Source.extract_run (source : Source) (p : Nat) (test : Byte → Bool) :
    source.bytes.extract p (p + Byte.run test (source.bytes.drop p)) =
      (source.bytes.drop p).takeWhile test := by
  rw [List.extract_eq_take_drop, Nat.add_sub_cancel_left]
  exact (List.prefix_iff_eq_take.mp (List.takeWhile_prefix test)).symm

namespace Cursor

variable {c : Cursor} {mode : Mode}

theorem read_of_misaligned (outside : ¬ c.source.Aligned c.skipSpace.pos) :
    (c.read mode).1 = .error .misaligned := by
  have uncut : c.slice? (c.scan mode).1.start (c.scan mode).1.stop = none := by
    cases cut : c.slice? (c.scan mode).1.start (c.scan mode).1.stop with
    | none => rfl
    | some text => exact absurd (Source.aligned_of_slice? cut).1 outside
  simp [read_eq, uncut]

/-- A name that starts between two characters can be read in either mode. -/
theorem read_of_sigiled {k : Class} (aligned : c.source.Aligned c.skipSpace.pos)
    (sigiled : k.Sigiled) (tagged : (c.scan mode).1.tag = .lexeme k) :
    ∃ text, Text.bytes text = c.source.bytes.extract c.skipSpace.pos (c.scan mode).1.stop ∧
      (c.read mode).1 =
        .ok ⟨.lexeme k, text, ⟨c.skipSpace.pos, (c.scan mode).1.stop⟩, .absent⟩ := by
  have munch : Munch.ofBytes mode c.skipSpace.rest = ⟨.lexeme k, (c.scan mode).1.length⟩ := by
    rw [← tagged]
    rfl
  have unquoted : k ≠ .quoted := by rcases sigiled with rfl | rfl <;> simp
  have valueless : ∀ w, Payload.ofBytes? k w = some .absent := by
    rcases sigiled with rfl | rfl <;> exact fun _ => rfl
  obtain ⟨text, cut⟩ := Source.slice?_of_aligned aligned (Source.aligned_word aligned unquoted munch)
    (Nat.le_add_right _ _)
  have here : c.slice? (c.scan mode).1.start (c.scan mode).1.stop = some text := cut
  refine ⟨text, Source.bytes_of_slice? cut, ?_⟩
  simp only [read_eq, here, Token.ofLexeme, tagged, valueless]
  rfl

theorem read_glob (c : Cursor) :
    (∃ failure, (c.read .normal).1 = .error failure ∧ (c.read .glob).1 = .error failure) ∨
      ∃ n g, (c.read .normal).1 = .ok n ∧ (c.read .glob).1 = .ok g ∧ n.Globs c.source g := by
  have globs := c.scan_glob
  by_cases wild : (c.scan .normal).1.BeforeWildcard c.source
  · obtain ⟨k, sigiled, tagged⟩ := wild.1
    by_cases aligned : c.source.Aligned c.skipSpace.pos
    · obtain ⟨longer, length⟩ := globs.longer wild
      obtain ⟨text, bytes, normal⟩ := read_of_sigiled aligned sigiled tagged
      obtain ⟨text', bytes', glob⟩ := read_of_sigiled aligned sigiled (globs.tag_eq.trans tagged)
      have start : c.skipSpace.pos ≤ (c.scan .normal).1.stop := Nat.le_add_right _ _
      have stop : (c.scan .glob).1.stop = (c.scan .normal).1.stop +
          Byte.run Byte.isPatternByte (c.source.bytes.drop (c.scan .normal).1.stop) := by
        rw [Lexeme.stop, globs.start_eq, length, ← Nat.add_assoc]
        rfl
      refine .inr ⟨_, _, normal, glob, rfl, rfl, rfl, fun tame => ?_, fun _ => ⟨?_, ?_⟩⟩
      · exact absurd ⟨sigiled.imp (congrArg Kind.lexeme) (congrArg Kind.lexeme), wild.2⟩ tame
      · simp only [Lexeme.stop, globs.start_eq]
        omega
      · rw [bytes, bytes', stop, c.source.extract_append start (Nat.le_add_right _ _),
          Source.extract_run]
    · exact .inl ⟨.misaligned, read_of_misaligned aligned, read_of_misaligned aligned⟩
  · -- The two scans find the same lexeme, so that the same text is cut and decoded.
    have lexeme := globs.same wild
    have moved : (c.scan .glob).2 = (c.scan .normal).2 :=
      congrArg (fun l : Lexeme => c.skipSpace.advance l.length) lexeme
    have same : c.read .glob = c.read .normal := by
      simp only [read, lexeme, moved]
    cases c.read_cases .normal with
    | inl ok =>
      obtain ⟨t, behind, fetched⟩ := ok
      obtain ⟨text, _, decoded, _⟩ := read_eq_ok_iff.mp fetched
      refine .inr ⟨t, t, by rw [fetched], by rw [same, fetched], rfl, rfl, rfl, fun _ => rfl, ?_⟩
      intro named
      exact absurd ((Token.beforeWildcard_iff decoded).mp named) wild
    | inr refused =>
      obtain ⟨failure, refused⟩ := refused
      exact .inl ⟨failure, by rw [refused], by rw [same, refused]⟩

theorem read_glob_of_normal {c' : Cursor} {t : Token} (fetched : c.read .normal = (.ok t, c')) :
    ∃ u c'', c.read .glob = (.ok u, c'') := by
  cases c.read_glob with
  | inl failed =>
    obtain ⟨failure, refused, _⟩ := failed
    rw [fetched] at refused
    cases refused
  | inr ok =>
    obtain ⟨_, g, _, glob, _⟩ := ok
    exact ⟨g, (c.read .glob).2, Prod.ext glob rfl⟩

end Cursor

/-! ## Readers -/

/-- Glob mode only ever extends names behind a sigil, after any calls and whatever is read ahead:
    both modes fail alike, or they give tokens of one kind, start and value, which are equal
    unless a wildcard follows a name. The same holds of the lexemes at any place of the text. -/
theorem Reader.run_glob_extends {text : String} {calls : List Call} {r : Reader}
    (reached : ((ofText text).run calls).2 = r) :
    ((∃ failure, (r.fetch .next).1 = .error failure ∧ (r.fetch .glob).1 = .error failure) ∨
      ∃ n g, (r.fetch .next).1 = .ok n ∧ (r.fetch .glob).1 = .ok g ∧
        n.Globs (Source.ofText text) g) ∧
    ∀ p, ((Cursor.mk (Source.ofText text) p).scan .normal).1.Globs (Source.ofText text)
      ((Cursor.mk (Source.ofText text) p).scan .glob).1 := by
  have intact : Intact (Source.ofText text) r := by
    rw [← reached]
    exact (intact_ofText text).run calls
  have next := (fetch_simulates intact.coherent .next).result_eq
  have glob := (fetch_simulates intact.coherent .glob).result_eq
  have source : r.origin.source = Source.ofText text := intact.source_eq
  rw [next, glob, ← source]
  exact ⟨r.origin.read_glob, fun p => Cursor.scan_glob ⟨r.origin.source, p⟩⟩

theorem Reader.run_glob_extends_pattern :
    ∃ r n g, ((ofText "x %f* 'é'").run [.fetch .next, .fetch .peek]).2 = r ∧
      r.lookahead.isSome = true ∧ (r.fetch .next).1 = .ok n ∧ (r.fetch .glob).1 = .ok g ∧
      n.BeforeWildcard (Source.ofText "x %f* 'é'") ∧ n.span.stop < g.span.stop ∧
      Text.bytes g.text = Text.bytes n.text ++
        ((fragment "x %f* 'é'").drop n.span.stop).takeWhile Byte.isPatternByte := by
  have reached : ((ofText "x %f* 'é'").run [.fetch .next, .fetch .peek]).2 =
      ((ofText "x %f* 'é'").run [.fetch .next, .fetch .peek]).2 := rfl
  have normal : (((ofText "x %f* 'é'").run [.fetch .next, .fetch .peek]).2.fetch .next).1 =
      .ok ⟨.function, "%f", ⟨2, 4⟩, .absent⟩ := by
    decide +kernel
  have wild : Token.BeforeWildcard (Source.ofText "x %f* 'é'")
      ⟨.function, "%f", ⟨2, 4⟩, .absent⟩ :=
    ⟨.inr rfl, by decide +kernel⟩
  obtain ⟨⟨failure, refused, _⟩ | ⟨n, g, ok, glob, globs⟩, _⟩ := Reader.run_glob_extends reached
  · rw [normal] at refused
    cases refused
  · rw [normal] at ok
    cases ok
    exact ⟨_, _, g, reached, rfl, normal, glob, wild, globs.longer wild⟩

end CurveScript
