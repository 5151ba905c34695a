import CurveScript.Proofs.GlobMode
import CurveScript.Proofs.Joining
import CurveScript.Proofs.WellFormed

/-! # Delimiters and what they enclose

Strings stand between quotes and names of variables and functions behind a sigil. Taking the
delimiters of a token off is the reverse of putting them around a text, `Kind.enclose`:

* a token whose text is enclosed decodes to what was enclosed, whatever that is
  (`Token.decoded_of_enclosed`);
* every token that a reader hands out has its delimiters, `Token.Delimited`, since the words of the
  grammar have them (`Class.enclosed_of_mem`);
* a text without quotes that is enclosed in quotes is read as a string, and a name behind its sigil
  as a name, whatever follows (`Cursor.read_enclosed_quoted`, `Cursor.read_enclosed_name`). -/

namespace CurveScript

open Grammar

/-! ## Taking delimiters off -/

/-- A text with the delimiters of a kind of token put around it. -/
def Kind.enclose : Kind → String → String
  | .quoted, s => "'" ++ s ++ "'"
  | .variable, s => "$" ++ s
  | .function, s => "%" ++ s
  | _, s => s

namespace Token

theorem behind?_cons (c : Char) (chars : List Char) : behind? c (c :: chars) = some chars := by
  simp [behind?]

theorem before?_append (c : Char) (chars : List Char) : before? c (chars ++ [c]) = some chars := by
  simp [before?, behind?]

/-- Taking the delimiters off gives what they enclose, even if that has delimiters of its own. -/
theorem decoded_of_enclosed {t : Token} {s : String} (enclosed : t.text = t.kind.enclose s) :
    t.decoded = s := by
  unfold decoded
  rw [enclosed]
  cases t.kind with
  | quoted =>
    have chars : ("'" ++ s ++ "'").toList = quoteChar :: (s.toList ++ [quoteChar]) := by
      simp [quoteChar]
    simp [Kind.enclose, inner?, chars, behind?_cons, before?_append]
  | «variable» | function => simp [Kind.enclose, inner?, behind?_cons]
  | _ => rfl

end Token

/-! ## Delimiters in the grammar -/

theorem Text.append_of_bytes {s : String} {u v : List Byte} (spelled : bytes s = u ++ v)
    (boundary : isBoundary s u.length = true) :
    ∃ front back, s = front ++ back ∧ bytes front = u ∧ bytes back = v := by
  obtain ⟨front, back, rfl, length⟩ := isBoundary_iff_append.mp boundary
  rw [bytes_append] at spelled
  obtain ⟨first, second⟩ := List.append_inj spelled length.symm
  exact ⟨front, back, rfl, first, second⟩

namespace Grammar

variable {s delimiter : String} {b : Byte} {l : Language Byte}

/-- An ASCII delimiter in front of a text can be cut off. -/
theorem bytes_mem_mark_mul (delimits : Text.bytes delimiter = [b]) (ascii : b.isNonAscii = false) :
    Text.bytes s ∈ mark b * l ↔ ∃ inner, s = delimiter ++ inner ∧ Text.bytes inner ∈ l := by
  constructor
  · intro member
    obtain ⟨first, marked, w, inside, joined⟩ := Language.mem_mul.mp member
    rw [mem_mark.mp marked] at joined
    have nonempty : 0 < (Text.bytes s).length := by simp [← joined]
    obtain ⟨c, encoded, boundary⟩ := Text.char_at (Text.isBoundary_zero s) nonempty
    rw [← joined, List.drop_zero] at encoded
    rw [Nat.zero_add, ← (Byte.char_head encoded).2, Byte.charWidth_of_ascii ascii] at boundary
    obtain ⟨front, inner, rfl, same, rfl⟩ := Text.append_of_bytes joined.symm boundary
    exact ⟨inner, by rw [Text.bytes_injective (same.trans delimits.symm)], inside⟩
  · rintro ⟨inner, rfl, inside⟩
    rw [Text.bytes_append, delimits]
    exact Language.append_mem_mul (mem_mark.mpr rfl) inside

/-- An ASCII delimiter at the end of a text can be cut off. -/
theorem bytes_mem_mul_mark (delimits : Text.bytes delimiter = [b]) (ascii : b.isNonAscii = false) :
    Text.bytes s ∈ l * mark b ↔ ∃ inner, s = inner ++ delimiter ∧ Text.bytes inner ∈ l := by
  constructor
  · intro member
    obtain ⟨w, inside, last, marked, joined⟩ := Language.mem_mul.mp member
    rw [mem_mark.mp marked] at joined
    have boundary : Text.isBoundary s w.length = true :=
      Text.isBoundary_of_ascii (by simp [← joined]) ascii
    obtain ⟨inner, back, rfl, rfl, same⟩ := Text.append_of_bytes joined.symm boundary
    exact ⟨inner, by rw [Text.bytes_injective (same.trans delimits.symm)], inside⟩
  · rintro ⟨inner, rfl, inside⟩
    rw [Text.bytes_append, delimits]
    exact Language.append_mem_mul inside (mem_mark.mpr rfl)

/-- What may follow a sigil: a name, in which wildcards may occur. -/
def pattern : Language Byte :=
  one (ascii sigilChar) * many (ascii (patternChar .glob))

theorem pattern_eq : pattern = one Byte.isSigilStart * many Byte.isPatternByte := by
  rw [pattern, ascii_sigilChar, ascii_patternChar]
  rfl

theorem continued_mem_pattern {mode : Mode} {w : List Byte}
    (member : w ∈ one Byte.isSigilStart * many mode.continues) : w ∈ pattern := by
  obtain ⟨first, starts, u, all, rfl⟩ := Language.mem_mul.mp member
  rw [pattern_eq]
  refine Language.append_mem_mul starts (mem_many.mpr fun b inside => ?_)
  have continues := mem_many.mp all b inside
  cases mode with
  | normal => exact Bool.or_eq_true_iff.mpr (.inl continues)
  | glob => exact continues

theorem zeroFree_of_pattern {w : List Byte} (member : w ∈ pattern) : 0 ∉ w := by
  rw [pattern_eq] at member
  obtain ⟨first, ⟨b, starts, rfl⟩, u, all, rfl⟩ := Language.mem_mul.mp member
  intro zero
  cases List.mem_append.mp zero with
  | inl here =>
    rw [← List.mem_singleton.mp here] at starts
    cases starts
  | inr later => cases mem_many.mp all 0 later

end Grammar

/-- What the delimiters of a kind may enclose. -/
def Kind.Admits : Kind → String → Prop
  | .quoted, s => Byte.quote ∉ Text.bytes s
  | .variable, s | .function, s => Text.bytes s ∈ pattern
  | _, _ => True

namespace Class

variable {mode : Mode} {s : String} {k : Class}

theorem mem_quoted_iff : Text.bytes s ∈ quoted.words mode ↔
    ∃ body, s = Kind.enclose .quoted body ∧ Byte.quote ∉ Text.bytes body := by
  have mark : Text.bytes "'" = [Byte.quote] := by decide +kernel
  have unquoted : ∀ w, w ∈ many (· != Byte.quote) ↔ Byte.quote ∉ w := by
    intro w
    rw [mem_many]
    exact ⟨fun all member => by simpa using all _ member,
      fun absent b member => bne_iff_ne.mpr fun same => absent (same ▸ member)⟩
  rw [words_eq]
  dsimp only
  rw [bytes_mem_mul_mark mark rfl]
  simp only [bytes_mem_mark_mul mark rfl, unquoted, Kind.enclose]
  constructor
  · rintro ⟨front, rfl, body, rfl, absent⟩
    exact ⟨body, rfl, absent⟩
  · rintro ⟨body, rfl, absent⟩
    exact ⟨_, rfl, body, rfl, absent⟩

theorem mem_sigiled_iff (sigiled : k.Sigiled) : Text.bytes s ∈ k.words mode ↔
    ∃ name, s = Kind.enclose (.lexeme k) name ∧
      Text.bytes name ∈ one Byte.isSigilStart * many mode.continues := by
  rw [words_eq]
  rcases sigiled with rfl | rfl
  · have dollar : Text.bytes "$" = [Byte.dollar] := by decide +kernel
    dsimp only
    rw [mul_assoc, bytes_mem_mark_mul dollar rfl]
    rfl
  · have percent : Text.bytes "%" = [Byte.percent] := by decide +kernel
    dsimp only
    rw [mul_assoc, bytes_mem_mark_mul percent rfl]
    rfl

theorem enclosed_of_mem (member : Text.bytes s ∈ k.words mode) :
    ∃ inner, s = Kind.enclose (.lexeme k) inner ∧ Kind.Admits (.lexeme k) inner := by
  cases k with
  | quoted => exact mem_quoted_iff.mp member
  | «variable» | function =>
    obtain ⟨name, enclosed, named⟩ := (mem_sigiled_iff (by simp [Sigiled])).mp member
    exact ⟨name, enclosed, continued_mem_pattern named⟩
  | operator op => cases op <;> exact ⟨s, rfl, trivial⟩
  | _ => exact ⟨s, rfl, trivial⟩

end Class

/-! ## Tokens that are handed out -/

namespace Token

variable {t : Token}

/-- A token has the delimiters of its kind, and they enclose what they may enclose. A kind without
    delimiters has its text enclosed as it is. -/
structure Delimited (t : Token) : Prop where
  enclosed : t.text = t.kind.enclose t.decoded
  admitted : t.kind.Admits t.decoded

theorem delimited_of_enclosed {inner : String} (enclosed : t.text = t.kind.enclose inner)
    (admitted : t.kind.Admits inner) : t.Delimited := by
  obtain rfl := decoded_of_enclosed enclosed
  exact ⟨enclosed, admitted⟩

theorem delimited_nop (p : Nat) : (nop p).Delimited :=
  delimited_of_enclosed rfl trivial

theorem Spells.delimited {mode : Mode} {k : Class} (spells : t.Spells mode k) : t.Delimited := by
  obtain ⟨inner, enclosed, admitted⟩ := Class.enclosed_of_mem spells.word
  rw [← spells.kind_eq] at enclosed admitted
  exact delimited_of_enclosed enclosed admitted

end Token

theorem Cursor.delimited_of_read {mode : Mode} {c behind : Cursor} {t : Token}
    (fetched : c.read mode = (.ok t, behind)) : t.Delimited := by
  cases spells_of_read fetched with
  | inl spelled =>
    obtain ⟨k, spells⟩ := spelled
    exact spells.delimited
  | inr marked =>
    rw [marked]
    exact Token.delimited_nop _

theorem Cursor.Takes.delimited {c c' : Cursor} {f : Fetch} {t : Token} (takes : Takes c f t c') :
    t.Delimited := by
  cases takes with
  | passed _ fetched => exact delimited_of_read fetched
  | cut stretch _ =>
    cases stretch with
    | word _ _ | restOfCommand _ _ | restOfLine => exact Token.delimited_of_enclosed rfl trivial

theorem Reader.Fetched.delimited {r : Reader} {f : Fetch} {t : Token}
    {answer : Except Failure Token × Reader} (fetched : Fetched r f answer)
    (ok : answer.1 = .ok t) : t.Delimited := by
  cases fetched with
  | refused _ | uncut _ | mismatched _ _ => cases ok
  | peeked read =>
    cases ok
    exact Cursor.delimited_of_read read
  | absent _ _ =>
    cases ok
    exact Token.delimited_nop _
  | taken takes =>
    cases ok
    exact takes.delimited

/-! ## Reading what is enclosed -/

theorem fragment_behind {s t : String} (zeroFree : 0 ∉ Text.bytes s)
    (short : (Text.bytes s).length ≤ maxFragment) :
    ∃ tail, fragment (s ++ t) = Text.bytes s ++ tail ∧ tail <+: Text.bytes t := by
  obtain ⟨tail, joined⟩ := fragment_prefix_append s t
  rw [fragment_of_zeroFree zeroFree short] at joined
  refine ⟨tail, joined.symm, ?_⟩
  have within : fragment (s ++ t) <+: Text.bytes (s ++ t) :=
    Source.bytes_prefix (Source.ofText (s ++ t))
  rw [← joined, Text.bytes_append] at within
  exact (List.prefix_append_right_inj _).mp within

theorem Kind.zeroFree_enclose {kind : Kind} {inner : String} (zeroFree : 0 ∉ Text.bytes inner) :
    0 ∉ Text.bytes (kind.enclose inner) := by
  have marks : 0 ∉ Text.bytes "'" ∧ 0 ∉ Text.bytes "$" ∧ 0 ∉ Text.bytes "%" := by decide +kernel
  unfold enclose
  split <;> simp [Text.bytes_append, zeroFree, marks]

namespace Cursor

variable {mode : Mode} {k : Class} {inner rest : String}

/-- An enclosed text that the grammar knows is read back if nothing behind it changes the munch. -/
theorem read_enclosed (zeroFree : 0 ∉ Text.bytes inner)
    (short : (Text.bytes (Kind.enclose (.lexeme k) inner)).length ≤ maxFragment)
    (valueless : ∀ w, Payload.ofBytes? k w = some .absent)
    (member : Text.bytes (Kind.enclose (.lexeme k) inner) ∈ k.words mode)
    (munch : ∀ tail, tail <+: Text.bytes rest →
      Munch.ofBytes mode (Text.bytes (Kind.enclose (.lexeme k) inner) ++ tail) =
        ⟨.lexeme k, (Text.bytes (Kind.enclose (.lexeme k) inner)).length⟩) :
    ∃ t c, (ofText (Kind.enclose (.lexeme k) inner ++ rest)).read mode = (.ok t, c) ∧
      t.kind = .lexeme k ∧ t.decoded = inner ∧
      c.pos = (Text.bytes (Kind.enclose (.lexeme k) inner)).length := by
  obtain ⟨tail, ahead, begins⟩ := fragment_behind (t := rest) (Kind.zeroFree_enclose zeroFree) short
  have fetched := read_word ahead member (munch tail begins) (valueless _)
  exact ⟨_, _, fetched, rfl, Token.decoded_of_enclosed rfl, rfl⟩

theorem read_enclosed_quoted (mode : Mode) {body : String} (rest : String)
    (absent : Byte.quote ∉ Text.bytes body) (zeroFree : 0 ∉ Text.bytes body)
    (short : (Text.bytes (Kind.enclose .quoted body)).length ≤ maxFragment) :
    ∃ t c, (ofText (Kind.enclose .quoted body ++ rest)).read mode = (.ok t, c) ∧
      t.kind = .quoted ∧ t.decoded = body ∧
      c.pos = (Text.bytes (Kind.enclose .quoted body)).length := by
  have member : Text.bytes (Kind.enclose .quoted body) ∈ Class.quoted.words mode :=
    Class.mem_quoted_iff.mpr ⟨body, rfl, absent⟩
  exact read_enclosed (k := .quoted) zeroFree short (fun _ => rfl) member fun tail _ =>
    Munch.ofBytes_quoted member tail

theorem read_enclosed_name {name : String} (sigiled : k.Sigiled)
    (named : Text.bytes name ∈ pattern)
    (stops : (Text.bytes rest).head?.any Byte.isPatternByte = false)
    (short : (Text.bytes (Kind.enclose (.lexeme k) name)).length ≤ maxFragment) :
    ∃ t c, (ofText (Kind.enclose (.lexeme k) name ++ rest)).read .glob = (.ok t, c) ∧
      t.kind = .lexeme k ∧ t.decoded = name ∧
      c.pos = (Text.bytes (Kind.enclose (.lexeme k) name)).length := by
  have member : Text.bytes (Kind.enclose (.lexeme k) name) ∈ k.words .glob := by
    rw [pattern_eq] at named
    exact (Class.mem_sigiled_iff sigiled).mpr ⟨name, rfl, named⟩
  have valueless : ∀ w, Payload.ofBytes? k w = some .absent := by
    rcases sigiled with rfl | rfl <;> exact fun _ => rfl
  refine read_enclosed (zeroFree_of_pattern named) short valueless member fun tail begins => ?_
  have nothing : Byte.run Mode.glob.continues tail = 0 := by
    cases tail with
    | nil => rfl
    | cons b tail =>
      obtain ⟨_, joined⟩ := begins
      rw [← joined] at stops
      exact Byte.run_of_head stops tail
  have munch : Munch.ofBytes .glob (Text.bytes (Kind.enclose (.lexeme k) name) ++ tail) =
      ⟨.lexeme k, (Text.bytes (Kind.enclose (.lexeme k) name)).length +
        Byte.run Mode.glob.continues tail⟩ := by
    rw [Class.words_eq] at member
    rcases sigiled with rfl | rfl <;> exact Munch.ofBytes_of_sigil member tail fun _ => rfl
  rwa [nothing] at munch

end Cursor

/-- Taking delimiters off and putting them around a text are inverse to each other. A token that
    any call of a session hands out has the delimiters of its kind around what it decodes to.
    Conversely, what is put between quotes is read as a string that decodes to it, and what is put
    behind a sigil as a name that decodes to it. The text that follows may be of any length and,
    behind a string, anything at all. -/
theorem Reader.decoded_enclose :
    (∀ text calls call t, (((ofText text).run calls).2.call call).1.token? = some t →
      t.Delimited) ∧
    (∀ body rest, Byte.quote ∉ Text.bytes body → 0 ∉ Text.bytes body →
      (Text.bytes (Kind.enclose .quoted body)).length ≤ maxFragment →
      ∃ t r, (ofText (Kind.enclose .quoted body ++ rest)).fetch .next = (.ok t, r) ∧
        t.kind = .quoted ∧ t.decoded = body ∧
        r.position = (Text.bytes (Kind.enclose .quoted body)).length) ∧
    (∀ (k : Class) name rest, k.Sigiled → Text.bytes name ∈ pattern →
      (Text.bytes rest).head?.any Byte.isPatternByte = false →
      (Text.bytes (Kind.enclose (.lexeme k) name)).length ≤ maxFragment →
      ∃ t r, (ofText (Kind.enclose (.lexeme k) name ++ rest)).fetch .glob = (.ok t, r) ∧
        t.kind = .lexeme k ∧ t.decoded = name ∧
        r.position = (Text.bytes (Kind.enclose (.lexeme k) name)).length) := by
  refine ⟨?_, ?_, ?_⟩
  · intro text calls call t handed
    obtain ⟨f, _, ok⟩ := fetch_of_token? handed
    exact (fetch_fetched ((intact_ofText text).run calls).coherent f).delimited ok
  · intro body rest absent zeroFree short
    obtain ⟨t, c, fetched, kind, decoded, behind⟩ :=
      Cursor.read_enclosed_quoted .normal rest absent zeroFree short
    refine ⟨t, ⟨c, none⟩, ?_, kind, decoded, behind⟩
    simp only [fetch, next, ofText, fetched]
  · intro k name rest sigiled named stops short
    obtain ⟨t, c, fetched, kind, decoded, behind⟩ :=
      Cursor.read_enclosed_name sigiled named stops short
    refine ⟨t, ⟨c, none⟩, ?_, kind, decoded, behind⟩
    simp only [fetch, nextGlob, unread, ofText, fetched]

theorem Reader.decoded_enclose_wildcard :
    ((((ofText "x '#;'").run [.fetch .next, .fetch .peek]).2.call (.fetch .next)).1.token? =
        some ⟨.quoted, "'#;'", ⟨2, 6⟩, .absent⟩ ∧
      Token.Delimited ⟨.quoted, "'#;'", ⟨2, 6⟩, .absent⟩) ∧
    (Byte.quote ∉ Text.bytes "€ $#" ∧ 0 ∉ Text.bytes "€ $#" ∧
      (Text.bytes (Kind.enclose .quoted "€ $#")).length ≤ maxFragment ∧
      ∃ t r, (ofText (Kind.enclose .quoted "€ $#" ++ "'")).fetch .next = (.ok t, r) ∧
        t.kind = .quoted ∧ t.decoded = "€ $#" ∧
        r.position = (Text.bytes (Kind.enclose .quoted "€ $#")).length) ∧
    (Class.Sigiled .function ∧ Text.bytes "*" ∈ pattern ∧
      (Text.bytes "(x)").head?.any Byte.isPatternByte = false ∧
      (Text.bytes (Kind.enclose .function "*")).length ≤ maxFragment ∧
      ∃ t r, (ofText (Kind.enclose .function "*" ++ "(x)")).fetch .glob = (.ok t, r) ∧
        t.kind = .function ∧ t.decoded = "*" ∧
        r.position = (Text.bytes (Kind.enclose .function "*")).length) := by
  obtain ⟨handedOut, strings, names⟩ := decoded_enclose
  have handed : (((ofText "x '#;'").run [.fetch .next, .fetch .peek]).2.call
      (.fetch .next)).1.token? = some ⟨.quoted, "'#;'", ⟨2, 6⟩, .absent⟩ := by
    decide +kernel
  have absent : Byte.quote ∉ Text.bytes "€ $#" := by decide +kernel
  have zeroFree : 0 ∉ Text.bytes "€ $#" := by decide +kernel
  have short : (Text.bytes (Kind.enclose .quoted "€ $#")).length ≤ maxFragment := by
    decide +kernel
  have sigiled : Class.Sigiled .function := .inr rfl
  have named : Text.bytes "*" ∈ pattern :=
    Language.mem_mul.mpr ⟨[Byte.star], ⟨Byte.star, by decide +kernel, rfl⟩, [],
      mem_many.mpr (by simp), by decide +kernel⟩
  have stops : (Text.bytes "(x)").head?.any Byte.isPatternByte = false := by decide +kernel
  have short' : (Text.bytes (Kind.enclose .function "*")).length ≤ maxFragment := by
    decide +kernel
  exact ⟨⟨handed, handedOut _ _ _ _ handed⟩,
    ⟨absent, zeroFree, short, strings _ "'" absent zeroFree short⟩,
    ⟨sigiled, named, stops, short', names _ _ _ sigiled named stops short'⟩⟩

end CurveScript
