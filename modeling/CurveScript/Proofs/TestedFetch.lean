import CurveScript.Proofs.Outcome

/-! # Tested fetches

`expect` and `takeIf` look at the next token and take it if it passes a test. They are therefore
no more than `next` with a guard: `Reader.Guarded r f test otherwise` says that `f` fails where
`next` fails, takes what `next` takes if that passes the test, and otherwise answers in a way of
its own and takes nothing.

The five expectations differ in their tests and in how they name the token that was found. All
of them are settled by `Reader.expect_guarded`. -/

namespace CurveScript

namespace Reader

/-- The fetch `f` is `next` behind a test. Where a token fails the test, `otherwise` is the
    answer, the position stays, and `next` still takes the token. -/
structure Guarded (r : Reader) (f : Fetch) (test : Token → Prop)
    (otherwise : Token → Except Failure Token) : Prop where
  refused : ∀ failure, (r.fetch .next).1 = .error failure → r.fetch f = (.error failure, r)
  passed : ∀ t, (r.fetch .next).1 = .ok t → test t → r.fetch f = r.fetch .next
  failed : ∀ t, (r.fetch .next).1 = .ok t → ¬ test t →
    (r.fetch f).1 = otherwise t ∧ (r.fetch f).2.position = r.position ∧
      (r.fetch f).2.fetch .next = r.fetch .next

/-- The diagnostic for a token other than the expected one. It points behind the token, and it
    names the token unless that marks the end. -/
def unexpected (text expected : String) (naming : Token → String) (t : Token) :
    Except Failure Token :=
  .error (.diagnostic (.locate
    (.mismatch expected (if t.kind = .nop then none else some (naming t))) text t.span.stop))

variable {r : Reader} {f : Fetch} {test : Token → Prop} {otherwise : Token → Except Failure Token}

theorem Guarded.congr {test' : Token → Prop} (guarded : Guarded r f test otherwise)
    (same : ∀ t, test t ↔ test' t) : Guarded r f test' otherwise where
  refused := guarded.refused
  passed t ok holds := guarded.passed t ok ((same t).mpr holds)
  failed t ok fails := guarded.failed t ok fun holds => fails ((same t).mp holds)

theorem guarded_of_refused {failure : Failure} (refused : r.fetch .next = (.error failure, r))
    (alike : r.fetch f = (.error failure, r)) : Guarded r f test otherwise := by
  constructor
  · intro failure' failed
    rw [refused] at failed
    cases failed
    exact alike
  · intro t ok
    simp [refused] at ok
  · intro t ok
    simp [refused] at ok

/-- What has been looked at is kept, so that the position stays and `next` takes it. -/
theorem guarded_of_kept {t : Token} {c : Cursor} (taken : r.fetch .next = (.ok t, ⟨c, none⟩))
    (passed : test t → r.fetch f = (.ok t, ⟨c, none⟩))
    (failed : ¬ test t → r.fetch f = (otherwise t, ⟨c, some ⟨t, r.position⟩⟩)) :
    Guarded r f test otherwise := by
  constructor
  · intro failure refused
    simp [taken] at refused
  · intro u ok holds
    rw [taken] at ok ⊢
    cases ok
    exact passed holds
  · intro u ok fails
    rw [taken] at ok ⊢
    cases ok
    rw [failed fails]
    exact ⟨rfl, rfl, rfl⟩

theorem expect_guarded (coherent : r.Coherent) (e : Expectation) :
    Guarded r (.expect e) (e.accepts · = true)
      (unexpected r.cursor.source.text e.describe e.nameFound) := by
  cases ahead_cases coherent with
  | inl found =>
    obtain ⟨t, c, fetched, taken, seen⟩ := found
    have reads := Cursor.read_ok fetched
    have source : c.source = r.cursor.source := reads.source_eq
    apply guarded_of_kept taken
    · intro accepted
      simp [fetch, expect, seen, accepted, next]
    · intro rejected
      simp [fetch, expect, seen, rejected, unexpected, source, reads.stop_eq, Expectation.mismatch,
        Token.isNop]
  | inr failed =>
    obtain ⟨failure, _, refused, seen⟩ := failed
    apply guarded_of_refused refused
    simp [fetch, expect, seen]

theorem takeIf_guarded (coherent : r.Coherent) (k : Kind) :
    Guarded r (.takeIf k) (·.kind = k) fun _ => .ok (.nop r.position) := by
  cases ahead_cases coherent with
  | inl found =>
    obtain ⟨t, c, _, taken, seen⟩ := found
    apply guarded_of_kept taken
    · intro same
      simp [fetch, takeIf, seen, same, next]
    · intro differs
      simp [fetch, takeIf, seen, differs, position]
  | inr failed =>
    obtain ⟨failure, _, refused, seen⟩ := failed
    apply guarded_of_refused refused
    simp [fetch, takeIf, seen]

/-- Every tested fetch is `next` behind its test, after any calls and for any kinds and texts.
    Expectations of kinds alone name the kind of the token that was found, all others name its
    text. Where `takeIf` takes nothing it answers with an empty token at the position. -/
theorem run_guarded {text : String} {calls : List Call} {r : Reader}
    (reached : ((ofText text).run calls).2 = r) :
    (∀ k, Guarded r (.expect (.kind k)) (·.kind = k)
      (unexpected text k.name (·.kind.name))) ∧
    (∀ j k, Guarded r (.expect (.eitherKind j k)) (fun t => t.kind = j ∨ t.kind = k)
      (unexpected text (j.name ++ " or " ++ k.name) (·.kind.name))) ∧
    (∀ x, Guarded r (.expect (.text x)) (·.text = x)
      (unexpected text ("`" ++ x ++ "'") fun t => "`" ++ t.text ++ "'")) ∧
    (∀ x y, Guarded r (.expect (.eitherText x y)) (fun t => t.text = x ∨ t.text = y)
      (unexpected text ("`" ++ x ++ "'" ++ " or " ++ ("`" ++ y ++ "'"))
        fun t => "`" ++ t.text ++ "'")) ∧
    (∀ k x, Guarded r (.expect (.kindOrText k x)) (fun t => t.kind = k ∨ t.text = x)
      (unexpected text (k.name ++ " or " ++ ("`" ++ x ++ "'")) fun t => "`" ++ t.text ++ "'")) ∧
    (∀ k, Guarded r (.takeIf k) (·.kind = k) fun _ => .ok (.nop r.position)) := by
  have intact : Intact (Source.ofText text) r := by
    rw [← reached]
    exact (intact_ofText text).run calls
  have source : r.cursor.source.text = text := congrArg Source.text intact.source_eq
  have expected := fun e => expect_guarded intact.coherent e
  rw [source] at expected
  refine ⟨fun k => ?_, fun j k => ?_, fun x => ?_, fun x y => ?_, fun k x => ?_, fun k => ?_⟩
  · exact (expected (.kind k)).congr (by simp [Expectation.accepts])
  · exact (expected (.eitherKind j k)).congr (by simp [Expectation.accepts])
  · exact (expected (.text x)).congr (by simp [Expectation.accepts])
  · exact (expected (.eitherText x y)).congr (by simp [Expectation.accepts])
  · exact (expected (.kindOrText k x)).congr (by simp [Expectation.accepts])
  · exact takeIf_guarded intact.coherent k

theorem run_guarded_end :
    ∃ r, ((ofText "plot aµ #").run [.fetch .next, .fetch .word, .fetch .peek]).2 = r ∧
      (r.fetch .next).1 = .ok (.nop 9) ∧
      r.fetch (.expect (.text "")) = r.fetch .next ∧
      (r.fetch (.expect (.kind .word))).1 = .error (.diagnostic
        (.locate (.mismatch "word" none) "plot aµ #" 9)) ∧
      (r.fetch (.takeIf .word)).1 = .ok (.nop 8) ∧
      (r.fetch (.takeIf .word)).2.fetch .next = r.fetch .next := by
  have reached : ((ofText "plot aµ #").run [.fetch .next, .fetch .word, .fetch .peek]).2 =
      ((ofText "plot aµ #").run [.fetch .next, .fetch .word, .fetch .peek]).2 := rfl
  have ended : (((ofText "plot aµ #").run [.fetch .next, .fetch .word, .fetch .peek]).2.fetch
      .next).1 = .ok (.nop 9) := by
    rfl
  obtain ⟨kind, _, raw, _, _, taking⟩ := run_guarded reached
  have mismatched := (kind .word).failed _ ended (by simp [Token.nop])
  have untaken := (taking .word).failed _ ended (by simp [Token.nop])
  exact ⟨_, reached, ended, (raw "").passed _ ended rfl, mismatched.1, untaken.1, untaken.2.2⟩

end Reader

end CurveScript
