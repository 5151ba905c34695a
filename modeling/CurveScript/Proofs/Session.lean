import CurveScript.Fetch

/-! # Sessions

A session is a parser's dealings with one reader, call after call: fetches, tokens given
back, and questions that leave the reader as it is. Main ingredients:

* `Reader.call`, one call with its answer and the reader it leaves;
* `Reader.run`, a list of calls with all their answers;
* `Reachable text seen r`, which says that `r` is the reader after some session on `text`
  in which only tokens handed out before, those in `seen`, were given back. -/

namespace CurveScript

inductive Call where
  | fetch (f : Fetch)
  | pushBack (t : Token)
  | position
  | input
  | raise (message : String)
  deriving DecidableEq, Repr

/-- What a call answers. Giving a token back answers nothing but that it is done. -/
inductive Answer where
  | fetched (result : Except Failure Token)
  | done
  | offset (n : Nat)
  | text (s : Option String)
  | diagnostic (d : Diagnostic)

def Answer.token? : Answer → Option Token
  | .fetched (.ok t) => some t
  | _ => none

/-- Whether a call gives back nothing but tokens in `seen`. -/
def Call.Owned (seen : List Token) : Call → Prop
  | .pushBack t => t ∈ seen
  | _ => True

namespace Reader

def call : Call → Reader → Answer × Reader
  | .fetch f, r => (.fetched (r.fetch f).1, (r.fetch f).2)
  | .pushBack t, r => (.done, r.pushBack t)
  | .position, r => (.offset r.position, r)
  | .input, r => (.text r.input?, r)
  | .raise message, r => (.diagnostic (r.raise message), r)

/-- The answers to a list of calls, and the reader after the last of them. -/
def run : List Call → Reader → List Answer × Reader
  | [], r => ([], r)
  | call :: calls, r =>
    ((r.call call).1 :: (run calls (r.call call).2).1, (run calls (r.call call).2).2)

/-- Only fetches hand out tokens. -/
theorem fetch_of_token? {r : Reader} {call : Call} {t : Token}
    (handed : (r.call call).1.token? = some t) : ∃ f, call = .fetch f ∧ (r.fetch f).1 = .ok t := by
  cases call with
  | fetch f =>
    refine ⟨f, rfl, ?_⟩
    cases result : (r.fetch f).1 with
    | ok u => simpa [Reader.call, result, Answer.token?] using handed
    | error failure => simp [Reader.call, result, Answer.token?] at handed
  | pushBack u | position | input | raise message => cases handed

end Reader

/-- The reader `r` comes out of a session on `text` that handed out the tokens in `seen`,
    the latest one first, and gave back no others. -/
inductive Reachable (text : String) : List Token → Reader → Prop where
  | start : Reachable text [] (.ofText text)
  | call {seen : List Token} {r : Reader} (call : Call) :
      Reachable text seen r → call.Owned seen →
      Reachable text ((r.call call).1.token?.toList ++ seen) (r.call call).2

end CurveScript
