import CurveScript.Expectation
import CurveScript.Tokens

/-! # Readers

A parser fetches tokens through a reader, and chooses by context how the next one is
fetched. A reader is a cursor and at most one token read ahead. Every call answers with
a result and the reader to go on with, also when it fails. Main ingredients:

* `next`, `peek` and `pushBack`, for ordinary tokens;
* `nextGlob`, where `*` continues a name behind a sigil;
* `word`, `restOfCommand` and `restOfLine`, for text that is taken as it stands;
* `expect` and `takeIf`, which test the next token first. -/

namespace CurveScript

/-- A token read ahead, with the offset where reading it began. -/
structure Lookahead where
  token : Token
  resume : Nat
  deriving DecidableEq, Repr

/-- A cursor behind everything read so far, and the token that was read but not taken yet. -/
structure Reader where
  cursor : Cursor
  lookahead : Option Lookahead

namespace Reader

def ofText (text : String) : Reader :=
  ⟨.ofText text, none⟩

def input? (r : Reader) : Option String :=
  r.cursor.slice? 0 r.cursor.source.size

/-- The offset behind everything taken so far. A token read ahead does not count. -/
def position (r : Reader) : Nat :=
  match r.lookahead with
  | some ahead => ahead.resume
  | none => r.cursor.pos

/-- A diagnostic for a message of the parser's own, at the place of the cursor. -/
def raise (r : Reader) (message : String) : Diagnostic :=
  .locate (.raised message) r.cursor.source.text r.cursor.pos

/-! ## Ordinary tokens -/

def next (r : Reader) : Except Failure Token × Reader :=
  match r.lookahead with
  | some ahead => (.ok ahead.token, ⟨r.cursor, none⟩)
  | none =>
    match r.cursor.read .normal with
    | (.ok token, cursor) => (.ok token, ⟨cursor, none⟩)
    | (.error failure, cursor) => (.error failure, ⟨cursor, none⟩)

def peek (r : Reader) : Except Failure Token × Reader :=
  match r.lookahead with
  | some ahead => (.ok ahead.token, r)
  | none =>
    match r.cursor.read .normal with
    | (.ok token, cursor) => (.ok token, ⟨cursor, some ⟨token, r.cursor.pos⟩⟩)
    | (.error failure, cursor) => (.error failure, ⟨cursor, none⟩)

/-- Give a token back: reading goes on from its first byte. -/
def pushBack (token : Token) (r : Reader) : Reader :=
  ⟨r.cursor.moveTo token.span.start, none⟩

/-- The cursor at the start of the token read ahead, if there is one. -/
def unread (r : Reader) : Cursor :=
  match r.lookahead with
  | some ahead => r.cursor.moveTo ahead.token.span.start
  | none => r.cursor

/-- Take the next token, with `*` continuing a name behind a sigil. A token read ahead
    is read again. If that is refused, cursor and token are restored from what was saved. -/
def nextGlob (r : Reader) : Except Failure Token × Reader :=
  let saved := r.cursor.pos
  match r.unread.read .glob with
  | (.ok token, cursor) => (.ok token, ⟨cursor, none⟩)
  | (.error (.diagnostic d), cursor) =>
    (.error (.diagnostic d), ⟨cursor.moveTo saved, r.lookahead⟩)
  | (.error .misaligned, _) => (.error .misaligned, r)

/-! ## Text taken as it stands -/

/-- Take the next token and extend it to where `skip` moves the cursor behind it. A
    string and the end are taken unchanged. -/
def extend (kind : Kind) (skip : Cursor → Cursor) (r : Reader) :
    Except Failure Token × Reader :=
  match r.next with
  | (.error failure, r') => (.error failure, r')
  | (.ok token, r') =>
    if token.kind == .quoted || token.isNop then (.ok token, r')
    else
      let cursor := skip r'.cursor
      match cursor.sliceFrom? token.span.start with
      | some text =>
        (.ok ⟨kind, text, ⟨token.span.start, cursor.pos⟩, .absent⟩, ⟨cursor, none⟩)
      | none => (.error .misaligned, r)

/-- Take a bare word: everything up to white space, `;`, `#` or the end. -/
def word (r : Reader) : Except Failure Token × Reader :=
  r.extend .word Cursor.skipWord

/-- Take the rest of the command: everything up to `;`, `#` or the end. -/
def restOfCommand (r : Reader) : Except Failure Token × Reader :=
  r.extend .rest Cursor.skipCommand

/-- Take everything left as one token. Nothing is scanned, so that any text will do. -/
def restOfLine (r : Reader) : Except Failure Token × Reader :=
  let start := match r.lookahead with
    | some ahead => ahead.token.span.start
    | none => r.cursor.skipSpace.pos
  let cursor := r.cursor.skipToEnd
  match cursor.sliceFrom? start with
  | some text => (.ok ⟨.rest, text, ⟨start, cursor.pos⟩, .absent⟩, ⟨cursor, none⟩)
  | none => (.error .misaligned, r)

/-! ## Tested tokens -/

/-- Take the next token if it meets an expectation. Otherwise it is left as the token
    read ahead, and the diagnostic points behind it. -/
def expect (e : Expectation) (r : Reader) : Except Failure Token × Reader :=
  match r.peek with
  | (.error failure, r') => (.error failure, r')
  | (.ok token, r') =>
    if e.accepts token then r'.next
    else
      (.error (.diagnostic (.locate (e.mismatch token) r'.cursor.source.text r'.cursor.pos)), r')

/-- Take the next token if it is of a kind. Otherwise nothing is taken, and the answer
    is an empty token at the present position. -/
def takeIf (kind : Kind) (r : Reader) : Except Failure Token × Reader :=
  match r.peek with
  | (.error failure, r') => (.error failure, r')
  | (.ok token, r') =>
    if token.kind == kind then r'.next else (.ok (.nop r'.position), r')

end Reader

end CurveScript
