/-! # Spans

A span is a range of byte offsets, with its first offset included and its last one
excluded. The two ends are kept as they are given: a span whose ends are out of
order contains nothing and has no length. -/

namespace CurveScript

structure Span where
  start : Nat
  stop : Nat
  deriving DecidableEq, Repr

namespace Span

def point (pos : Nat) : Span :=
  ⟨pos, pos⟩

/-- The number of bytes in a span, unless it ends before it starts. -/
def length? (span : Span) : Option Nat :=
  if span.start ≤ span.stop then some (span.stop - span.start) else none

def isEmpty (span : Span) : Bool :=
  span.start == span.stop

def contains (span : Span) (offset : Nat) : Bool :=
  span.start ≤ offset && offset < span.stop

/-- The least span that reaches from the smaller start to the larger stop. -/
def merge (first second : Span) : Span :=
  ⟨min first.start second.start, max first.stop second.stop⟩

def render (span : Span) : String :=
  toString span.start ++ ".." ++ toString span.stop

end Span

end CurveScript
