/-!
# Spans

A half-open range of byte offsets into the source text. An empty span is a caret: it lies in the
span that has a character right after it.
-/

namespace Markup

/-- The byte offsets from `start` up to, and not including, `stop`. -/
structure Span where
  start : Nat
  stop : Nat
  deriving DecidableEq, Repr, Inhabited

namespace Span

/-- Number of bytes covered. -/
def size (span : Span) : Nat :=
  span.stop - span.start

def isEmpty (span : Span) : Bool :=
  span.start == span.stop

/-- Whether any byte of `range` lies in `span`. An empty range overlaps the span it sits in. -/
def overlaps (span range : Span) : Bool :=
  if range.isEmpty then
    decide (span.start ≤ range.start ∧ range.start < span.stop)
  else
    decide (span.start < range.stop ∧ range.start < span.stop)

/-- Whether `range` lies within `span`, its ends included. -/
def contains (span range : Span) : Bool :=
  decide (span.start ≤ range.start ∧ range.stop ≤ span.stop)

end Span

end Markup
