/-
Ranges of source text.

Offsets count bytes from the start of the source.  A span's end is exclusive, but a
search by position also accepts a span that the position only touches.
-/

namespace TreeWalk

/-- A byte offset into the source. -/
abbrev Offset := UInt32

/-- A range of source text, from `start` up to but not including `stop`. -/
structure Span where
  start : Offset
  stop : Offset
deriving DecidableEq, Inhabited

namespace Span

/-- Whether the position lies in the span or touches its end. -/
def touches (r : Span) (pos : Offset) : Bool := r.start ≤ pos && pos ≤ r.stop

/-- The span as reports write it. -/
def text (r : Span) : String := s!"{r.start}..{r.stop}"

end Span

end TreeWalk
