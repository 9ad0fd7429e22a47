/-!
# Spans

A span is a half-open range of byte offsets into a source text. Every node and nearly every
diagnostic carries one. This file fixes

* `Span` -- the pair of offsets; nothing forces `start ≤ stop`, and a span that runs backwards
  covers no byte;
* `Span.length`, `Span.isEmpty` -- how many bytes a span covers;
* `Span.union` -- the smallest span over two spans;
* `Span.text` -- the form `start..stop` that diagnostics and tree dumps show.
-/

namespace Trivalent

/-- A half-open range `[start, stop)` of byte offsets. -/
structure Span where
  /-- First byte covered. -/
  start : Nat := 0
  /-- One past the last byte covered. -/
  stop : Nat := 0
  deriving DecidableEq, Repr, Inhabited

namespace Span

/-- The smallest span that covers both operands. -/
def union (a b : Span) : Span := ⟨min a.start b.start, max a.stop b.stop⟩

/-- Number of bytes covered; zero for a span that runs backwards. -/
def length (s : Span) : Nat := s.stop - s.start

/-- A span is empty when it covers no byte. -/
def isEmpty (s : Span) : Bool := s.length == 0

/-- The written form `start..stop`. -/
def text (s : Span) : String := toString s.start ++ ".." ++ toString s.stop

end Span

end Trivalent
