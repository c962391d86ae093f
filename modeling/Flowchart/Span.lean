/-!
# Spans

A span is a half-open range of byte offsets into a source text. Its end is never before its start,
and that is part of the type.
-/

namespace Flowchart

/-- The bytes from `start` up to but not including `stop`. -/
structure Span where
  /-- The offset of the first byte. -/
  start : Nat
  /-- The offset behind the last byte. -/
  stop : Nat
  /-- A span does not end before it starts. -/
  start_le_stop : start ≤ stop := by omega
  deriving DecidableEq

namespace Span

/-- The span of what has no place in the source. -/
def nowhere : Span := ⟨0, 0, Nat.le_refl 0⟩

/-- Without a source a span is nowhere. -/
instance : Inhabited Span := ⟨nowhere⟩

/-- The span between two offsets, empty when the second comes before the first. -/
def between (start stop : Nat) : Span :=
  { start, stop := max stop start, start_le_stop := Nat.le_max_right _ _ }

/-- The empty span that stands at an offset. -/
def point (offset : Nat) : Span := ⟨offset, offset, Nat.le_refl offset⟩

/-- The number of bytes in the span. -/
def length (s : Span) : Nat := s.stop - s.start

/-- A span is empty when it holds no byte. -/
def isEmpty (s : Span) : Bool := s.start == s.stop

/-- The smallest span that contains both. -/
def union (s t : Span) : Span :=
  { start := min s.start t.start
    stop := max s.stop t.stop
    start_le_stop := by have := s.start_le_stop; omega }

end Span

end Flowchart
