import FlakeInputs.Source.Position

/-!
# Spans

A span is a half-open stretch of one text.  The name of the file that the text
comes from is not part of it: the name is needed only to show a span.
-/

namespace FlakeInputs

/-- The stretch of text from `start` up to, not including, `stop`. -/
structure Span where
  start : Position
  stop : Position
deriving DecidableEq, Repr

namespace Span

/-- The empty span at a position. -/
def point (p : Position) : Span := ⟨p, p⟩

/-- The span from the start of the first to the end of the second. -/
def join (first last : Span) : Span := ⟨first.start, last.stop⟩

/-- The place where a span starts, as `file:line:column`. -/
def format (file : String) (s : Span) : String :=
  s!"{file}:{s.start.line}:{s.start.column}"

end Span
end FlakeInputs
