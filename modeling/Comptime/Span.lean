/-!
# Spans

A span is a range of bytes in a source file. Spans are ordered by file, then by start, then by
end, which is the order in which diagnostics are reported.
-/

namespace Comptime

/-- The bytes from `start` to `stop` of a file. -/
structure Span where
  file : Nat
  start : Nat
  stop : Nat
deriving DecidableEq, Repr, Inhabited

namespace Span

/-- The span of what has no place in any source. -/
def dummy : Span := ⟨0, 0, 0⟩

/-- The least span that covers both. Spans of two files have none, and the first is kept. -/
def cover (a b : Span) : Span :=
  if a.file = b.file then ⟨a.file, min a.start b.start, max a.stop b.stop⟩ else a

/-- By file, then start, then end. -/
def compare (a b : Span) : Ordering :=
  (Ord.compare a.file b.file).then ((Ord.compare a.start b.start).then (Ord.compare a.stop b.stop))

/-- The form of messages: `file#0:4..10`. -/
def text (s : Span) : String :=
  "file#" ++ toString s.file ++ ":" ++ toString s.start ++ ".." ++ toString s.stop

/-- No span comes before every span. -/
def compareOptional : Option Span → Option Span → Ordering
  | none, none => .eq
  | none, some _ => .lt
  | some _, none => .gt
  | some a, some b => a.compare b

end Span

end Comptime
