import Comptime.Trap

/-!
# Diagnostics

Diagnostics are collected in the order in which they arise and reported in the order of their
places: those without a span first, then by span, errors before warnings before notes at one span,
and in order of arrival where all that is equal.
-/

namespace Comptime

/-- How grave a diagnostic is, the gravest first. -/
inductive Severity where
  | error | warning | note
deriving DecidableEq, Repr

namespace Severity

/-- The word for a severity in texts. -/
def word : Severity → String
  | error => "error"
  | warning => "warning"
  | note => "note"

/-- The place in the order of reports. -/
def rank : Severity → Nat
  | error => 0
  | warning => 1
  | note => 2

end Severity

/-- What a diagnostic is about. -/
inductive Topic where
  /-- The program handed over has no proper form. -/
  | internal
  /-- Mismatch, unknown type, impossible conversion. -/
  | type
  /-- Unknown or repeated name, missing or ambiguous overload. -/
  | resolution
  /-- Declarations that depend on each other in a circle. -/
  | dependency
  /-- A fault of code executed at compile time. -/
  | trap (kind : TrapKind)
deriving DecidableEq, Repr

/-- The topic between the brackets of a text. -/
def Topic.text : Topic → String
  | internal => "internal"
  | type => "type"
  | resolution => "resolution"
  | dependency => "dependency"
  | trap kind => "trap(" ++ kind.message ++ ")"

/-- A further place of interest. -/
structure Note where
  message : String
  span : Option Span
deriving DecidableEq, Repr

/-- One message to the author of a program. -/
structure Diagnostic where
  severity : Severity
  topic : Topic
  message : String
  span : Option Span
  notes : List Note
deriving DecidableEq, Repr

namespace Diagnostic

/-- An error at a place. -/
def error (topic : Topic) (message : String) (span : Span) : Diagnostic :=
  ⟨.error, topic, message, some span, []⟩

/-- Add a note. -/
def withNote (d : Diagnostic) (message : String) (span : Option Span) : Diagnostic :=
  { d with notes := d.notes ++ [⟨message, span⟩] }

/-- Only errors reject a program. -/
def isError (d : Diagnostic) : Bool := d.severity == .error

private def place : Option Span → String
  | none => ""
  | some span => " at " ++ span.text

/-- The full text, with a line for each note. -/
def text (d : Diagnostic) : String :=
  d.notes.foldl (fun acc n => acc ++ "\n  note: " ++ n.message ++ place n.span)
    (d.severity.word ++ "[" ++ d.topic.text ++ "]: " ++ d.message ++ place d.span)

/-- Whether the first is reported before the second or at the same place. -/
def le (a b : Diagnostic) : Bool :=
  match Span.compareOptional a.span b.span with
  | .lt => true
  | .eq => a.severity.rank ≤ b.severity.rank
  | .gt => false

/-- How many of them are errors. -/
def countErrors (ds : List Diagnostic) : Nat := ds.countP isError

end Diagnostic

/-- The diagnostics of a session in order of arrival. -/
structure Diagnostics where
  entries : Array Diagnostic
deriving Inhabited

namespace Diagnostics

def empty : Diagnostics := ⟨#[]⟩

def emit (ds : Diagnostics) (d : Diagnostic) : Diagnostics := ⟨ds.entries.push d⟩

def hasErrors (ds : Diagnostics) : Bool := ds.entries.any Diagnostic.isError

def errorCount (ds : Diagnostics) : Nat := Diagnostic.countErrors ds.entries.toList

/-- The diagnostics in the order of their places. -/
def sorted (ds : Diagnostics) : List Diagnostic := ds.entries.toList.mergeSort Diagnostic.le

end Diagnostics

end Comptime
