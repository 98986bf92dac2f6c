import BindBlocks.Json.Basic
import BindBlocks.Locator

/-! Diagnostics are messages about an extent of a file, given by its start and its length. One that
was found in a generated text is carried back to the source. -/

namespace BindBlocks

structure Extent where
  start : Nat
  length : Nat
  deriving DecidableEq, Repr

namespace Extent

def span (e : Extent) : Except Fault Span := Span.ofLength e.start e.length

def ofSpan (s : Span) : Except Fault Extent := do return ⟨s.start, ← s.length⟩

def toSource (l : Locator) (e : Extent) : Except Fault Extent := do
  ofSpan (← l.spanToSource (← e.span))

def toGenerated (l : Locator) (e : Extent) : Except Fault Extent := do
  ofSpan (← l.spanToGenerated (← e.span))

end Extent

inductive Severity where
  | warning
  | error
  | suggestion
  | message
  deriving DecidableEq, Repr

namespace Severity

def name : Severity → String
  | warning => "warning"
  | error => "error"
  | suggestion => "suggestion"
  | message => "message"

def ofName? (name : String) : Option Severity :=
  [warning, error, suggestion, message].find? fun s => s.name == name

/-- Reads a severity from its name, or from an object whose only member has that name and no value.
-/
def ofJson? : Json → Option Severity
  | .str name => ofName? name
  | .obj [(name, .null)] => ofName? name
  | _ => none

end Severity

structure Diagnostic where
  file : String
  start : Nat
  length : Nat
  message : String
  code : Nat
  severity : Severity
  deriving DecidableEq, Repr

namespace Diagnostic

def extent (d : Diagnostic) : Extent := ⟨d.start, d.length⟩

def toSource (l : Locator) (d : Diagnostic) : Except Fault Diagnostic := do
  let e ← d.extent.toSource l
  return { d with start := e.start, length := e.length }

def ofJson? (json : Json) : Option Diagnostic :=
  match json.record? ["fileName", "start", "length", "message", "code", "category"] with
  | some [some file, some start, some length, some message, some code, some severity] => do
    return ⟨← file.str?, ← start.below? Offset.bound, ← length.below? Offset.bound,
      ← message.str?, ← code.below? Offset.bound, ← Severity.ofJson? severity⟩
  | _ => none

def listOfJson? : Json → Option (List Diagnostic)
  | .arr items => items.mapM ofJson?
  | _ => none

def toJson (d : Diagnostic) : Json :=
  .obj [("fileName", .str d.file), ("start", .int d.start), ("length", .int d.length),
    ("message", .str d.message), ("code", .int d.code), ("category", .str d.severity.name)]

end Diagnostic

end BindBlocks
