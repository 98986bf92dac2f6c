import BindBlocks.Json.Basic
import BindBlocks.MapDocument.Basic

/-! The settings of an expansion, and their JSON form. -/

namespace BindBlocks

/-- What stands for the keyword with the opening brace of a block, and for its closing brace. -/
structure Wrapping where
  opening : String
  closing : String
  deriving DecidableEq, Repr

namespace Wrapping

def ofJson? (json : Json) : Option Wrapping :=
  match json.record? ["open", "close"] with
  | some [some opening, some closing] => do return ⟨← opening.str?, ← closing.str?⟩
  | _ => none

def toJson (w : Wrapping) : Json := .obj [("open", .str w.opening), ("close", .str w.closing)]

end Wrapping

structure Settings where
  /-- The name of the file in its map. -/
  filename : Option String := none
  /-- The map has a table. -/
  mapped : Bool := true
  /-- The map carries the text of the source. -/
  embedded : Bool := false
  wrapping : Option Wrapping := none
  deriving DecidableEq, Repr

namespace Settings

/-- Reads a field if it is there. -/
def field? {α : Type} (read : Json → Option α) (default : α) : Option Json → Option α
  | none => some default
  | some value => read value

def ofJson? (json : Json) : Option Settings :=
  match json.record? ["filename", "sourceMaps", "includeContent", "wrap"] with
  | some [filename, mapped, embedded, wrapping] => do
    return {
      filename := ← field? (Json.nullable? Json.str?) none filename
      mapped := ← field? Json.bool? true mapped
      embedded := ← field? Json.bool? false embedded
      wrapping := ← field? (Json.nullable? Wrapping.ofJson?) none wrapping }
  | _ => none

def toJson (s : Settings) : Json :=
  .obj [("filename", s.filename.elim .null .str), ("sourceMaps", .bool s.mapped),
    ("includeContent", .bool s.embedded), ("wrap", s.wrapping.elim .null Wrapping.toJson)]

/-- The header of the map: the source goes by the name of the file. -/
def header (s : Settings) : MapHeader := ⟨s.filename, s.filename, s.embedded⟩

end Settings

end BindBlocks
