import BindBlocks.Json.Writer
import BindBlocks.Mapping.Codec

/-! A map document is the JSON record, of version 3, that ships with a generated text and carries
its table of mappings in written form. -/

namespace BindBlocks

structure MapDocument where
  version : Nat
  file : Option String
  sources : List String
  /-- The texts of the sources; a text can be left out. -/
  contents : Option (List (Option String))
  names : List String
  mappings : String
  deriving DecidableEq, Repr

/-- What a document says besides its table. -/
structure MapHeader where
  source : Option String
  file : Option String
  /-- The document carries the text of the source. -/
  embedded : Bool
  deriving DecidableEq, Repr

namespace MapDocument

def supportedVersion : Nat := 3

/-- The document of a table for one source, which goes by the name of the file if it has none. -/
def ofTable (table : List Mapping) (source : Text) (header : MapHeader) : MapDocument where
  version := supportedVersion
  file := header.file
  sources := [(header.source.or header.file).getD ""]
  contents := if header.embedded then some [some (String.ofList source)] else none
  names := []
  mappings := String.ofList (Mapping.encode table)

def entries (d : MapDocument) : List MapEntry := Mapping.decode d.mappings.toList

def toJson (d : MapDocument) : Json :=
  .obj <|
    [("version", .int d.version)] ++
    d.file.toList.map (fun file => ("file", .str file)) ++
    [("sources", .arr (d.sources.map .str))] ++
    d.contents.toList.map (fun contents =>
      ("sourcesContent", .arr (contents.map fun content => content.elim .null .str))) ++
    [("names", .arr (d.names.map .str)), ("mappings", .str d.mappings)]

def render (d : MapDocument) : String := d.toJson.render

end MapDocument

end BindBlocks
