import BindBlocks.Json.Reader.Shape
import BindBlocks.MapDocument.Basic

/-! Reading a map document from JSON. The document is an object or an array of its fields in order;
only the version and the mappings have to be there, and only a document of version 3 with at most
one source is accepted. -/

namespace BindBlocks

inductive MapFault where
  | json (fault : Json.ReadFault)
  | unsupportedVersion (version : Nat)
  | multipleSources (count : Nat)
  deriving DecidableEq, Repr

/-- The explanation of a document that was read and not accepted. -/
def MapFault.message? : MapFault → Option String
  | .json _ => none
  | .unsupportedVersion version => some ("unsupported source map version " ++ version.repr)
  | .multipleSources count => some ("expected a single source, found " ++ count.repr)

namespace MapDocument

open Json (Reader ReadFault)

inductive Field where
  | version
  | file
  | sources
  | contents
  | names
  | mappings
  deriving DecidableEq, Repr

namespace Field

def all : List Field := [.version, .file, .sources, .contents, .names, .mappings]

def ofName? (name : String) : Option Field :=
  List.lookup name [("version", .version), ("file", .file), ("sources", .sources),
    ("sourcesContent", .contents), ("names", .names), ("mappings", .mappings)]

end Field

/-- The fields read so far. -/
structure Partial where
  version : Option Nat
  file : Option (Option String)
  sources : Option (List String)
  contents : Option (Option (List (Option String)))
  names : Option (List String)
  mappings : Option String
  deriving DecidableEq, Repr

namespace Partial

def empty : Partial := ⟨none, none, none, none, none, none⟩

def has (p : Partial) : Field → Bool
  | .version => p.version.isSome
  | .file => p.file.isSome
  | .sources => p.sources.isSome
  | .contents => p.contents.isSome
  | .names => p.names.isSome
  | .mappings => p.mappings.isSome

/-- Reads the value of a field. -/
def read (p : Partial) (field : Field) : Reader Partial := fun t =>
  match field with
  | .version =>
    (Json.readBelow Offset.bound t).map fun (version, t) => ({ p with version }, t)
  | .file =>
    (Json.readNullable Json.readString t).map fun (file, t) => ({ p with file }, t)
  | .sources =>
    (Json.readList Json.readString t).map fun (sources, t) => ({ p with sources }, t)
  | .contents =>
    (Json.readNullable (Json.readList (Json.readNullable Json.readString)) t).map
      fun (contents, t) => ({ p with contents }, t)
  | .names =>
    (Json.readList Json.readString t).map fun (names, t) => ({ p with names }, t)
  | .mappings =>
    (Json.readString t).map fun (mappings, t) => ({ p with mappings }, t)

/-- The document, if the fields that have to be there are. -/
def complete (p : Partial) : Except ReadFault MapDocument :=
  match p.version, p.mappings with
  | some version, some mappings =>
    .ok ⟨version, p.file.getD none, p.sources.getD [], p.contents.getD none, p.names.getD [],
      mappings⟩
  | _, _ => .error .mismatched

/-- Reads the fields from the items of an array. -/
def readItems (p : Partial) (first : Bool) : List Field → Reader Partial
  | [], t => .ok (p, t)
  | field :: fields, t => do
    let (more, t) ← Json.nextItem first t
    if more then
      let (p, t) ← p.read field t
      p.readItems false fields t
    else
      return (p, t)

/-- Reads the fields from the members of an object. A field given twice is refused at its name. -/
def readMembers (p : Partial) (first : Bool) : Nat → Reader Partial
  | 0, _ => .error .truncated
  | fuel + 1, t => do
    let (more, t) ← Json.nextMember first t
    if more then
      let (name, t) ← Json.quoted .kept t
      match Field.ofName? (String.ofList name) with
      | none =>
        let t ← Json.mark ':' t
        let (_, t) ← Json.value .passedOver t
        p.readMembers false fuel t
      | some field =>
        if p.has field then
          throw .mismatched
        else
          let t ← Json.mark ':' t
          let (p, t) ← p.read field t
          p.readMembers false fuel t
    else
      return (p, t)

end Partial

def readRecord : Reader MapDocument := fun t =>
  match Json.skipBlanks t with
  | '[' :: t => do
    let (p, t) ← Partial.empty.readItems true Field.all t
    let d ← p.complete
    return (d, ← Json.mark ']' t)
  | '{' :: t => do
    let (p, t) ← Partial.empty.readMembers true (t.length + 1) t
    return (← p.complete, t)
  | t => .error (Json.mismatch t)

/-- Accepts a document that is well formed. -/
def accept (d : MapDocument) : Except MapFault MapDocument :=
  if d.version ≠ supportedVersion then .error (.unsupportedVersion d.version)
  else if 1 < d.sources.length then .error (.multipleSources d.sources.length)
  else .ok d

def parse (text : String) : Except MapFault MapDocument :=
  match readRecord text.toList >>= Json.finish with
  | .error fault => .error (.json fault)
  | .ok d => d.accept

end MapDocument

end BindBlocks
