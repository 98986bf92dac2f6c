import BindBlocks.Expansion.Basic
import Std.Data.TreeMap

/-! An archive keeps the last expansion of each file under the key of the file. -/

namespace BindBlocks

structure Record where
  key : String
  source : Text
  generated : Text
  map : MapDocument
  /-- The mappings of `map`. -/
  entries : List MapEntry
  deriving DecidableEq, Repr

namespace Record

def make (key : String) (source generated : Text) (map : MapDocument) : Record :=
  ⟨key, source, generated, map, map.entries⟩

end Record

structure Archive where
  records : Std.TreeMap String Record

namespace Archive

def empty : Archive := ⟨∅⟩

def get? (a : Archive) (key : String) : Option Record := a.records[key]?

def contains (a : Archive) (key : String) : Bool := (a.get? key).isSome

def put (a : Archive) (r : Record) : Archive := ⟨a.records.insert r.key r⟩

def erase (a : Archive) (key : String) : Archive := ⟨a.records.erase key⟩

def size (a : Archive) : Nat := a.records.size

def isEmpty (a : Archive) : Bool := a.size == 0

@[simp]
theorem get?_empty (key : String) : empty.get? key = none := by
  simp [get?, empty]

theorem get?_put (a : Archive) (r : Record) (key : String) :
    (a.put r).get? key = if r.key = key then some r else a.get? key := by
  simp [get?, put, Std.TreeMap.getElem?_insert]

theorem get?_erase (a : Archive) (key other : String) :
    (a.erase key).get? other = if key = other then none else a.get? other := by
  simp [get?, erase, Std.TreeMap.getElem?_erase]

/-- The keys in ascending order. -/
def keys (a : Archive) : List String := a.records.keys

/-- The record of an expansion. -/
def recordOf (key : String) (source : Text) (e : Expansion) : Record :=
  Record.make key source e.code e.map

/-- Expands a file, which goes by its key if the settings name none, and gives its record. -/
def expand (key : String) (source : Text) (settings : Settings) : Except Fault Record := do
  let settings := { settings with filename := some (settings.filename.getD key) }
  return recordOf key source (← Expansion.ofText source settings)

end Archive

end BindBlocks
