import BindBlocks.LineTable

/-! A mapping says that a place in a generated text comes from a place in its source. Lines are
counted from one, columns from zero in bytes. -/

namespace BindBlocks

structure Mapping where
  generated : Position
  source : Position
  deriving DecidableEq, Repr

/-- A mapping as a map document carries it, with the source and the name that it means. -/
structure MapEntry where
  generated : Position
  source : Position
  sourceIndex : Option Nat
  nameIndex : Option Nat
  deriving DecidableEq, Repr

namespace MapEntry

def mapping (e : MapEntry) : Mapping := ⟨e.generated, e.source⟩

/-- The entry of a mapping into the only source, without a name. -/
def ofMapping (m : Mapping) : MapEntry := ⟨m.generated, m.source, some 0, none⟩

@[simp]
theorem mapping_ofMapping (m : Mapping) : (ofMapping m).mapping = m := rfl

end MapEntry

end BindBlocks
