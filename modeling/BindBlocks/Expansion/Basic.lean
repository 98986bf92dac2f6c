import BindBlocks.Block
import BindBlocks.Content
import BindBlocks.Edit.Revision
import BindBlocks.Expansion.Settings

/-! The expansion of a whole file: the bindings in its blocks become plain code, and the keyword and
braces of each block can be replaced by other texts. It comes with the map back to the source. -/

namespace BindBlocks

structure Expansion where
  code : Text
  map : MapDocument
  table : List Mapping
  blocks : List Block
  deriving DecidableEq, Repr

namespace Block

/-- The edits for the keyword and the braces of a block. -/
def wrappingEdits (b : Block) (w : Wrapping) : List Edit :=
  [.replace ⟨b.start, b.opening + 1⟩ w.opening.toList,
    .replace ⟨b.closing, b.stop⟩ w.closing.toList]

/-- The edits for a block, as edits of the text around it. -/
def edits (b : Block) (wrapping : Option Wrapping) : Except Fault (List Edit) := do
  let inside ← b.checkedInside
  let inner ← (Content.edits b.content).mapM (Edit.shift inside.start)
  return inner ++ wrapping.elim [] b.wrappingEdits

end Block

namespace Expansion

/-- The blocks that are expanded. -/
def blocksOf (source : Text) : Except Fault (List Block) :=
  if Block.glance source then Block.ofText source else .ok []

def ofText (source : Text) (settings : Settings) : Except Fault Expansion := do
  let blocks ← blocksOf source
  let edits ← blocks.mapM (Block.edits · settings.wrapping)
  let revision ← ((Draft.ofText source).pushAll edits.flatten).commit
  let table := if settings.mapped then revision.table else []
  return {
    code := revision.text
    map := MapDocument.ofTable table source settings.header
    table
    blocks }

end Expansion

end BindBlocks
