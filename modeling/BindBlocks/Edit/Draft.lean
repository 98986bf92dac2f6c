import BindBlocks.Edit.Basic

/-! A draft is a source text with the edits that are to be made to it, in the order in which they
were given. All offsets refer to the source text. The edits are made from the end of the text
towards its start, so that the offsets of those still to be made stay valid; replacements that
overlap take effect in this order too, or fail. -/

namespace BindBlocks

structure Draft where
  source : Text
  edits : List Edit
  deriving DecidableEq, Repr

/-- A text after its edits. The edits are kept in the order of their offsets, insertions before a
replacement. -/
structure Revision where
  source : Text
  text : Text
  edits : List Edit
  deriving DecidableEq, Repr

namespace Draft

def ofText (source : Text) : Draft := ⟨source, []⟩

def push (d : Draft) (e : Edit) : Draft := ⟨d.source, d.edits ++ [e.clamp d.source]⟩

def pushAll (d : Draft) (es : List Edit) : Draft := es.foldl push d

/-- The order of making the edits: from the last offset to the first. At one offset the replacements
come first and the insertions to the left last, and the insertions to the right go backwards, since
each lands in front of those made earlier. -/
def makingOrder (edits : List Edit) : List Edit :=
  (edits.filter Edit.isReplace ++ (edits.filter Edit.isInsertRight).reverse ++
    edits.filter Edit.isInsertLeft).mergeSort fun e f => f.start ≤ e.start

/-- The order of reading the edits: by offset, insertions before replacements. -/
def readingOrder (edits : List Edit) : List Edit :=
  edits.mergeSort fun e f =>
    e.start < f.start || (e.start == f.start && (!e.isReplace || f.isReplace))

/-- Makes all edits. -/
def commit (d : Draft) : Except Fault Revision := do
  let text ← (makingOrder d.edits).foldlM Edit.apply d.source
  return ⟨d.source, text, readingOrder d.edits⟩

end Draft

end BindBlocks
