import BindBlocks.Edit.Draft
import BindBlocks.MapDocument.Basic

/-! Where the places of a source text are after its edits. A place inside a replaced span goes to
the start of the text that replaces it. -/

namespace BindBlocks

/-- The edits that are still ahead of a place in the source text, and the growth of those behind it.
-/
structure Drift where
  ahead : List Edit
  growth : Int
  deriving DecidableEq, Repr

namespace Drift

def passing (offset : Nat) (growth : Int) : List Edit → Drift
  | [] => ⟨[], growth⟩
  | e :: es =>
    if e.isOver offset then passing offset (growth + e.growth) es else ⟨e :: es, growth⟩

/-- Passes the edits that are over at an offset. -/
def advance (d : Drift) (offset : Nat) : Drift := passing offset d.growth d.ahead

/-- The place in the edited text of an offset that the drift has been advanced to. -/
def place (d : Drift) (offset : Nat) : Nat :=
  let anchor :=
    match d.ahead with
    | .replace span _ :: _ => if span.contains offset then span.start else offset
    | _ => offset
  Offset.wrap (anchor + d.growth).toNat

end Drift

namespace Revision

def drift (r : Revision) : Drift := ⟨r.edits, 0⟩

/-- The place of an offset of the source text in the edited text. -/
def place (r : Revision) (offset : Nat) : Nat := (r.drift.advance offset).place offset

/-- The mappings of the boundaries of a text that starts at `offset` and at position `p`. -/
def tableFrom (generated : LineTable) (d : Drift) (offset : Nat) (p : Position) :
    Text → List Mapping
  | [] =>
    let d := d.advance offset
    [⟨(generated.position (d.place offset)).numbered, p.numbered⟩]
  | c :: t =>
    let d := d.advance offset
    ⟨(generated.position (d.place offset)).numbered, p.numbered⟩ ::
      tableFrom generated d (offset + c.utf8Size) (p.after c) t

/-- One mapping for each boundary of the source text, in order. -/
def table (r : Revision) : List Mapping :=
  tableFrom (LineTable.ofText r.text) r.drift 0 ⟨0, 0⟩ r.source

def document (r : Revision) (header : MapHeader) : MapDocument :=
  MapDocument.ofTable r.table r.source header

end Revision

end BindBlocks
