import BindBlocks.MapDocument.Basic
import BindBlocks.Span

/-! A locator carries offsets between a source text and a generated text along a table of mappings.
An offset is measured from the pin nearest before it on its line, and the distance is kept on the
other side, but not past the next pin nor past the end of the line. -/

namespace BindBlocks

/-- One direction of a mapping, with lines counted from one. -/
structure Pin where
  place : Position
  target : Position
  deriving DecidableEq, Repr

namespace Pin

/-- The one with the greater column, and the later one of equals. -/
def rightmost (best : Option Pin) (a : Pin) : Option Pin :=
  match best with
  | some b => if a.place.column < b.place.column then some b else some a
  | none => some a

/-- The one with the lesser column, of equals the one with the lesser target column, and the earlier
one of equals in both. -/
def leftmost (best : Option Pin) (a : Pin) : Option Pin :=
  match best with
  | some b =>
    if a.place.column < b.place.column ∨
        (a.place.column = b.place.column ∧ a.target.column < b.target.column) then some a
    else some b
  | none => some a

/-- The one on the greater line, and the later one of equals. -/
def lowermost (best : Option Pin) (a : Pin) : Option Pin :=
  match best with
  | some b => if a.place.line < b.place.line then some b else some a
  | none => some a

/-- The pin with the greatest column at or before `column` on `line`; of several the last. -/
def nearest? (pins : List Pin) (line column : Nat) : Option Pin :=
  (pins.filter fun a => a.place.line == line && a.place.column ≤ column).foldl rightmost none

/-- The pin with the least column after `column` on `line`; of several the one with the least
target column, and then the first. -/
def next? (pins : List Pin) (line column : Nat) : Option Pin :=
  (pins.filter fun a => a.place.line == line && column < a.place.column).foldl leftmost none

/-- The last pin on the greatest line before `line`. -/
def lastBefore? (pins : List Pin) (line : Nat) : Option Pin :=
  (pins.filter fun a => a.place.line < line).foldl lowermost none

/-- The pin to measure from, and the one that the distance may not pass. -/
def find? (pins : List Pin) (line column : Nat) : Option (Pin × Option Pin) :=
  match nearest? pins line column with
  | some a => some (a, next? pins line column)
  | none => (lastBefore? pins line).map fun a => (a, none)

/-- Where a column lands on the target line of the pin, counting lines from zero. -/
def land (a : Pin) (next : Option Pin) (column : Nat) : Position :=
  let carried : Int := a.target.column + column - a.place.column
  let limited : Int :=
    match next with
    | some n =>
      if n.target.line = a.target.line then min carried (max n.target.column a.target.column : Nat)
      else carried
    | none => carried
  ⟨a.target.line - 1, min limited.toNat (Offset.bound - 1)⟩

end Pin

structure Locator where
  source : LineTable
  generated : LineTable
  fromSource : List Pin
  fromGenerated : List Pin
  deriving DecidableEq, Repr

namespace Locator

def ofEntries (source generated : Text) (entries : List MapEntry) : Locator where
  source := LineTable.ofText source
  generated := LineTable.ofText generated
  fromSource := entries.map fun e => ⟨e.source, e.generated⟩
  fromGenerated := entries.map fun e => ⟨e.generated, e.source⟩

def ofDocument (source generated : Text) (d : MapDocument) : Locator :=
  ofEntries source generated d.entries

def isEmpty (l : Locator) : Bool := l.fromSource.isEmpty

/-- Carries an offset from one text to the other; without a pin it stays as it is. -/
def carry (pins : List Pin) (here there : LineTable) (offset : Nat) : Except Fault Nat :=
  let p := here.position offset
  match Pin.find? pins (p.line + 1) p.column with
  | none => .ok offset
  | some (a, next) => do
    let target := a.land next p.column
    let landed ← there.offsetWithin target
    match there.stop? target.line with
    | some stop => return min landed stop
    | none => return landed

def toGenerated (l : Locator) (offset : Nat) : Except Fault Nat :=
  carry l.fromSource l.source l.generated offset

def toSource (l : Locator) (offset : Nat) : Except Fault Nat :=
  carry l.fromGenerated l.generated l.source offset

def spanToGenerated (l : Locator) (s : Span) : Except Fault Span := do
  let start ← l.toGenerated s.start
  let stop ← l.toGenerated s.stop
  return ⟨start, max stop start⟩

def spanToSource (l : Locator) (s : Span) : Except Fault Span := do
  let start ← l.toSource s.start
  let stop ← l.toSource s.stop
  return ⟨start, max stop start⟩

end Locator

end BindBlocks
