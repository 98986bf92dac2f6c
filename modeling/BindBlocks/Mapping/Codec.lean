import BindBlocks.Mapping.Basic
import BindBlocks.Text.Pieces
import BindBlocks.Vlq

/-! The written form of a table of mappings. A semicolon ends a generated line and a comma ends a
segment on it. A segment holds the differences to the segment before it of the generated column, the
source index, the source line, the source column and perhaps the name index; the generated column
starts again from zero on each line. -/

namespace BindBlocks

namespace Mapping

/-- Keeps the first mapping of each run with the same generated position, and none at `last`. -/
def dedupeAfter (last : Option Position) : List Mapping → List Mapping
  | [] => []
  | m :: ms =>
    if last = some m.generated then dedupeAfter last ms
    else m :: dedupeAfter (some m.generated) ms

/-- The mappings that are written: in the order of their generated positions, one for each, and none
on line zero. -/
def normalize (table : List Mapping) : List Mapping :=
  dedupeAfter none <|
    (table.filter fun m => 0 < m.generated.line).mergeSort fun m n => m.generated.le n.generated

/-- What the next segment is written against. -/
structure Pen where
  line : Nat
  /-- No segment stands on the line yet. -/
  fresh : Bool
  generatedColumn : Int
  sourceLine : Int
  sourceColumn : Int
  deriving DecidableEq, Repr

namespace Pen

def start : Pen := ⟨1, true, 0, 0, 0⟩

/-- Ends lines until `line` is reached. -/
def moveTo (pen : Pen) (line : Nat) : Pen :=
  if pen.line < line then { pen with line, fresh := true, generatedColumn := 0 } else pen

end Pen

/-- The segment of a mapping; the source line is written from zero. -/
def segment (pen : Pen) (m : Mapping) : Text :=
  Vlq.encode (m.generated.column - pen.generatedColumn) ++ Vlq.encode 0 ++
    Vlq.encode ((m.source.line : Int) - 1 - pen.sourceLine) ++
    Vlq.encode (m.source.column - pen.sourceColumn)

def encodeFrom (pen : Pen) : List Mapping → Text
  | [] => []
  | m :: ms =>
    let lineEnds := List.replicate (m.generated.line - pen.line) ';'
    let pen := pen.moveTo m.generated.line
    let comma := if pen.fresh then [] else [',']
    let next : Pen :=
      ⟨pen.line, false, m.generated.column, (m.source.line : Int) - 1, m.source.column⟩
    lineEnds ++ comma ++ segment pen m ++ encodeFrom next ms

def encode (table : List Mapping) : Text := encodeFrom Pen.start (normalize table)

/-- The sums of the differences read so far. They are kept in 64 bits. -/
structure Totals where
  generatedColumn : Int
  sourceIndex : Int
  sourceLine : Int
  sourceColumn : Int
  nameIndex : Int
  deriving DecidableEq, Repr

namespace Totals

def zero : Totals := ⟨0, 0, 0, 0, 0⟩

/-- The sum, if it has 64 bits. -/
def add? (total difference : Int) : Option Int :=
  let sum := total + difference
  if -(1 <<< 63 : Nat) ≤ sum ∧ sum < (1 <<< 63 : Nat) then some sum else none

/-- Adds the four differences that every full segment has, or none of them. -/
def advance? (t : Totals) (column index line sourceColumn : Int) : Option Totals := do
  let generatedColumn ← add? t.generatedColumn column
  let sourceIndex ← add? t.sourceIndex index
  let sourceLine ← add? t.sourceLine line
  let sourceColumn ← add? t.sourceColumn sourceColumn
  return { t with generatedColumn, sourceIndex, sourceLine, sourceColumn }

/-- A number that can be a line, a column or an index. -/
def coordinate? (n : Int) : Option Nat :=
  if 0 ≤ n ∧ n < Offset.bound then some n.toNat else none

/-- The entry that the totals stand for; no entry has a source line before the first. -/
def record? (t : Totals) (line : Nat) (name : Option Int) : Option MapEntry := do
  let nameIndex ← match name with
    | none => some none
    | some index => (coordinate? index).map some
  let generatedLine ← coordinate? line
  let generatedColumn ← coordinate? t.generatedColumn
  let sourceLine ← coordinate? (t.sourceLine + 1)
  let sourceColumn ← coordinate? t.sourceColumn
  let sourceIndex ← coordinate? t.sourceIndex
  if 0 < sourceLine then
    return ⟨⟨generatedLine, generatedColumn⟩, ⟨sourceLine, sourceColumn⟩, some sourceIndex,
      nameIndex⟩
  else none

/-- The totals after a segment, and its entry if it has one. A segment that is not well formed or
would take a total out of 64 bits changes nothing. -/
def read (t : Totals) (line : Nat) (segment : Text) : Totals × Option MapEntry :=
  match Vlq.decode? segment with
  | some [column] =>
    match add? t.generatedColumn column with
    | some generatedColumn => ({ t with generatedColumn }, none)
    | none => (t, none)
  | some [column, index, sourceLine, sourceColumn] =>
    match t.advance? column index sourceLine sourceColumn with
    | some next => (next, next.record? line none)
    | none => (t, none)
  | some [column, index, sourceLine, sourceColumn, name] =>
    match t.advance? column index sourceLine sourceColumn, add? t.nameIndex name with
    | some next, some nameIndex => ({ next with nameIndex }, next.record? line (some nameIndex))
    | _, _ => (t, none)
  | _ => (t, none)

/-- Reads the segments of one line. -/
def readLine (t : Totals) (line : Nat) : List Text → Totals × List MapEntry
  | [] => (t, [])
  | segment :: segments =>
    let (t, entry) := t.read line segment
    let (t, entries) := t.readLine line segments
    (t, entry.toList ++ entries)

def readLines (t : Totals) (line : Nat) : List Text → List MapEntry
  | [] => []
  | l :: ls =>
    let (t, entries) := { t with generatedColumn := 0 }.readLine line (Text.splitOn ',' l)
    entries ++ t.readLines (line + 1) ls

end Totals

def decode (mappings : Text) : List MapEntry :=
  Totals.zero.readLines 1 (Text.splitOn ';' mappings)

end Mapping

end BindBlocks
