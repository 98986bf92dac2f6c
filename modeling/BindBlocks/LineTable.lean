import BindBlocks.Text.Basic

/-! A line table converts between the offsets of a text and positions, that is lines and byte
columns counted from zero. Only a line feed ends a line. Offsets past the end of the text lie on its
last line. -/

namespace BindBlocks

structure Position where
  line : Nat
  column : Nat
  deriving DecidableEq, Repr

namespace Position

/-- The reading order: by line, then by column. -/
def le (p q : Position) : Bool := p.line < q.line || (p.line == q.line && p.column ≤ q.column)

/-- The same place with lines counted from one. -/
def numbered (p : Position) : Position := ⟨p.line + 1, p.column⟩

/-- The position after a character. -/
def after (p : Position) (c : Char) : Position :=
  if c = '\n' then ⟨p.line + 1, 0⟩ else ⟨p.line, p.column + c.utf8Size⟩

end Position

/-- Where the lines of a text begin, apart from the first, and the length of the text. -/
structure LineTable where
  breaks : List Nat
  size : Nat
  deriving DecidableEq, Repr

namespace LineTable

/-- The offsets after the line feeds of a text that starts at `offset`. -/
def breaksFrom (offset : Nat) : Text → List Nat
  | [] => []
  | c :: t =>
    let next := offset + c.utf8Size
    if c = '\n' then next :: breaksFrom next t else breaksFrom next t

/-- The table of a text. Its offsets are kept in full, and have 32 bits if the size of the text
has. -/
def ofText (t : Text) : LineTable := ⟨breaksFrom 0 t, Text.size t⟩

def starts (table : LineTable) : List Nat := 0 :: table.breaks

/-- The number of lines. -/
def count (table : LineTable) : Nat := table.starts.length

def isEmpty (table : LineTable) : Bool := table.size == 0

/-- Walks the line starts after `start`, the start of line `line`, that are not beyond `offset`. -/
def locate (offset : Nat) (line start : Nat) : List Nat → Position
  | [] => ⟨line, offset - start⟩
  | next :: rest =>
    if next ≤ offset then locate offset (line + 1) next rest else ⟨line, offset - start⟩

def position (table : LineTable) (offset : Nat) : Position := locate offset 0 0 table.breaks

/-- The start of a line. -/
def start? (table : LineTable) (line : Nat) : Option Nat := table.starts[line]?

/-- The end of a line, before its line feed. -/
def stop? (table : LineTable) (line : Nat) : Option Nat :=
  if line < table.count then
    match table.starts[line + 1]? with
    | some next => some (next - 1)
    | none => some table.size
  else none

/-- The offset at a position; a column may run past its line. -/
def offset? (table : LineTable) (p : Position) : Except Fault (Option Nat) :=
  match table.start? p.line with
  | none => .ok none
  | some start => (Offset.add start p.column).map some

/-- The offset at a position, or the end of the text if that is nearer or there is no such line. -/
def offsetWithin (table : LineTable) (p : Position) : Except Fault Nat := do
  match ← table.offset? p with
  | some offset => return min offset table.size
  | none => return table.size

end LineTable

end BindBlocks
