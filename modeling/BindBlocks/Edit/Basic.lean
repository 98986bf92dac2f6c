import BindBlocks.Span

/-! An edit replaces a span of a text, or inserts a text at an offset. Of two insertions at the same
offset, one to the left comes in front of one to the right. -/

namespace BindBlocks

inductive Edit where
  | replace (span : Span) (text : Text)
  | insertLeft (offset : Nat) (text : Text)
  | insertRight (offset : Nat) (text : Text)
  deriving DecidableEq, Repr

namespace Edit

def start : Edit → Nat
  | replace span _ => span.start
  | insertLeft offset _ => offset
  | insertRight offset _ => offset

def stop? : Edit → Option Nat
  | replace span _ => some span.stop
  | _ => none

def text : Edit → Text
  | replace _ text => text
  | insertLeft _ text => text
  | insertRight _ text => text

def isReplace : Edit → Bool
  | replace .. => true
  | _ => false

def isInsertLeft : Edit → Bool
  | insertLeft .. => true
  | _ => false

def isInsertRight : Edit → Bool
  | insertRight .. => true
  | _ => false

/-- How much longer the edit makes a text. -/
def growth : Edit → Int
  | replace span text => (Text.size text : Int) - (span.stop - span.start : Int)
  | insertLeft _ text => Text.size text
  | insertRight _ text => Text.size text

/-- The growth, refused for a span with its ends in the wrong order. -/
def checkedGrowth (e : Edit) : Except Fault Int :=
  match e with
  | replace span _ => span.length.map fun _ => e.growth
  | _ => .ok e.growth

def shift (distance : Nat) : Edit → Except Fault Edit
  | replace span text => do return replace (← span.shift distance) text
  | insertLeft offset text => do return insertLeft (← Offset.add offset distance) text
  | insertRight offset text => do return insertRight (← Offset.add offset distance) text

/-- Moves the ends of the edit back to boundaries of a text, and its stop up to its start. -/
def clamp (t : Text) : Edit → Edit
  | replace span text =>
    let start := Text.floor span.start t
    replace ⟨start, max (Text.floor span.stop t) start⟩ text
  | insertLeft offset text => insertLeft (Text.floor offset t) text
  | insertRight offset text => insertRight (Text.floor offset t) text

def apply (t : Text) : Edit → Except Fault Text
  | replace span text => Text.splice t span.start span.stop text
  | insertLeft offset text => Text.splice t offset offset text
  | insertRight offset text => Text.splice t offset offset text

/-- Whether the edit is over at an offset of the text it applies to. -/
def isOver (e : Edit) (offset : Nat) : Bool :=
  match e with
  | replace span _ => if span.isEmpty then span.start ≤ offset else span.stop ≤ offset
  | insertLeft start _ => start ≤ offset
  | insertRight start _ => start ≤ offset

end Edit

end BindBlocks
