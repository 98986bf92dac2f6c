import BindBlocks.Text.Basic

/-! A span is the range of bytes from `start` up to, and without, `stop`. Nothing keeps its ends in
order, so a length or a shift of a span can be refused. A span that is made of two counts of bytes
keeps 32 bits of each. -/

namespace BindBlocks

structure Span where
  start : Nat
  stop : Nat
  deriving DecidableEq, Repr

namespace Span

/-- The span with what 32 bits hold of its ends. -/
def wrap (s : Span) : Span := ⟨Offset.wrap s.start, Offset.wrap s.stop⟩

theorem wrap_of_lt {s : Span} (hStart : s.start < Offset.bound) (hStop : s.stop < Offset.bound) :
    s.wrap = s := by
  rw [wrap, Offset.wrap_of_lt hStart, Offset.wrap_of_lt hStop]

def ofLength (start length : Nat) : Except Fault Span := do
  return ⟨start, ← Offset.add start length⟩

def empty (offset : Nat) : Span := ⟨offset, offset⟩

def length (s : Span) : Except Fault Nat := Offset.sub s.stop s.start

def isEmpty (s : Span) : Bool := s.start == s.stop

def contains (s : Span) (offset : Nat) : Bool := s.start ≤ offset && offset < s.stop

def shift (s : Span) (distance : Nat) : Except Fault Span := do
  return ⟨← Offset.add s.start distance, ← Offset.add s.stop distance⟩

def slice (s : Span) (t : Text) : Except Fault Text := Text.slice t s.start s.stop

end Span

end BindBlocks
