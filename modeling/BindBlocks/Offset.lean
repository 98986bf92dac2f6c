/-! Places in a text are byte offsets below `2 ^ 32`. Offset arithmetic that would leave this range
is refused with a `Fault`, and so is a range of bytes that does not cut a text between characters.
-/

namespace BindBlocks

/-- Why an offset or a piece of text has no value. -/
inductive Fault where
  | addOverflow
  | subOverflow
  | badRange
  deriving DecidableEq, Repr

/-- The explanation of an arithmetic fault; a bad range carries none. -/
def Fault.message? : Fault → Option String
  | .addOverflow => some "attempt to add with overflow"
  | .subOverflow => some "attempt to subtract with overflow"
  | .badRange => none

/-- What is computed from a result is returned if the result is. -/
theorem Fault.bind_eq_ok_iff {α β : Type} {x : Except Fault α} {f : α → Except Fault β} {b : β} :
    (x >>= f) = .ok b ↔ ∃ a, x = .ok a ∧ f a = .ok b := by
  cases x with
  | error fault => simp [bind, Except.bind]
  | ok a => simp [bind, Except.bind]

namespace Offset

/-- The first number that is too large to be an offset, a line or a column. -/
def bound : Nat := 1 <<< 32

def add (a b : Nat) : Except Fault Nat :=
  if a + b < bound then .ok (a + b) else .error .addOverflow

def sub (a b : Nat) : Except Fault Nat :=
  if b ≤ a then .ok (a - b) else .error .subOverflow

/-- The offset that a number leaves in 32 bits. -/
def wrap (n : Nat) : Nat := n % bound

theorem add_eq_ok {a b : Nat} (h : a + b < bound) : add a b = .ok (a + b) := by
  simp [add, h]

theorem sub_eq_ok {a b : Nat} (h : b ≤ a) : sub a b = .ok (a - b) := by
  simp [sub, h]

theorem wrap_of_lt {n : Nat} (h : n < bound) : wrap n = n := Nat.mod_eq_of_lt h

end Offset

end BindBlocks
