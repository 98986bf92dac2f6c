import BindBlocks.Json.Reader.Basic
import BindBlocks.Text.CharClass

/-! Numerals off the front of a JSON text. -/

namespace BindBlocks

namespace Json

def startsNumber (c : Char) : Bool := c = '-' || Text.isDigit c

/-- One digit or more. -/
def digits : Reader Text
  | [] => .error .truncated
  | c :: t =>
    if Text.isDigit c then .ok (c :: t.takeWhile Text.isDigit, t.dropWhile Text.isDigit)
    else .error .malformed

/-- The digits before the point; a zero stands alone. -/
def whole : Reader Text
  | '0' :: t =>
    match t with
    | [] => .ok (['0'], [])
    | d :: t => if Text.isDigit d then .error .malformed else .ok (['0'], d :: t)
  | t => digits t

def fraction : Reader (Option Text)
  | '.' :: t => (digits t).map fun (ds, t) => (some ds, t)
  | t => .ok (none, t)

def exponentDigits : Reader Text
  | '+' :: t => (digits t).map fun (ds, t) => ('+' :: ds, t)
  | '-' :: t => (digits t).map fun (ds, t) => ('-' :: ds, t)
  | t => digits t

def exponent : Reader (Option Text)
  | 'e' :: t | 'E' :: t => (exponentDigits t).map fun (ds, t) => (some ds, t)
  | t => .ok (none, t)

def unsigned (negative : Bool) : Reader Numeral := fun t => do
  let (w, t) ← whole t
  let (f, t) ← fraction t
  let (e, t) ← exponent t
  return (⟨negative, w, f, e⟩, t)

/-- A number by its grammar alone. -/
def numeral : Reader Numeral
  | '-' :: t => unsigned true t
  | t => unsigned false t

/-- A number. One that is kept may not be too large; one that is passed over counts as malformed
even where the text ends inside it. -/
def number (care : Care) : Reader Numeral := fun t =>
  match care, numeral t with
  | .kept, .ok (n, t) => if n.tooLarge then .error .malformed else .ok (n, t)
  | .kept, .error fault => .error fault
  | .passedOver, .ok read => .ok read
  | .passedOver, .error _ => .error .malformed

end Json

end BindBlocks
