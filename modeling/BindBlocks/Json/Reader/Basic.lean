import BindBlocks.Json.Basic

/-! Readers of JSON text. A reader takes a value off the front of a text and gives it with the text
that follows, or reports the first thing that is wrong from left to right: the text ends inside a
value, it is not JSON, or the value is not of the shape that is asked for. -/

namespace BindBlocks

namespace Json

inductive ReadFault where
  | truncated
  | malformed
  | mismatched
  deriving DecidableEq, Repr

abbrev Reader (α : Type) := Text → Except ReadFault (α × Text)

/-- Of a value that is passed over only the grammar is checked: its numbers may be too large and its
escapes may name half a surrogate pair. -/
inductive Care where
  | kept
  | passedOver
  deriving DecidableEq, Repr

def isBlank (c : Char) : Bool := c = ' ' || c = '\t' || c = '\n' || c = '\r'

def skipBlanks (t : Text) : Text := t.dropWhile isBlank

/-- Takes the letters of a word off the front. -/
def word : Text → Text → Except ReadFault Text
  | [], t => .ok t
  | _ :: _, [] => .error .truncated
  | c :: rest, d :: t => if c = d then word rest t else .error .malformed

/-- Takes a mark off the front, after blanks. -/
def mark (m : Char) (t : Text) : Except ReadFault Text :=
  match skipBlanks t with
  | [] => .error .truncated
  | c :: t => if c = m then .ok t else .error .malformed

/-- Whether another item follows in a list, and the text from that item or from the closing bracket
on. `first` says that no item has been read. -/
def nextItem (first : Bool) : Reader Bool := fun t =>
  match skipBlanks t with
  | [] => .error .truncated
  | c :: t =>
    if c = ']' then .ok (false, c :: t)
    else if first then .ok (true, c :: t)
    else if c = ',' then
      match skipBlanks t with
      | [] => .error .truncated
      | d :: t => if d = ']' then .error .malformed else .ok (true, d :: t)
    else .error .malformed

/-- Whether another member follows in an object, and the text after the quote that opens its name,
or after the closing brace. -/
def nextMember (first : Bool) : Reader Bool := fun t =>
  match skipBlanks t with
  | [] => .error .truncated
  | c :: t =>
    if c = '}' then .ok (false, t)
    else if first then
      if c = '\x22' then .ok (true, t) else .error .malformed
    else if c = ',' then
      match skipBlanks t with
      | [] => .error .truncated
      | d :: t => if d = '\x22' then .ok (true, t) else .error .malformed
    else .error .malformed

/-- Nothing but blanks may follow a value. -/
def finish {α : Type} : α × Text → Except ReadFault α
  | (a, t) => if (skipBlanks t).isEmpty then .ok a else .error .malformed

end Json

end BindBlocks
