import BindBlocks.Json.Reader.Number
import BindBlocks.Json.Reader.Quoted

/-! JSON values of any shape. -/

namespace BindBlocks

namespace Json

/-- A value that is neither a list nor an object. -/
def scalar (care : Care) : Reader Json
  | [] => .error .truncated
  | c :: t =>
    if c = 'n' then (word ['u', 'l', 'l'] t).map fun t => (.null, t)
    else if c = 't' then (word ['r', 'u', 'e'] t).map fun t => (.bool true, t)
    else if c = 'f' then (word ['a', 'l', 's', 'e'] t).map fun t => (.bool false, t)
    else if c = '\x22' then (quoted care t).map fun (s, t) => (.str (String.ofList s), t)
    else if startsNumber c then
      (number care (c :: t)).map fun (n, t) =>
        match n.int? with
        | some i => (.int i, t)
        | none => (.real n, t)
    else .error .malformed

mutual

def valueWithin (care : Care) : Nat → Reader Json
  | 0, _ => .error .truncated
  | fuel + 1, t =>
    match skipBlanks t with
    | '[' :: t => (itemsWithin care fuel true t).map fun (items, t) => (.arr items, t)
    | '{' :: t => (membersWithin care fuel true [] t).map fun (members, t) => (.obj members, t)
    | t => scalar care t

/-- The items of a list from here on, up to and with its closing bracket. -/
def itemsWithin (care : Care) : Nat → Bool → Reader (List Json)
  | 0, _, _ => .error .truncated
  | fuel + 1, first, t => do
    let (more, t) ← nextItem first t
    if more then
      let (item, t) ← valueWithin care fuel t
      let (items, t) ← itemsWithin care fuel false t
      return (item :: items, t)
    else
      return ([], ← mark ']' t)

/-- The members of an object, of which `members` have been read. -/
def membersWithin (care : Care) : Nat → Bool → List (String × Json) →
    Reader (List (String × Json))
  | 0, _, _, _ => .error .truncated
  | fuel + 1, first, members, t => do
    let (more, t) ← nextMember first t
    if more then
      let (name, t) ← quoted care t
      let t ← mark ':' t
      let (value, t) ← valueWithin care fuel t
      membersWithin care fuel false (setMember (String.ofList name) value members) t
    else
      return (members, t)

end

/-- A value. Each value, list and object takes at least one character and costs at most two steps.
-/
def value (care : Care) : Reader Json := fun t => valueWithin care (2 * t.length + 2) t

def parse (text : String) : Except ReadFault Json := do
  finish (← value .kept text.toList)

end Json

end BindBlocks
