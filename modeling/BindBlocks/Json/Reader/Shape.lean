import BindBlocks.Json.Reader.Value

/-! JSON values of a given shape. A value of another shape is refused as soon as its shape is known.
-/

namespace BindBlocks

namespace Json

/-- What is wrong with a value that is not of the shape asked for. A string, a number or a word is
read in full first, a list or an object is not entered. -/
def mismatch : Text → ReadFault
  | '[' :: _ => .mismatched
  | '{' :: _ => .mismatched
  | t =>
    match scalar .kept t with
    | .error fault => fault
    | .ok _ => .mismatched

def readString : Reader String := fun t =>
  match skipBlanks t with
  | [] => .error .truncated
  | c :: t =>
    if c = '\x22' then (quoted .kept t).map fun (s, t) => (String.ofList s, t)
    else .error (mismatch (c :: t))

/-- A whole number from zero up to, and without, `bound`. -/
def readBelow (bound : Nat) : Reader Nat := fun t =>
  let t := skipBlanks t
  match scalar .kept t with
  | .ok (.int n, rest) =>
    if 0 ≤ n ∧ n < bound then .ok (n.toNat, rest) else .error .mismatched
  | _ => .error (mismatch t)

def readNullable {α : Type} (read : Reader α) : Reader (Option α) := fun t =>
  match skipBlanks t with
  | 'n' :: t => (word ['u', 'l', 'l'] t).map fun t => (none, t)
  | t => (read t).map fun (a, t) => (some a, t)

def readItems {α : Type} (read : Reader α) : Nat → Bool → Reader (List α)
  | 0, _, _ => .error .truncated
  | fuel + 1, first, t => do
    let (more, t) ← nextItem first t
    if more then
      let (item, t) ← read t
      let (items, t) ← readItems read fuel false t
      return (item :: items, t)
    else
      return ([], ← mark ']' t)

/-- A list. Its items take at least one character each. -/
def readList {α : Type} (read : Reader α) : Reader (List α) := fun t =>
  match skipBlanks t with
  | '[' :: t => readItems read (t.length + 1) true t
  | t => .error (mismatch t)

end Json

end BindBlocks
