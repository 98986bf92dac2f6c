import BindBlocks.Text.Basic
import BindBlocks.Text.CharClass

/-! Where strings, templates, comments and numbers end. Every scan gets the text after the
characters that open the literal, and measures what belongs to it, the closing characters included.
A literal that is never closed takes all of the text. Lengths count characters and sizes count
bytes.

Quotes, templates and the braces of template expressions nest, and a backslash takes the next
character out of account in each of them. -/

namespace BindBlocks

/-- What is open around a character of a literal. -/
inductive Opener where
  | quote (close : Char)
  | template
  | brace
  deriving DecidableEq, Repr

namespace Opener

/-- What a character does to the innermost opener: nothing, open another, or close it. -/
inductive Move where
  | stay
  | enter (inner : Opener)
  | leave
  deriving DecidableEq, Repr

def move : Opener → Char → Move
  | .quote close, c => if c = close then .leave else .stay
  | .template, c => if c = '\x60' then .leave else .stay
  | .brace, c =>
    if c = '{' then .enter .brace
    else if c = '}' then .leave
    else if c = '\x60' then .enter .template
    else if c = '\x27' ∨ c = '\x22' then .enter (.quote c)
    else .stay

/-- The number of characters before the one that closes the outermost opener. -/
def bodyLength : Opener → List Opener → Text → Nat
  | _, _, [] => 0
  | _, _, ['\\'] => 1
  | top, below, '\\' :: _ :: t => 2 + bodyLength top below t
  | .template, below, '$' :: '{' :: t => 2 + bodyLength .brace (.template :: below) t
  | top, below, c :: t =>
    match top.move c with
    | .stay => 1 + bodyLength top below t
    | .enter inner => 1 + bodyLength inner (top :: below) t
    | .leave =>
      match below with
      | [] => 0
      | outer :: rest => 1 + bodyLength outer rest t

/-- The number of characters up to and with the one that closes the opener. -/
def literalLength (o : Opener) (t : Text) : Nat := min (bodyLength o [] t + 1) t.length

/-- The bytes of the same characters, of which the closing one counts as a single byte. -/
def literalSize (o : Opener) (t : Text) : Nat :=
  let body := bodyLength o [] t
  Text.size (t.take body) + if body < t.length then 1 else 0

end Opener

namespace Literal

/-- The rest of a line comment, which ends before the line does. -/
def lineCommentLength (t : Text) : Nat := (t.takeWhile fun c => !Text.isLineEnd c).length

def lineCommentSize (t : Text) : Nat := Text.size (t.take (lineCommentLength t))

def blockCommentLength : Text → Nat
  | [] => 0
  | '*' :: '/' :: _ => 2
  | _ :: t => 1 + blockCommentLength t

def blockCommentSize (t : Text) : Nat := Text.size (t.take (blockCommentLength t))

/-- The rest of a number: digits, points, underscores, exponent marks with their signs, and at last
the suffix of a big integer. -/
def numberLength : Text → Nat
  | [] => 0
  | c :: t =>
    if Text.isDigit c || c = '.' || c = '_' then 1 + numberLength t
    else if c = 'e' || c = 'E' then
      match t with
      | [] => 1
      | sign :: rest =>
        if sign = '+' || sign = '-' then 2 + numberLength rest else 1 + numberLength (sign :: rest)
    else if c = 'n' then 1
    else 0

def numberSize (t : Text) : Nat := Text.size (t.take (numberLength t))

end Literal

end BindBlocks
