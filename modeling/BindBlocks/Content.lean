import BindBlocks.Binding
import BindBlocks.Edit.Draft
import BindBlocks.Scope

/-! The bindings of the content of a block. Lines inside function bodies and inside strings,
templates and comments of several lines are left alone. The content is read once, line by line, with
its tokens alongside. -/

namespace BindBlocks

namespace Content

/-- How far the tokens of a content have been followed. -/
structure Progress where
  scope : Scope
  last : Option Token
  ahead : List Token
  deriving DecidableEq, Repr

namespace Progress

def start (tokens : List Token) : Progress := ⟨Scope.start, none, tokens⟩

def following (offset : Nat) (scope : Scope) (last : Option Token) : List Token → Progress
  | [] => ⟨scope, last, []⟩
  | t :: ts =>
    if t.span.start < offset then following offset (scope.next t.kind) (some t) ts
    else ⟨scope, last, t :: ts⟩

/-- Follows the tokens that start before an offset. -/
def advance (p : Progress) (offset : Nat) : Progress := following offset p.scope p.last p.ahead

/-- Whether the offset that has been reached is code outside function bodies. -/
def isOpen (p : Progress) (offset : Nat) : Bool :=
  !(p.last.any fun t => offset < t.span.stop && t.kind.isVerbatim) && !p.scope.inBody

end Progress

/-- A line without the characters that end it. -/
def lineBody (line : Text) : Text := Text.trimEnd Text.isLineEnd line

/-- Whether a line, from its first visible character on, holds no code. -/
def isIdle : Text → Bool
  | [] => true
  | '/' :: '/' :: _ => true
  | _ => false

/-- The edits of the lines that start at `offset`. -/
def editsFrom (p : Progress) (offset : Nat) : List Text → List Edit
  | [] => []
  | line :: lines =>
    let body := lineBody line
    let visible := body.dropWhile Text.isWhiteSpace
    let next := offset + Text.size line
    if isIdle visible then editsFrom p next lines
    else
      let first := offset + (Text.size body - Text.size visible)
      let p := p.advance first
      let here :=
        if p.isOpen first then
          match Binding.parse? body with
          | some b => b.edits offset
          | none => []
        else []
      here ++ editsFrom p next lines

/-- The edits that make plain code of the bindings of a content, in the order of its lines. -/
def edits (content : Text) : List Edit :=
  editsFrom (Progress.start (Token.ofText content)) 0 (Text.lines content)

/-- The content with plain code in place of its bindings. -/
def expand (content : Text) : Except Fault Text := do
  return (← ((Draft.ofText content).pushAll (edits content)).commit).text

end Content

end BindBlocks
