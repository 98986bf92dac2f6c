import BindBlocks.Edit.Basic
import BindBlocks.Text.Pieces
import BindBlocks.Token.Lexer

/-! A binding is a line of code of the form `target <- expression` or `<- expression`, perhaps with
a semicolon at its end. The target is a name, or a list of names in brackets or braces. In plain
code `x <- e` is `const x = yield* e` and `<- e` is `yield* e`. -/

namespace BindBlocks

/-- The parts of the line from left to right. The arrow stands between `gap` and `lead`. -/
structure Binding where
  indent : Text
  target : Option Text
  gap : Text
  lead : Text
  expression : Text
  tail : Text
  deriving DecidableEq, Repr

namespace Binding

def arrow : Text := ['<', '-']

/-- The line that the parts make up. -/
def toText (b : Binding) : Text :=
  b.indent ++ b.target.getD [] ++ b.gap ++ arrow ++ b.lead ++ b.expression ++ b.tail

def isPatternPart (c : Char) : Bool :=
  Text.isGap c || Token.isNamePart c || c = ',' || c = '.'

/-- Names up to and with a closing bracket or brace, and the text after them. -/
def pattern? (close : Char) (t : Text) : Option (Text × Text) :=
  match t.dropWhile isPatternPart with
  | c :: rest => if c = close then some (t.takeWhile isPatternPart ++ [c], rest) else none
  | [] => none

/-- The target at the start of a text, and the text after it. -/
def target? : Text → Option (Text × Text)
  | [] => none
  | c :: t =>
    if Token.isNameStart c then
      some (c :: t.takeWhile Token.isNamePart, t.dropWhile Token.isNamePart)
    else if c = '[' then (pattern? ']' t).map fun (p, rest) => (c :: p, rest)
    else if c = '{' then (pattern? '}' t).map fun (p, rest) => (c :: p, rest)
    else none

/-- The text without what may stand after an expression: blanks, a semicolon and blanks. -/
def withoutTail (t : Text) : Text :=
  match (Text.trimEnd Text.isGap t).reverse with
  | ';' :: rest => Text.trimEnd Text.isGap rest.reverse
  | _ => Text.trimEnd Text.isGap t

/-- The text after the arrow, as blanks, expression and tail. The expression has at least one
character: if nothing but blanks follows the arrow it is the last of them, and a semicolon on its
own is an expression. -/
def afterArrow? (t : Text) : Option (Text × Text × Text) :=
  match t.dropWhile Text.isGap with
  | [] =>
    match t.getLast? with
    | none => none
    | some c => some (t.dropLast, [c], [])
  | c :: rest =>
    let length := max 1 (withoutTail (c :: rest)).length
    some (t.takeWhile Text.isGap, (c :: rest).take length, (c :: rest).drop length)

/-- Reads a line, which has no line end. -/
def parse? (line : Text) : Option Binding :=
  let indent := line.takeWhile Text.isGap
  let t := line.dropWhile Text.isGap
  let (target, gap, t) :=
    match target? t with
    | some (target, t) => (some target, t.takeWhile Text.isGap, t.dropWhile Text.isGap)
    | none => (none, [], t)
  match t with
  | '<' :: '-' :: t =>
    (afterArrow? t).map fun (lead, expression, tail) =>
      ⟨indent, target, gap, lead, expression, tail⟩
  | _ => none

/-- The offset of the target in the line. -/
def targetStart (b : Binding) : Nat := Text.size b.indent

def targetStop (b : Binding) : Nat := b.targetStart + Text.size (b.target.getD [])

def arrowStart (b : Binding) : Nat := b.targetStop + Text.size b.gap

def arrowStop (b : Binding) : Nat := b.arrowStart + Text.size arrow

def expressionStart (b : Binding) : Nat := b.arrowStop + Text.size b.lead

def expressionStop (b : Binding) : Nat := b.expressionStart + Text.size b.expression

/-- The word in front of a target. -/
def declaration : Text := "const ".toList

/-- What stands for the arrow after a target. -/
def assignment : Text := "= yield*".toList

/-- What stands for the arrow without a target. -/
def delegation : Text := "yield*".toList

/-- A blank where two parts of a line touch. -/
def blankIf (touching : Bool) : Text := if touching then [' '] else []

/-- The edits that make plain code of the line if it starts at `offset`. They keep 32 bits of their
places. -/
def edits (b : Binding) (offset : Nat) : List Edit :=
  let arrow := Span.wrap ⟨offset + b.arrowStart, offset + b.arrowStop⟩
  let after := blankIf (b.arrowStop == b.expressionStart)
  match b.target with
  | some _ =>
    let before := blankIf (b.targetStop == b.arrowStart)
    [.insertLeft (Offset.wrap (offset + b.targetStart)) declaration,
      .replace arrow (before ++ assignment ++ after)]
  | none => [.replace arrow (delegation ++ after)]

end Binding

end BindBlocks
