import BindBlocks.Token.Basic
import BindBlocks.Token.Literal

/-! The division of a text into tokens. Each token is the longest that the rules allow where it
starts, and a character that no rule covers is a token by itself, so the tokens hold every character
of the text once and in order. The bytes of a text are counted in full while it is divided, but its
tokens keep 32 bits of the ends of their spans. -/

namespace BindBlocks

namespace Token

def isNameStart (c : Char) : Bool :=
  ('A' ≤ c && c ≤ 'Z') || ('a' ≤ c && c ≤ 'z') || c = '_' || c = '$'

def isNamePart (c : Char) : Bool := isNameStart c || Text.isDigit c

/-- The operators without a kind of their own, longer ones before their beginnings. -/
def operators : List Text :=
  ["===", "!==", "...", "**=", "<<=", ">>=", ">>>", "&&=", "||=", "??=", "==", "!=", "<=", ">=",
    "&&", "||", "??", "?.", "++", "--", "+=", "-=", "*=", "/=", "%=", "&=", "|=", "^=", "**", "<<",
    ">>", ".", "<", ">", "+", "-", "*", "/", "%", "&", "|", "^", "!", "~", "?", ":", "=", "@",
    "#"].map String.toList

/-- The token that a mark starts, and the number of characters after the first that belong to it. -/
def markLexeme (c : Char) (t : Text) : Kind × Nat :=
  match c, t with
  | '{', _ => (.leftBrace, 0)
  | '}', _ => (.rightBrace, 0)
  | '(', _ => (.leftParen, 0)
  | ')', _ => (.rightParen, 0)
  | '[', _ => (.leftBracket, 0)
  | ']', _ => (.rightBracket, 0)
  | ',', _ => (.comma, 0)
  | ';', _ => (.semicolon, 0)
  | '=', '>' :: _ => (.fatArrow, 1)
  | '<', '-' :: _ => (.leftArrow, 1)
  | '/', '/' :: rest => (.lineComment, 1 + Literal.lineCommentLength rest)
  | '/', '*' :: rest => (.blockComment, 1 + Literal.blockCommentLength rest)
  | c, t =>
    match operators.find? fun operator => operator.isPrefixOf (c :: t) with
    | some operator => (.operator, operator.length - 1)
    | none => (.other, 0)

def nameKind (name : Text) : Kind :=
  if name = ['g', 'e', 'n'] then .gen
  else if name = ['f', 'u', 'n', 'c', 't', 'i', 'o', 'n'] then .function
  else .name

/-- The token that starts a text, and the number of characters after the first that belong to it. -/
def lexeme (c : Char) (t : Text) : Kind × Nat :=
  if Text.isGap c then (.gap, (t.takeWhile Text.isGap).length)
  else if Text.isLineEnd c then (.lineEnd, (t.takeWhile Text.isLineEnd).length)
  else if isNameStart c then
    let rest := t.takeWhile isNamePart
    (nameKind (c :: rest), rest.length)
  else if Text.isDigit c then (.number, Literal.numberLength t)
  else if c = '\x27' ∨ c = '\x22' then (.string, (Opener.quote c).literalLength t)
  else if c = '\x60' then (.template, Opener.template.literalLength t)
  else markLexeme c t

/-- The tokens of a text that starts at `offset`, at their places in full. -/
def ofTextAt (offset : Nat) (t : Text) : List Token :=
  match t with
  | [] => []
  | c :: t =>
    let (kind, length) := lexeme c t
    let text := c :: t.take length
    let stop := offset + Text.size text
    ⟨kind, text, ⟨offset, stop⟩⟩ :: ofTextAt stop (t.drop length)
termination_by t.length
decreasing_by
  simp only [List.length_drop, List.length_cons]
  omega

/-- The token with what 32 bits hold of its span. -/
def narrow (t : Token) : Token := { t with span := t.span.wrap }

def ofText (t : Text) : List Token := (ofTextAt 0 t).map narrow

end Token

end BindBlocks
