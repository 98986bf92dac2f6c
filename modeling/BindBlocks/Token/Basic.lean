import BindBlocks.Span

/-! Tokens of the host language of blocks. A token carries its own characters and the span that they
fill in the text it comes from. -/

namespace BindBlocks

inductive Token.Kind where
  | gap
  | lineEnd
  | lineComment
  | blockComment
  | string
  | template
  | number
  | gen
  | function
  | name
  | leftBrace
  | rightBrace
  | leftParen
  | rightParen
  | leftBracket
  | rightBracket
  | comma
  | semicolon
  | fatArrow
  | leftArrow
  | operator
  | other
  deriving DecidableEq, Repr

namespace Token.Kind

/-- Blanks and comments mean nothing to the code around them. -/
def isTrivia : Kind → Bool
  | gap | lineEnd | lineComment | blockComment => true
  | _ => false

/-- The inside of these tokens is not code. -/
def isVerbatim : Kind → Bool
  | string | template | lineComment | blockComment => true
  | _ => false

end Token.Kind

structure Token where
  kind : Token.Kind
  text : Text
  span : Span
  deriving DecidableEq, Repr

end BindBlocks
