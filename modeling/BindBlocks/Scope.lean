import BindBlocks.Token.Basic

/-! Following tokens to know whether code is inside the body of a function. A brace opens a body
after a fat arrow, and after the keyword `function` once the parentheses of its parameters are
closed. -/

namespace BindBlocks

/-- A function whose body has not been met: how many parentheses were open at its keyword, and
whether those of its parameters are closed. -/
structure Signature where
  depth : Nat
  closed : Bool
  deriving DecidableEq, Repr

structure Scope where
  /-- The open braces, innermost first, and whether each opened a body. -/
  braces : List Bool
  /-- The number of open bodies. -/
  bodies : Nat
  /-- The number of open parentheses. -/
  parens : Nat
  awaiting : Option Signature
  /-- The last token was a fat arrow. -/
  arrow : Bool
  deriving DecidableEq, Repr

namespace Scope

def start : Scope := ⟨[], 0, 0, none, false⟩

def inBody (s : Scope) : Bool := 0 < s.bodies

/-- Whether a brace would open the body of the awaiting function. -/
def awaitsBrace (s : Scope) : Bool :=
  s.awaiting.any fun f => f.closed && f.depth == s.parens

def openBrace (s : Scope) (afterArrow : Bool) : Scope :=
  if afterArrow then { s with braces := true :: s.braces, bodies := s.bodies + 1 }
  else if s.awaitsBrace then
    { s with braces := true :: s.braces, bodies := s.bodies + 1, awaiting := none }
  else { s with braces := false :: s.braces }

def closeBrace (s : Scope) : Scope :=
  match s.braces with
  | [] => s
  | true :: braces => { s with braces, bodies := s.bodies - 1 }
  | false :: braces => { s with braces }

def closeParen (s : Scope) : Scope :=
  let parens := s.parens - 1
  { s with
    parens
    awaiting := s.awaiting.map fun f =>
      if f.depth = parens then { f with closed := true } else f }

/-- A semicolon ends a declaration without a body. -/
def endStatement (s : Scope) : Scope :=
  if s.awaiting.any fun f => f.depth == s.parens then { s with awaiting := none } else s

/-- The scope after a token of the given kind. -/
def next (s : Scope) (kind : Token.Kind) : Scope :=
  if kind.isTrivia then s
  else
    let t := { s with arrow := false }
    match kind with
    | .function => { t with awaiting := some ⟨t.parens, false⟩ }
    | .fatArrow => { t with arrow := true }
    | .leftParen => { t with parens := t.parens + 1 }
    | .rightParen => t.closeParen
    | .leftBrace => t.openBrace s.arrow
    | .rightBrace => t.closeBrace
    | .semicolon => t.endStatement
    | _ => t

def follow (s : Scope) (tokens : List Token) : Scope := tokens.foldl (fun s t => s.next t.kind) s

end Scope

end BindBlocks
