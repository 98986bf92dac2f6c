import BindBlocks.Text.Word
import BindBlocks.Token.Lexer

/-! Blocks: the keyword `gen`, then perhaps blanks and comments, then code in braces. Blocks are
found on tokens, so that braces in strings and comments do not count, and a block inside another one
is part of its content. A glance at the characters alone tells most texts without blocks apart. -/

namespace BindBlocks

structure Block where
  /-- The offset of the keyword. -/
  start : Nat
  /-- The offset of the opening brace. -/
  opening : Nat
  /-- The offset after the closing brace. -/
  stop : Nat
  content : Text
  deriving DecidableEq, Repr

namespace Block

def span (b : Block) : Span := ⟨b.start, b.stop⟩

/-- The offset of the closing brace. -/
def closing (b : Block) : Nat := b.stop - 1

/-- The span between the braces. -/
def inside (b : Block) : Span := ⟨b.opening + 1, b.closing⟩

/-- The span between the braces, refused where an end of it is no offset. -/
def checkedInside (b : Block) : Except Fault Span := do
  return ⟨← Offset.add b.opening 1, ← Offset.sub b.stop 1⟩

/-- The number of tokens before the one that closes `depth + 1` braces. -/
def closeIndex? : Nat → List Token → Option Nat
  | _, [] => none
  | depth, t :: ts =>
    match t.kind, depth with
    | .rightBrace, 0 => some 0
    | .rightBrace, depth + 1 => (closeIndex? depth ts).map (· + 1)
    | .leftBrace, depth => (closeIndex? (depth + 1) ts).map (· + 1)
    | _, depth => (closeIndex? depth ts).map (· + 1)

/-- The tokens that delimit a block. -/
structure Frame where
  keyword : Token
  opening : Token
  closing : Token
  deriving DecidableEq, Repr

namespace Frame

/-- The frame of the block that a keyword starts, and the tokens after the block. -/
def after? (keyword : Token) (ts : List Token) : Option (Frame × List Token) :=
  match ts.dropWhile (·.kind.isTrivia) with
  | [] => none
  | brace :: inner =>
    if brace.kind = .leftBrace then
      match closeIndex? 0 inner with
      | none => none
      | some n =>
        match inner.drop n with
        | [] => none
        | close :: rest => some (⟨keyword, brace, close⟩, rest)
    else none

theorem after?_shorter {keyword : Token} {ts rest : List Token} {f : Frame}
    (h : after? keyword ts = some (f, rest)) : rest.length < ts.length := by
  unfold after? at h
  split at h
  · simp at h
  · rename_i brace inner hdrop
    have hle := (ts.dropWhile_sublist (·.kind.isTrivia)).length_le
    rw [hdrop, List.length_cons] at hle
    split at h
    · split at h
      · simp at h
      · split at h
        · simp at h
        · rename_i n _ _ close rest' hrest
          have hn : (inner.drop n).length ≤ inner.length := by simp
          rw [hrest, List.length_cons] at hn
          simp only [Option.some.injEq, Prod.mk.injEq] at h
          rw [← h.2]
          omega
    · simp at h

/-- The frames of the outermost blocks of a token list, from left to right. -/
def ofTokens (ts : List Token) : List Frame :=
  match ts with
  | [] => []
  | t :: ts =>
    if t.kind = .gen then
      match h : after? t ts with
      | some (f, rest) =>
        have := after?_shorter h
        f :: ofTokens rest
      | none => ofTokens ts
    else ofTokens ts
termination_by ts.length
decreasing_by all_goals simp only [List.length_cons]; omega

/-- The block that a frame delimits in a text, with the text between its braces. -/
def block (t : Text) (f : Frame) : Except Fault Block := do
  let content ← Text.slice t (f.opening.span.start + 1) f.closing.span.start
  return ⟨f.keyword.span.start, f.opening.span.start, f.closing.span.stop, content⟩

end Frame

/-- The outermost blocks of a text, from left to right. -/
def ofText (t : Text) : Except Fault (List Block) :=
  (Frame.ofTokens (Token.ofText t)).mapM (Frame.block t)

/-- The keyword, white space and an opening brace. -/
def startsPlainly : Text → Bool
  | 'g' :: 'e' :: 'n' :: t =>
    match t.dropWhile Text.isWhiteSpace with
    | '{' :: _ => true
    | _ => false
  | _ => false

/-- Whether the keyword starts a word somewhere in the text, and a brace follows it after white
space. `previous` is the character before the text. -/
def glanceAfter (previous : Option Char) : Text → Bool
  | [] => false
  | c :: t =>
    (startsPlainly (c :: t) && !previous.any Text.isWord) || glanceAfter (some c) t

/-- The glance that says whether it is worth while to look for blocks. -/
def glance (t : Text) : Bool := glanceAfter none t

end Block

end BindBlocks
