import BindBlocks.Proofs.BlockContent
import BindBlocks.Proofs.OpenCode

/-! The bodies of functions with a heading: the keyword, the parameters in parentheses, and a brace.
The scope keeps the open braces on a stack and remembers one function that awaits its body. A
function among the parameters of another takes that one place, so that the brace behind the
parameters opens a body exactly if the keyword does not stand among them. What is inside the brace
stays in the body up to the brace that closes it, and no binding there is made plain. -/

namespace BindBlocks

namespace Token

/-- Where `depth` tokens of one kind are open, none of the other kind closes what is not open. -/
def Held (left right : Kind) (depth : Nat) (ts : List Token) : Prop :=
  ∀ n, count right (ts.take n) ≤ count left (ts.take n) + depth

section Held

variable {left right : Kind} {depth next : Nat} {t : Token} {ts : List Token}

theorem held_of_length
    (h : ∀ n < ts.length + 1, count right (ts.take n) ≤ count left (ts.take n) + depth) :
    Held left right depth ts := by
  intro n
  by_cases hn : n < ts.length + 1
  · exact h n hn
  · have hall := h ts.length (Nat.lt_succ_self _)
    rw [List.take_length] at hall
    rwa [List.take_of_length_le (by omega)]

instance : Decidable (Held left right depth ts) :=
  decidable_of_iff
    (∀ n < ts.length + 1, count right (ts.take n) ≤ count left (ts.take n) + depth)
    ⟨held_of_length, fun h n _ => h n⟩

theorem Held.head (h : Held left right depth (t :: ts)) :
    count right [t] ≤ count left [t] + depth := h 1

theorem Held.tail (h : Held left right depth (t :: ts))
    (hNext : next + count right [t] = depth + count left [t]) : Held left right next ts := by
  intro n
  have hlonger := h (n + 1)
  rw [List.take_succ_cons, count_cons_eq, count_cons_eq left] at hlonger
  omega

theorem count_singleton (kind : Kind) (t : Token) :
    count kind [t] = if t.kind = kind then 1 else 0 := by
  simp [count, List.countP_cons]

end Held

end Token

namespace Scope

open Token (Kind Held Balanced count)

section Steps

variable (s : Scope) (kind : Kind)

@[simp] theorem parens_openBrace (afterArrow : Bool) :
    (s.openBrace afterArrow).parens = s.parens := by
  unfold openBrace
  split_ifs <;> rfl

@[simp] theorem parens_closeBrace : s.closeBrace.parens = s.parens := by
  unfold closeBrace
  split <;> rfl

@[simp] theorem parens_endStatement : s.endStatement.parens = s.parens := by
  unfold endStatement
  split_ifs <;> rfl

/-- A brace opens a body if it comes after an arrow or is awaited. -/
@[simp] theorem braces_openBrace (afterArrow : Bool) :
    (s.openBrace afterArrow).braces = (afterArrow || s.awaitsBrace) :: s.braces := by
  unfold openBrace
  split_ifs with harrow hawaits <;> simp [*]

@[simp] theorem braces_closeBrace : s.closeBrace.braces = s.braces.tail := by
  unfold closeBrace
  split <;> simp [*]

@[simp] theorem braces_endStatement : s.endStatement.braces = s.braces := by
  unfold endStatement
  split_ifs <;> rfl

@[simp] theorem awaiting_closeBrace : s.closeBrace.awaiting = s.awaiting := by
  unfold closeBrace
  split <;> rfl

theorem awaiting_openBrace (afterArrow : Bool) :
    (s.openBrace afterArrow).awaiting = s.awaiting ∨
      ((s.openBrace afterArrow).awaiting = none ∧ s.awaiting.any (·.depth == s.parens) = true) := by
  unfold openBrace
  split_ifs with harrow hawaits
  · exact .inl rfl
  · refine .inr ⟨rfl, ?_⟩
    obtain ⟨f, hf, hbrace⟩ := (Option.any_eq_true _ _).1 hawaits
    exact (Option.any_eq_true _ _).2 ⟨f, hf, (Bool.and_eq_true_iff.1 hbrace).2⟩
  · exact .inl rfl

theorem awaiting_endStatement :
    s.endStatement.awaiting = s.awaiting ∨
      (s.endStatement.awaiting = none ∧ s.awaiting.any (·.depth == s.parens) = true) := by
  unfold endStatement
  split_ifs with hany
  · exact .inr ⟨rfl, hany⟩
  · exact .inl rfl

theorem parens_next :
    (s.next kind).parens =
      if kind = .leftParen then s.parens + 1
      else if kind = .rightParen then s.parens - 1 else s.parens := by
  cases kind <;> simp [next, closeParen, Kind.isTrivia]

theorem braces_next :
    (s.next kind).braces =
      if kind = .leftBrace then (s.arrow || s.awaitsBrace) :: s.braces
      else if kind = .rightBrace then s.braces.tail else s.braces := by
  cases kind <;> simp [next, closeParen, Kind.isTrivia, awaitsBrace]

/-- What becomes of the function that awaits its body: another takes its place, its parentheses are
closed, or it awaits it no more, which only happens between the parentheses where it started. -/
theorem awaiting_next :
    (s.next kind).awaiting = s.awaiting ∨
      (kind = .function ∧ (s.next kind).awaiting = some ⟨s.parens, false⟩) ∨
      (kind = .rightParen ∧ (s.next kind).awaiting =
        s.awaiting.map fun f => if f.depth = s.parens - 1 then { f with closed := true } else f) ∨
      ((s.next kind).awaiting = none ∧ s.awaiting.any (·.depth == s.parens) = true) := by
  cases kind
  case function => exact .inr (.inl ⟨rfl, rfl⟩)
  case rightParen => exact .inr (.inr (.inl ⟨rfl, rfl⟩))
  case leftBrace =>
    rcases awaiting_openBrace { s with arrow := false } s.arrow with hsame | hnone
    · exact .inl hsame
    · exact .inr (.inr (.inr hnone))
  case semicolon =>
    rcases awaiting_endStatement { s with arrow := false } with hsame | hnone
    · exact .inl hsame
    · exact .inr (.inr (.inr hnone))
  case rightBrace => exact .inl (awaiting_closeBrace { s with arrow := false })
  all_goals exact .inl rfl

end Steps

/-- The bodies are the open braces that opened one. -/
def Counted (s : Scope) : Prop := s.bodies = s.braces.count true

section Counted

variable {s : Scope}

theorem Counted.openBrace (h : s.Counted) (afterArrow : Bool) :
    (s.openBrace afterArrow).Counted := by
  unfold Counted at h ⊢
  unfold Scope.openBrace
  split_ifs <;> simp [h]

theorem Counted.closeBrace (h : s.Counted) : s.closeBrace.Counted := by
  unfold Counted at h ⊢
  unfold Scope.closeBrace
  split
  · exact h
  · simp_all
  · simp_all

theorem Counted.endStatement (h : s.Counted) : s.endStatement.Counted := by
  unfold Scope.endStatement
  split_ifs <;> exact h

theorem Counted.next (h : s.Counted) (kind : Kind) : (s.next kind).Counted := by
  cases kind
  case leftBrace => exact Counted.openBrace (s := { s with arrow := false }) h s.arrow
  case rightBrace => exact Counted.closeBrace (s := { s with arrow := false }) h
  case semicolon => exact Counted.endStatement (s := { s with arrow := false }) h
  all_goals exact h

theorem Counted.follow (h : s.Counted) (ts : List Token) : (s.follow ts).Counted := by
  induction ts generalizing s with
  | nil => exact h
  | cons t ts ih => exact ih (h.next t.kind)

theorem Counted.inBody_iff (h : s.Counted) : s.inBody = true ↔ true ∈ s.braces := by
  rw [inBody, decide_eq_true_iff, h, List.count_pos_iff]

end Counted

/-- Code is in a body exactly if one of the open braces opened a body. -/
theorem inBody_follow (ts : List Token) :
    (start.follow ts).inBody = true ↔ true ∈ (start.follow ts).braces :=
  (Counted.follow (s := start) rfl ts).inBody_iff

section Runs

variable {s : Scope} {t : Token} {ts : List Token} {depth p : Nat} {inner base : List Bool}

theorem follow_append (s : Scope) (ts us : List Token) :
    s.follow (ts ++ us) = (s.follow ts).follow us := List.foldl_append

theorem parens_step (hHeld : Held .leftParen .rightParen depth (t :: ts))
    (hParens : s.parens = p + depth) :
    ∃ next, Held .leftParen .rightParen next ts ∧ (s.next t.kind).parens = p + next ∧
      next + count .rightParen [t] = depth + count .leftParen [t] := by
  obtain ⟨next, hnext⟩ := Nat.exists_eq_add_of_le hHeld.head
  have hcount : next + count .rightParen [t] = depth + count .leftParen [t] := by omega
  refine ⟨next, hHeld.tail hcount, ?_, hcount⟩
  rw [Token.count_singleton, Token.count_singleton] at hcount
  rw [parens_next]
  by_cases hleft : t.kind = .leftParen
  · simp only [hleft, if_true, reduceCtorEq, if_false] at hcount ⊢
    omega
  · simp only [hleft, if_false] at hcount ⊢
    split_ifs at hcount ⊢ <;> omega

/-- Tokens that close no parenthesis but their own are counted. -/
theorem parens_follow (hHeld : Held .leftParen .rightParen depth ts)
    (hParens : s.parens = p + depth) :
    ∃ last, (s.follow ts).parens = p + last ∧
      last + count .rightParen ts = depth + count .leftParen ts := by
  induction ts generalizing s depth with
  | nil => exact ⟨depth, hParens, rfl⟩
  | cons t ts ih =>
    obtain ⟨next, htail, hnext, hcount⟩ := parens_step hHeld hParens
    obtain ⟨last, hlast, hrest⟩ := ih htail hnext
    refine ⟨last, hlast, ?_⟩
    rw [Token.count_cons_eq, Token.count_cons_eq .leftParen]
    omega

theorem braces_step (hBraces : s.braces = inner ++ base)
    (h : count .rightBrace [t] ≤ count .leftBrace [t] + inner.length) :
    ∃ upper, (s.next t.kind).braces = upper ++ base ∧
      upper.length + count .rightBrace [t] = inner.length + count .leftBrace [t] := by
  rw [Token.count_singleton, Token.count_singleton] at h ⊢
  rw [braces_next, hBraces]
  by_cases hleft : t.kind = .leftBrace
  · exact ⟨(s.arrow || s.awaitsBrace) :: inner, by simp [hleft], by simp [hleft]⟩
  · by_cases hright : t.kind = .rightBrace
    · cases inner with
      | nil => simp [hright] at h
      | cons brace inner => exact ⟨inner, by simp [hright], by simp [hright]⟩
    · exact ⟨inner, by simp [hleft, hright], by simp [hleft, hright]⟩

/-- Tokens that close no brace but their own leave the open braces as they are, below those that
they open. -/
theorem braces_follow (hBraces : s.braces = inner ++ base)
    (hHeld : Held .leftBrace .rightBrace inner.length ts) :
    ∃ upper, (s.follow ts).braces = upper ++ base ∧
      upper.length + count .rightBrace ts = inner.length + count .leftBrace ts := by
  induction ts generalizing s inner with
  | nil => exact ⟨inner, hBraces, rfl⟩
  | cons t ts ih =>
    obtain ⟨middle, hmiddle, hcount⟩ := braces_step (t := t) hBraces hHeld.head
    obtain ⟨upper, hupper, hrest⟩ := ih hmiddle (hHeld.tail hcount)
    refine ⟨upper, hupper, ?_⟩
    rw [Token.count_cons_eq, Token.count_cons_eq .leftBrace]
    omega

/-- Tokens that close their own braces and no others leave the open braces as they are. -/
theorem braces_follow_balanced (s : Scope) (hBalanced : Balanced 0 ts) :
    (s.follow ts).braces = s.braces := by
  have hbase : s.braces = [] ++ s.braces := rfl
  obtain ⟨upper, hupper, hcount⟩ := braces_follow hbase hBalanced.opened
  have hclosed := hBalanced.closed
  rw [List.length_nil] at hcount
  have hnil : upper = [] := List.eq_nil_of_length_eq_zero (by omega)
  rw [hupper, hnil, List.nil_append]

/-- No function awaits its body that started between the first `p` parentheses. -/
def Overtaken (p : Nat) (s : Scope) : Prop := ∀ f, s.awaiting = some f → p < f.depth

/-- A function between more parentheses takes the place of one that waits. -/
theorem overtaken_function (hAbove : p < s.parens) : Overtaken p (s.next .function) := by
  intro f hf
  obtain rfl := Option.some.inj hf
  exact hAbove

theorem Overtaken.next (h : Overtaken p s) (hAbove : p < s.parens) (kind : Kind) :
    Overtaken p (s.next kind) := by
  intro f hf
  rcases awaiting_next s kind with hsame | ⟨rfl, -⟩ | ⟨-, hclosed⟩ | ⟨hnone, -⟩
  · exact h f (hsame ▸ hf)
  · exact overtaken_function hAbove f hf
  · rw [hclosed] at hf
    obtain ⟨g, hg, rfl⟩ := Option.map_eq_some_iff.1 hf
    have hdepth := h g hg
    split_ifs <;> exact hdepth
  · rw [hnone] at hf
    exact absurd hf (by simp)

/-- Between more parentheses, nothing but another function touches one that waits. -/
theorem waiting_step {kind : Kind} (hAbove : p < s.parens)
    (hClose : kind = .rightParen → p < s.parens - 1) (hKind : kind ≠ .function)
    (h : s.awaiting = some ⟨p, false⟩) : (s.next kind).awaiting = some ⟨p, false⟩ := by
  rcases awaiting_next s kind with hsame | ⟨hfunction, -⟩ | ⟨hparen, hclosed⟩ | ⟨-, hany⟩
  · rw [hsame, h]
  · exact absurd hfunction hKind
  · have hne : p ≠ s.parens - 1 := Nat.ne_of_lt (hClose hparen)
    rw [hclosed, h, Option.map_some, if_neg hne]
  · have heq : p = s.parens := by simpa [h] using hany
    exact absurd heq (Nat.ne_of_lt hAbove)

/-- Among the parameters of a function, it waits if no other function stands there, and is overtaken
otherwise. -/
theorem awaiting_follow (hHeld : Held .leftParen .rightParen depth ts)
    (hParens : s.parens = p + 1 + depth) :
    (Overtaken p s ∨ (∃ t ∈ ts, t.kind = .function) → Overtaken p (s.follow ts)) ∧
      (s.awaiting = some ⟨p, false⟩ → (∀ t ∈ ts, t.kind ≠ .function) →
        (s.follow ts).awaiting = some ⟨p, false⟩) := by
  induction ts generalizing s depth with
  | nil => exact ⟨fun h => h.resolve_right (by simp), fun h _ => h⟩
  | cons t ts ih =>
    obtain ⟨next, htail, hnext, hcount⟩ := parens_step hHeld hParens
    obtain ⟨hovertaken, hwaiting⟩ := ih htail hnext
    have habove : p < s.parens := by omega
    refine ⟨fun h => hovertaken ?_, fun h hts => hwaiting ?_ fun u hu => ?_⟩
    · rcases h with h | ⟨u, hu, hkind⟩
      · exact .inl (h.next habove t.kind)
      · rcases List.mem_cons.1 hu with rfl | hu
        · exact .inl (hkind ▸ overtaken_function habove)
        · exact .inr ⟨u, hu, hkind⟩
    · refine waiting_step habove (fun hkind => ?_) (hts t List.mem_cons_self) h
      simp only [Token.count_singleton, hkind, if_true, reduceCtorEq, if_false] at hcount
      omega
    · exact hts u (List.mem_cons_of_mem t hu)

theorem follow_trivia (hTrivia : ∀ t ∈ ts, t.kind.isTrivia = true) : s.follow ts = s := by
  induction ts generalizing s with
  | nil => rfl
  | cons t ts ih =>
    have hnext : s.next t.kind = s := if_pos (hTrivia t List.mem_cons_self)
    show (s.next t.kind).follow ts = s
    rw [hnext, ih fun u hu => hTrivia u (List.mem_cons_of_mem t hu)]

/-- Names, the star of a generator and trivia behind a keyword change nothing but the arrow. -/
theorem follow_naming
    (hNaming : ∀ t ∈ ts, t.kind.isTrivia = true ∨ t.kind ∈ [.name, .gen, .operator]) :
    ∃ arrow, s.follow ts = { s with arrow } := by
  induction ts generalizing s with
  | nil => exact ⟨s.arrow, rfl⟩
  | cons t ts ih =>
    have hnext : ∃ arrow, s.next t.kind = { s with arrow } := by
      rcases hNaming t List.mem_cons_self with htrivia | hkind
      · exact ⟨s.arrow, if_pos htrivia⟩
      · simp only [List.mem_cons, List.not_mem_nil, or_false] at hkind
        rcases hkind with hkind | hkind | hkind <;> exact ⟨false, by rw [hkind]; rfl⟩
    obtain ⟨arrow, harrow⟩ := hnext
    obtain ⟨last, hlast⟩ := ih (s := { s with arrow }) fun u hu =>
      hNaming u (List.mem_cons_of_mem t hu)
    refine ⟨last, ?_⟩
    show (s.next t.kind).follow ts = _
    rw [harrow, hlast]

/-- The brace behind the parameters is awaited by a function that waits. -/
theorem awaitsBrace_of_waiting (hParens : s.parens = p + 1) (h : s.awaiting = some ⟨p, false⟩) :
    (s.next .rightParen).awaitsBrace = true := by
  simp [next, Kind.isTrivia, closeParen, awaitsBrace, h, hParens]

theorem awaitsBrace_of_overtaken (hParens : s.parens = p + 1) (h : Overtaken p s) :
    (s.next .rightParen).awaitsBrace = false := by
  cases hawaiting : s.awaiting with
  | none => simp [next, Kind.isTrivia, closeParen, awaitsBrace, hawaiting]
  | some f =>
    have hdepth := Nat.ne_of_gt (h f hawaiting)
    simp [next, Kind.isTrivia, closeParen, awaitsBrace, hawaiting, hParens, hdepth]

end Runs

/-- The tokens of a function up to the brace of its body. The parameters close the parentheses and
the braces that they open, and no others. -/
structure Heading where
  keyword : Token
  naming : List Token
  left : Token
  params : List Token
  right : Token
  gap : List Token
  brace : Token
  isFunction : keyword.kind = .function
  isNaming : ∀ t ∈ naming, t.kind.isTrivia = true ∨ t.kind ∈ [.name, .gen, .operator]
  isLeft : left.kind = .leftParen
  held : Held .leftParen .rightParen 0 params
  closed : count .rightParen params = count .leftParen params
  balanced : Balanced 0 params
  isRight : right.kind = .rightParen
  isGap : ∀ t ∈ gap, t.kind.isTrivia = true
  isBrace : brace.kind = .leftBrace

namespace Heading

def tokens (h : Heading) : List Token :=
  h.keyword :: (h.naming ++ h.left :: (h.params ++ h.right :: (h.gap ++ [h.brace])))

/-- No function stands among the parameters. -/
def IsPlain (h : Heading) : Prop := ∀ t ∈ h.params, t.kind ≠ .function

instance (h : Heading) : Decidable h.IsPlain := inferInstanceAs (Decidable (∀ t ∈ h.params, _))

/-- The scope among the parameters. -/
def inside (s : Scope) : Scope :=
  { s with parens := s.parens + 1, awaiting := some ⟨s.parens, false⟩, arrow := false }

theorem follow_tokens (h : Heading) (s : Scope) :
    s.follow h.tokens = (((inside s).follow h.params).next .rightParen).next .leftBrace := by
  obtain ⟨arrow, hnaming⟩ := follow_naming (s := s.next .function) h.isNaming
  have hinside : (((s.next h.keyword.kind).follow h.naming).next h.left.kind) = inside s := by
    rw [h.isFunction, hnaming, h.isLeft]
    rfl
  have hgap := follow_trivia (s := ((inside s).follow h.params).next .rightParen) h.isGap
  show (s.next h.keyword.kind).follow _ = _
  rw [follow_append]
  show (((s.next h.keyword.kind).follow h.naming).next h.left.kind).follow _ = _
  rw [hinside, follow_append]
  show (((inside s).follow h.params).next h.right.kind).follow _ = _
  rw [h.isRight, follow_append, hgap]
  show (((inside s).follow h.params).next .rightParen).next h.brace.kind = _
  rw [h.isBrace]

/-- The brace of a heading opens a body exactly if the heading is plain. -/
theorem braces_tokens (h : Heading) (s : Scope) :
    (s.follow h.tokens).braces = decide h.IsPlain :: s.braces := by
  have hparens : ((inside s).follow h.params).parens = s.parens + 1 := by
    obtain ⟨last, hlast, hcount⟩ := parens_follow (s := inside s) (p := s.parens + 1) h.held rfl
    have := h.closed
    omega
  have hbraces : ((inside s).follow h.params).braces = s.braces :=
    braces_follow_balanced (inside s) h.balanced
  obtain ⟨hovertaken, hwaiting⟩ := awaiting_follow (s := inside s) (p := s.parens) h.held rfl
  have hawaits : (((inside s).follow h.params).next .rightParen).awaitsBrace =
      decide h.IsPlain := by
    by_cases hplain : h.IsPlain
    · rw [decide_eq_true hplain, awaitsBrace_of_waiting hparens (hwaiting rfl hplain)]
    · have hfunction : ∃ t ∈ h.params, t.kind = .function := by
        simpa [IsPlain] using hplain
      rw [decide_eq_false hplain, awaitsBrace_of_overtaken hparens (hovertaken (.inr hfunction))]
  have harrow : (((inside s).follow h.params).next .rightParen).arrow = false := rfl
  rw [follow_tokens, braces_next, if_pos rfl, harrow, hawaits, Bool.false_or, braces_next,
    if_neg (by decide), if_neg (by decide), hbraces]

end Heading

end Scope

namespace Content

open Token

/-- A line that starts in a body has no edits. -/
theorem edit_outside {content : Text} (hFits : Text.size content < Offset.bound)
    {row : Nat × Text} (hRow : row ∈ Text.rows content)
    (hBody : (Scope.start.follow
      (before content (row.1 + Text.size (row.2.takeWhile Text.isWhiteSpace)))).inBody = true)
    {e : Edit} (he : e ∈ edits content) : e.start < row.1 ∨ row.1 + Text.size row.2 < e.start := by
  obtain ⟨other, hother, b, hbinding, hmem⟩ := mem_edits_iff.1 he
  have hon := edit_on_row hFits hother hbinding hmem
  by_contra hin
  have hsame : row = other :=
    Text.eq_of_mem_rows hRow hother (o := e.start) (by omega) (by omega)
  subst hsame
  obtain ⟨hparse, hopen⟩ := (openLine_binding_iff hFits).1 hbinding
  have houtside := hopen.outside
  rw [(visible_of_parse? hparse).1] at hBody
  rw [show row.1 + b.targetStart = row.1 + Text.size b.indent from rfl, hBody] at houtside
  exact absurd houtside (by decide)

end Content

namespace Scope

open Token (Held)

/-- Behind the brace of a heading, code is in a body exactly if it was in one before or no function
stands among the parameters. It stays there as long as the brace is open, and the lines that start
there have no edits if the offsets of the content have 32 bits. -/
theorem heading_opens_body (before : List Token) (h : Heading) :
    ((start.follow (before ++ h.tokens)).inBody = true ↔
        (start.follow before).inBody = true ∨ ∀ t ∈ h.params, t.kind ≠ .function) ∧
      ((start.follow (before ++ h.tokens)).inBody = true →
        ∀ body, Held .leftBrace .rightBrace 0 body →
          (start.follow (before ++ h.tokens ++ body)).inBody = true ∧
          ∀ content, Text.size content < Offset.bound → ∀ row ∈ Text.rows content,
            Token.before content (row.1 + Text.size (row.2.takeWhile Text.isWhiteSpace)) =
              before ++ h.tokens ++ body →
            ∀ e ∈ Content.edits content, e.start < row.1 ∨ row.1 + Text.size row.2 < e.start) := by
  refine ⟨?_, fun hopened body hheld => ?_⟩
  · rw [inBody_follow, inBody_follow, follow_append, h.braces_tokens, List.mem_cons, eq_comm,
      decide_eq_true_iff, or_comm]
    rfl
  · have hin : (start.follow (before ++ h.tokens ++ body)).inBody = true := by
      have hbase : (start.follow (before ++ h.tokens)).braces =
          [] ++ (start.follow (before ++ h.tokens)).braces := rfl
      obtain ⟨upper, hupper, -⟩ := braces_follow hbase hheld
      rw [inBody_follow, follow_append, hupper]
      exact List.mem_append_right upper ((inBody_follow _).1 hopened)
    refine ⟨hin, fun content hFits row hrow hbefore e he => ?_⟩
    exact Content.edit_outside hFits hrow (by rw [hbefore, hin]) he

/-- The heading `function f({}) {`. -/
def plainHeading : Heading where
  keyword := ⟨.function, "function".toList, ⟨0, 8⟩⟩
  naming := [⟨.gap, [' '], ⟨8, 9⟩⟩, ⟨.name, ['f'], ⟨9, 10⟩⟩]
  left := ⟨.leftParen, ['('], ⟨10, 11⟩⟩
  params := [⟨.leftBrace, ['{'], ⟨11, 12⟩⟩, ⟨.rightBrace, ['}'], ⟨12, 13⟩⟩]
  right := ⟨.rightParen, [')'], ⟨13, 14⟩⟩
  gap := [⟨.gap, [' '], ⟨14, 15⟩⟩]
  brace := ⟨.leftBrace, ['{'], ⟨15, 16⟩⟩
  isFunction := rfl
  isNaming := by decide
  isLeft := rfl
  held := by decide
  closed := rfl
  balanced := ⟨show Held .leftBrace .rightBrace 0 _ by decide, rfl⟩
  isRight := rfl
  isGap := by decide
  isBrace := rfl

/-- A line of its own in the body behind that heading. -/
theorem heading_opens_body_destructured :
    (17, "<-g\x7d".toList) ∈ Text.rows "function f(\x7b\x7d) \x7b\n<-g\x7d".toList ∧
      Token.before "function f(\x7b\x7d) \x7b\n<-g\x7d".toList
        (17 + Text.size ("<-g\x7d".toList.takeWhile Text.isWhiteSpace)) =
          [] ++ plainHeading.tokens ++ [⟨.lineEnd, ['\n'], ⟨16, 17⟩⟩] ∧
      (start.follow ([] ++ plainHeading.tokens)).inBody = true ∧
      ∀ e ∈ Content.edits "function f(\x7b\x7d) \x7b\n<-g\x7d".toList,
        e.start < 17 ∨ 17 + Text.size "<-g\x7d".toList < e.start := by
  have hrow : (17, "<-g\x7d".toList) ∈
      Text.rows "function f(\x7b\x7d) \x7b\n<-g\x7d".toList := by decide +kernel
  have hbefore : Token.before "function f(\x7b\x7d) \x7b\n<-g\x7d".toList
      (17 + Text.size ("<-g\x7d".toList.takeWhile Text.isWhiteSpace)) =
        [] ++ plainHeading.tokens ++ [⟨.lineEnd, ['\n'], ⟨16, 17⟩⟩] := by decide +kernel
  obtain ⟨hiff, hbody⟩ := heading_opens_body [] plainHeading
  have hopened := hiff.2 (.inr (by decide))
  obtain ⟨-, hedits⟩ := hbody hopened [⟨.lineEnd, ['\n'], ⟨16, 17⟩⟩] (by decide)
  exact ⟨hrow, hbefore, hopened, hedits _ (by decide) (17, "<-g\x7d".toList) hrow hbefore⟩

/-- The brace after these parameters opens no body. -/
example :
    Content.edits "function f(g = function () \x7b\x7d) \x7b\nx <- g()\n\x7d".toList =
      [.insertLeft 33 "const ".toList, .replace ⟨35, 37⟩ "= yield*".toList] := by
  decide +kernel

end Scope

end BindBlocks
