import BindBlocks.Proofs.FunctionBodies
import BindBlocks.Proofs.TopLevel

/-! What the open braces of a scope stand for. The scope only ever sees the last token and a stack,
but after any tokens, balanced or not, the stack lists the braces that the tokens have left open,
innermost first, and says of each whether it opened a body. A brace that closes nothing is passed
over, so how far the tokens reach down into the stack they started with is the least depth at which
they are held. -/

namespace BindBlocks

namespace Token

section Held

variable {left right : Kind} {depth next : Nat} {t : Token} {ts : List Token}

theorem held_cons_iff (hNext : next + count right [t] = depth + count left [t]) :
    Held left right depth (t :: ts) ↔ Held left right next ts := by
  refine ⟨fun h => h.tail hNext, fun h n => ?_⟩
  cases n with
  | zero => exact Nat.zero_le _
  | succ n =>
    have hheld := h n
    rw [List.take_succ_cons, count_cons_eq, count_cons_eq left]
    omega

/-- Tokens are held where no brace is the one that closes what was open before them. -/
theorem held_iff_not_closes :
    Held .leftBrace .rightBrace depth ts ↔ ¬ ∃ n, Block.Closes depth ts n := by
  constructor
  · rintro h ⟨n, hcloses⟩
    have hheld := h (n + 1)
    have hclosed := hcloses.closed
    omega
  · intro h
    cases hindex : Block.closeIndex? depth ts with
    | none => exact Block.opened_of_closeIndex? hindex
    | some n => exact absurd ⟨n, Block.closeIndex?_eq_some_iff.1 hindex⟩ h

end Held

/-- A brace opens at the index, and no later token closes it. -/
def Unclosed (ts : List Token) (k : Nat) : Prop :=
  ts[k]?.map (·.kind) = some .leftBrace ∧ Held .leftBrace .rightBrace 0 (ts.drop (k + 1))

instance (ts : List Token) (k : Nat) : Decidable (Unclosed ts k) :=
  inferInstanceAs (Decidable (_ ∧ _))

/-- The indices of the braces that are not closed, innermost first. -/
def unclosed (ts : List Token) : List Nat :=
  (List.range ts.length).reverse.filter fun k => Unclosed ts k

theorem mem_unclosed {ts : List Token} {k : Nat} : k ∈ unclosed ts ↔ Unclosed ts k := by
  rw [unclosed, List.mem_filter, List.mem_reverse, List.mem_range, decide_eq_true_iff,
    and_iff_right_of_imp]
  rintro ⟨hkind, -⟩
  obtain ⟨t, ht, -⟩ := Option.map_eq_some_iff.1 hkind
  exact (List.getElem?_eq_some_iff.1 ht).1

/-- The first token is the outermost of the braces that are not closed, if it is one of them. -/
theorem unclosed_cons (t : Token) (ts : List Token) :
    unclosed (t :: ts) = (unclosed ts).map (· + 1) ++
      if t.kind = .leftBrace ∧ Held .leftBrace .rightBrace 0 ts then [0] else [] := by
  have hlater : ((List.range ts.length).reverse.map (· + 1)).filter
      (fun k => Unclosed (t :: ts) k) = (unclosed ts).map (· + 1) := by
    rw [List.filter_map]
    rfl
  have hfirst : Unclosed (t :: ts) 0 ↔
      t.kind = .leftBrace ∧ Held .leftBrace .rightBrace 0 ts := by
    rw [Unclosed, List.getElem?_cons_zero, Option.map_some, Option.some.injEq]
    rfl
  rw [unclosed, List.length_cons, List.range_succ_eq_map, List.reverse_cons, ← List.map_reverse,
    List.filter_append, hlater, List.filter_singleton]
  simp only [hfirst, Bool.cond_decide]

end Token

namespace Scope

open Token (Kind Held Balanced Unclosed unclosed count)

/-- Whether a brace would open a body. -/
def opensBody (s : Scope) : Bool := s.arrow || s.awaitsBrace

/-- Tokens reach down into the open braces to the least depth at which they are held, and put the
braces that they leave open on top. -/
theorem braces_follow_eq (s : Scope) (ts : List Token) :
    ∃ reach, (∀ depth, Held .leftBrace .rightBrace depth ts ↔ reach ≤ depth) ∧
      (s.follow ts).braces =
        (unclosed ts).map (fun k => (s.follow (ts.take k)).opensBody) ++ s.braces.drop reach := by
  induction ts generalizing s with
  | nil => exact ⟨0, fun depth => iff_of_true (fun n => by simp [count]) (Nat.zero_le _), rfl⟩
  | cons t ts ih =>
    obtain ⟨reach, hreach, hbraces⟩ := ih (s.next t.kind)
    have hfollow : (s.follow (t :: ts)).braces = ((s.next t.kind).follow ts).braces := rfl
    have hlater : ((unclosed ts).map (· + 1)).map (fun k => (s.follow ((t :: ts).take k)).opensBody)
        = (unclosed ts).map fun k => ((s.next t.kind).follow (ts.take k)).opensBody := by
      rw [List.map_map]
      rfl
    rw [hfollow, hbraces, Token.unclosed_cons, List.map_append, hlater, braces_next]
    by_cases hleft : t.kind = .leftBrace
    · have hcons : ∀ depth, Held .leftBrace .rightBrace depth (t :: ts) ↔ reach ≤ depth + 1 :=
        fun depth => (Token.held_cons_iff (by simp [Token.count_singleton, hleft])).trans (hreach _)
      cases reach with
      | zero =>
        refine ⟨0, fun depth => (hcons depth).trans (by simp), ?_⟩
        rw [if_pos hleft, if_pos ⟨hleft, (hreach 0).2 (Nat.le_refl 0)⟩, List.append_assoc]
        rfl
      | succ reach =>
        have hclosed : ¬ Held .leftBrace .rightBrace 0 ts := fun h =>
          absurd ((hreach 0).1 h) (Nat.not_succ_le_zero reach)
        refine ⟨reach, fun depth => (hcons depth).trans (by omega), ?_⟩
        rw [if_pos hleft, if_neg fun h => hclosed h.2, List.map_nil, List.append_nil,
          List.drop_succ_cons]
    · have hnone : ¬ (t.kind = .leftBrace ∧ Held .leftBrace .rightBrace 0 ts) := fun h => hleft h.1
      rw [if_neg hleft, if_neg hnone, List.map_nil, List.append_nil]
      by_cases hright : t.kind = .rightBrace
      · refine ⟨reach + 1, fun depth => ?_, by rw [if_pos hright, List.drop_tail]⟩
        cases depth with
        | zero =>
          refine iff_of_false (fun h => ?_) (Nat.not_succ_le_zero reach)
          have hhead := h.head
          simp [Token.count_singleton, hright] at hhead
        | succ depth =>
          have hcons : Held .leftBrace .rightBrace (depth + 1) (t :: ts) ↔
              Held .leftBrace .rightBrace depth ts :=
            Token.held_cons_iff (by simp [Token.count_singleton, hright])
          rw [hcons, hreach, Nat.add_le_add_iff_right]
      · refine ⟨reach, fun depth => ?_, by rw [if_neg hright]⟩
        have hcons : Held .leftBrace .rightBrace depth (t :: ts) ↔
            Held .leftBrace .rightBrace depth ts :=
          Token.held_cons_iff (by simp [Token.count_singleton, hleft, hright])
        rw [hcons, hreach]

/-- The open braces are those that no token closes. -/
theorem braces_follow_start (ts : List Token) :
    (start.follow ts).braces =
      (unclosed ts).map fun k => (start.follow (ts.take k)).opensBody := by
  obtain ⟨reach, -, hbraces⟩ := braces_follow_eq start ts
  rw [hbraces]
  simp [start]

/-- A scope is in a body exactly if a brace that opened one is not closed. -/
theorem inBody_iff_unclosed (ts : List Token) :
    (start.follow ts).inBody = true ↔
      ∃ k, Unclosed ts k ∧ (start.follow (ts.take k)).opensBody = true := by
  rw [inBody_follow, braces_follow_start, List.mem_map]
  simp only [Token.mem_unclosed]

/-- A token counts the body that it opens and takes back the one that it closes, and there is always
one to take back. -/
theorem Counted.bodies_next {s : Scope} (h : s.Counted) (kind : Kind) :
    (s.next kind).bodies + (if kind = .rightBrace ∧ s.braces.head? = some true then 1 else 0) =
      s.bodies + if kind = .leftBrace ∧ s.opensBody = true then 1 else 0 := by
  rw [h.next kind, h, braces_next]
  by_cases hleft : kind = .leftBrace
  · subst hleft
    simp [List.count_cons, opensBody]
  · by_cases hright : kind = .rightBrace
    · subst hright
      cases s.braces with
      | nil => rfl
      | cons brace braces => simp [List.count_cons]
    · simp [hleft, hright]

/-- The scope after any tokens. The counted bodies are the open braces that opened one, and each
token keeps the count, so none is taken back that was not counted. Code is in a body exactly if one
of the braces that opened a body has no brace that closes it. Tokens that close their own braces and
no others leave the open braces as they were, and code in a body or outside. -/
theorem follow_represents (ts : List Token) :
    (start.follow ts).bodies = (start.follow ts).braces.count true ∧
    (∀ t : Token,
      (start.follow (ts ++ [t])).bodies +
          (if t.kind = .rightBrace ∧ (start.follow ts).braces.head? = some true then 1 else 0) =
        (start.follow ts).bodies +
          if t.kind = .leftBrace ∧ (start.follow ts).opensBody = true then 1 else 0) ∧
    ((start.follow ts).inBody = true ↔
      ∃ k, ts[k]?.map (·.kind) = some .leftBrace ∧
        (start.follow (ts.take k)).opensBody = true ∧
        ¬ ∃ n, Block.Closes 0 (ts.drop (k + 1)) n) ∧
    ∀ us, (∀ n, count .rightBrace (us.take n) ≤ count .leftBrace (us.take n)) →
      count .leftBrace us = count .rightBrace us →
      (start.follow (ts ++ us)).braces = (start.follow ts).braces ∧
      (start.follow (ts ++ us)).inBody = (start.follow ts).inBody := by
  have hcounted : (start.follow ts).Counted := Counted.follow (s := start) rfl ts
  refine ⟨hcounted, fun t => ?_, ?_, fun us hheld htotal => ?_⟩
  · rw [follow_append]
    exact hcounted.bodies_next t.kind
  · rw [inBody_iff_unclosed]
    refine exists_congr fun k => ?_
    rw [Unclosed, Token.held_iff_not_closes, and_assoc, and_comm (b := _ = true)]
  · have hbraces := braces_follow_balanced (start.follow ts) ⟨hheld, htotal.symm⟩
    rw [follow_append]
    refine ⟨hbraces, ?_⟩
    rw [Bool.eq_iff_iff, hcounted.inBody_iff, (hcounted.follow us).inBody_iff, hbraces]

/-- Behind a brace that closes nothing, a body stays open over another one that is closed. -/
theorem follow_represents_stray :
    let ts := Token.ofText "\x7d=>\x7b".toList
    let us := Token.ofText "()=>\x7b\x7b\x7d\x7d".toList
    (start.follow ts).bodies = 1 ∧
    (start.follow (ts ++ us)).braces = [true] ∧ (start.follow (ts ++ us)).inBody = true := by
  intro ts us
  have hheld : Held .leftBrace .rightBrace 0 us := by decide +kernel
  have hopened : (start.follow ts).braces = [true] := by decide +kernel
  obtain ⟨hbodies, -, -, hbalanced⟩ := follow_represents ts
  obtain ⟨hbraces, hin⟩ := hbalanced us hheld (by decide +kernel)
  refine ⟨by rw [hbodies, hopened]; rfl, hbraces.trans hopened, ?_⟩
  rw [hin, inBody_follow, hopened]
  exact List.mem_singleton_self true

end Scope

end BindBlocks
