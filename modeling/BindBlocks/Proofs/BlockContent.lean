import BindBlocks.Proofs.Lexemes

/-! The tokens of a block's content. No token that stops before a closing brace looks beyond it, so
a content that is cut out has the tokens that stand between the braces of its block. `Balanced`
says that no prefix of them closes more braces than it opens, and that all of them open as many as
they close. -/

namespace BindBlocks

namespace Token

/-- What fills a text in front of a fence fills it alone. -/
theorem Fill.cut {offset : Nat} {t v : Text} {b : Char} {ts : List Token} (hb : Fence b)
    (h : Fill offset t (b :: v) ts) : Fill offset t [] ts := by
  generalize hrest : b :: v = rest at h
  induction h with
  | nil offset rest => exact .nil offset []
  | @cons offset c z t rest k ts hlexeme _ ih =>
    subst hrest
    refine .cons ?_ (ih rfl)
    rw [← List.append_assoc] at hlexeme
    rw [← List.append_assoc, lexeme_congr hb _ (.inl rfl), hlexeme]
    rw [hlexeme, List.length_append]
    exact Nat.le_add_right _ _

/-- The token with its span moved on. -/
def move (distance : Nat) (token : Token) : Token :=
  { token with span := ⟨token.span.start + distance, token.span.stop + distance⟩ }

/-- The number of tokens of a kind. -/
def count (kind : Kind) (ts : List Token) : Nat := ts.countP (·.kind = kind)

/-- Where `depth` braces are open, no brace is closed that is not open, and in the end all are
closed. -/
structure Balanced (depth : Nat) (ts : List Token) : Prop where
  opened : ∀ n, count .rightBrace (ts.take n) ≤ count .leftBrace (ts.take n) + depth
  closed : count .rightBrace ts = count .leftBrace ts + depth

theorem count_cons (kind : Kind) (t : Token) (ts : List Token) :
    count kind (t :: ts) = count kind ts + if t.kind = kind then 1 else 0 := by
  simp [count, List.countP_cons]

theorem count_cons_eq (kind : Kind) (t : Token) (ts : List Token) :
    count kind (t :: ts) = count kind ts + count kind [t] := by
  rw [count_cons, count_cons]
  simp [count]

/-- A token changes the number of open braces by what it opens and closes. -/
theorem opened_cons {depth next : Nat} {t : Token} {ts : List Token}
    (h : ∀ n, count .rightBrace (ts.take n) ≤ count .leftBrace (ts.take n) + next)
    (hNext : next + count .rightBrace [t] = depth + count .leftBrace [t]) (n : Nat) :
    count .rightBrace ((t :: ts).take n) ≤ count .leftBrace ((t :: ts).take n) + depth := by
  cases n with
  | zero => exact Nat.zero_le _
  | succ n =>
    have hopened := h n
    rw [List.take_succ_cons, count_cons_eq, count_cons_eq .leftBrace]
    omega

theorem Balanced.cons {depth next : Nat} {t : Token} {ts : List Token} (h : Balanced next ts)
    (hNext : next + count .rightBrace [t] = depth + count .leftBrace [t]) :
    Balanced depth (t :: ts) := by
  refine ⟨opened_cons h.opened hNext, ?_⟩
  have hclosed := h.closed
  rw [count_cons_eq, count_cons_eq .leftBrace]
  omega

end Token

namespace Block

open Token (Balanced count Fence Fill)

/-- The tokens before the brace that closes `depth + 1` braces close `depth` of them. -/
theorem balanced_closeIndex? {depth n : Nat} {ts : List Token}
    (h : closeIndex? depth ts = some n) : Balanced depth (ts.take n) := by
  fun_induction closeIndex? depth ts generalizing n with
  | case1 => exact absurd h (by simp)
  | case2 t ts hkind =>
    obtain rfl := Option.some.inj h
    exact ⟨fun m => by simp [count], by simp [count]⟩
  | case3 t ts depth hkind ih =>
    obtain ⟨m, hm, rfl⟩ := Option.map_eq_some_iff.1 h
    exact (ih hm).cons (by simp [count, hkind])
  | case4 t ts depth hkind ih =>
    obtain ⟨m, hm, rfl⟩ := Option.map_eq_some_iff.1 h
    exact (ih hm).cons (by simp [count, hkind])
  | case5 t ts depth hzero hsucc hleft ih =>
    obtain ⟨m, hm, rfl⟩ := Option.map_eq_some_iff.1 h
    have hright : t.kind ≠ .rightBrace := by
      intro hkind
      cases depth with
      | zero => exact hzero hkind rfl
      | succ depth => exact hsucc depth hkind rfl
    have hleft : t.kind ≠ .leftBrace := hleft
    exact (ih hm).cons (by simp [count, hright, hleft])

/-- Each frame starts at a keyword among the tokens. -/
theorem Frame.exists_after?_of_mem {ts : List Token} {f : Frame} (h : f ∈ ofTokens ts) :
    ∃ front back rest, ts = front ++ f.keyword :: back ∧ f.keyword.kind = .gen ∧
      after? f.keyword back = some (f, rest) := by
  fun_induction ofTokens ts with
  | case1 => exact absurd h (by simp)
  | case2 t ts hkind f' rest hafter hshorter ih =>
    obtain ⟨trivia, brace, inner, close, rfl, -, -, -, rfl⟩ := after?_cases hafter
    rcases List.mem_cons.1 h with rfl | h
    · exact ⟨[], _, rest, rfl, hkind, hafter⟩
    · obtain ⟨front, back, rest', hsplit, hkeyword, hblock⟩ := ih h
      refine ⟨t :: (trivia ++ brace :: (inner ++ close :: front)), back, rest', ?_, hkeyword,
        hblock⟩
      rw [hsplit]
      simp
  | case3 t ts hkind hafter ih =>
    obtain ⟨front, back, rest, hsplit, hkeyword, hblock⟩ := ih h
    exact ⟨t :: front, back, rest, by rw [hsplit]; rfl, hkeyword, hblock⟩
  | case4 t ts hkind ih =>
    obtain ⟨front, back, rest, hsplit, hkeyword, hblock⟩ := ih h
    exact ⟨t :: front, back, rest, by rw [hsplit]; rfl, hkeyword, hblock⟩

section Fits

variable {t : Text} {bs : List Block} {b : Block} (hFits : Text.size t < Offset.bound)
  (hBlocks : ofText t = .ok bs) (hb : b ∈ bs)
include hFits hBlocks hb

/-- The keyword of a block is one of the tokens at their places. -/
theorem exists_keyword :
    ∃ front keyword back rest f, Token.ofTextAt 0 t = front ++ keyword :: back ∧
      keyword.kind = .gen ∧ Frame.after? keyword back = some (f, rest) ∧ f.block t = .ok b := by
  rw [ofText, Token.ofText_eq hFits] at hBlocks
  obtain ⟨f, hf, hblock⟩ := exists_of_mem_mapM hBlocks hb
  obtain ⟨front, back, rest, hsplit, hkind, hafter⟩ := Frame.exists_after?_of_mem hf
  exact ⟨front, _, back, rest, f, hsplit, hkind, hafter, hblock⟩

end Fits

end Block

end BindBlocks
