import BindBlocks.Proofs.Bindings
import BindBlocks.Proofs.Lexemes

/-! The tokens of a line with a binding, before and after it is made plain. The target is filled by
the same tokens whatever follows it, a gap has no lexemes, and the arrow is one token. In plain code
the word `const` stands in front of the target, and the operators and the word in place of the arrow
are kept apart from their neighbours by blanks. -/

namespace BindBlocks

namespace Binding

open Token

/-- A name, or names in brackets or braces. -/
inductive IsTarget : Text → Prop
  | name {c : Char} {r : Text} :
      isNameStart c = true → (∀ x ∈ r, isNamePart x = true) → IsTarget (c :: r)
  | pattern {left right : Char} {names : Text} :
      (left, right) ∈ [('[', ']'), ('{', '}')] → (∀ x ∈ names, isPatternPart x = true) →
      IsTarget (left :: (names ++ [right]))

theorem pattern?_shape {close : Char} {t p rest : Text} (h : pattern? close t = some (p, rest)) :
    ∃ names, p = names ++ [close] ∧ ∀ x ∈ names, isPatternPart x = true := by
  unfold pattern? at h
  split at h
  · split at h
    · rename_i hclose
      simp only [Option.some.injEq, Prod.mk.injEq] at h
      exact ⟨t.takeWhile isPatternPart, by rw [← h.1, hclose],
        fun x hx => List.mem_takeWhile_imp hx⟩
    · exact absurd h (by simp)
  · exact absurd h (by simp)

theorem isTarget_of_target? {t target rest : Text} (h : target? t = some (target, rest)) :
    IsTarget target := by
  cases t with
  | nil => exact absurd h (by simp [target?])
  | cons c t =>
    rw [target?] at h
    split_ifs at h with hname hbracket hbrace
    · simp only [Option.some.injEq, Prod.mk.injEq] at h
      obtain ⟨rfl, -⟩ := h
      exact .name hname fun x hx => List.mem_takeWhile_imp hx
    · obtain ⟨⟨p, rest'⟩, hp, heq⟩ := Option.map_eq_some_iff.1 h
      obtain ⟨rfl, -⟩ := Prod.mk.inj heq
      obtain ⟨names, rfl, hnames⟩ := pattern?_shape hp
      exact .pattern (by simp [hbracket]) hnames
    · obtain ⟨⟨p, rest'⟩, hp, heq⟩ := Option.map_eq_some_iff.1 h
      obtain ⟨rfl, -⟩ := Prod.mk.inj heq
      obtain ⟨names, rfl, hnames⟩ := pattern?_shape hp
      exact .pattern (by simp [hbrace]) hnames

/-- The parts of a line that has been read hold the characters that they should. -/
structure Shaped (b : Binding) : Prop where
  indent : ∀ c ∈ b.indent, Text.isGap c = true
  target : ∀ target, b.target = some target → IsTarget target
  gap : ∀ c ∈ b.gap, Text.isGap c = true
  noGap : b.target = none → b.gap = []
  lead : ∀ c ∈ b.lead, Text.isGap c = true

theorem lead_of_afterArrow? {t lead expression tail : Text}
    (h : afterArrow? t = some (lead, expression, tail)) : ∀ c ∈ lead, Text.isGap c = true := by
  unfold afterArrow? at h
  split at h
  · rename_i hdrop
    split at h
    · exact absurd h (by simp)
    · simp only [Option.some.injEq, Prod.mk.injEq] at h
      obtain ⟨rfl, -, -⟩ := h
      intro c hc
      exact List.dropWhile_eq_nil_iff.1 hdrop c (List.dropLast_subset t hc)
  · simp only [Option.some.injEq, Prod.mk.injEq] at h
    obtain ⟨rfl, -, -⟩ := h
    exact fun c hc => List.mem_takeWhile_imp hc

theorem shaped_of_parse? {line : Text} {b : Binding} (h : parse? line = some b) : b.Shaped := by
  have hrun : ∀ {t : Text}, ∀ c ∈ t.takeWhile Text.isGap, Text.isGap c = true :=
    fun c hc => List.mem_takeWhile_imp hc
  unfold parse? at h
  cases htarget : target? (line.dropWhile Text.isGap) with
  | none =>
    simp only [htarget] at h
    split at h
    · obtain ⟨⟨lead, expression, tail⟩, hafter, rfl⟩ := Option.map_eq_some_iff.1 h
      exact ⟨hrun, by simp, by simp, fun _ => rfl, lead_of_afterArrow? hafter⟩
    · exact absurd h (by simp)
  | some pair =>
    obtain ⟨target, rest⟩ := pair
    simp only [htarget] at h
    split at h
    · obtain ⟨⟨lead, expression, tail⟩, hafter, rfl⟩ := Option.map_eq_some_iff.1 h
      refine ⟨hrun, fun target' h' => ?_, hrun, by simp, lead_of_afterArrow? hafter⟩
      rw [← Option.some.inj h']
      exact isTarget_of_target? htarget
    · exact absurd h (by simp)

theorem isBlank_of_isGap {c : Char} (h : Text.isGap c = true) : Text.isBlank c = true := by
  simp [Text.isBlank, h]

theorem not_isBlank {c : Char} (h : Text.isWhiteSpace c = false) : Text.isBlank c = false := by
  cases hblank : Text.isBlank c with
  | false => rfl
  | true =>
    have hspace : Text.isWhiteSpace c = true := by
      rcases Bool.or_eq_true_iff.1 hblank with hgap | hend
      · exact Text.isWhiteSpace_of_isGap hgap
      · exact Text.isWhiteSpace_of_isLineEnd hend
    rw [h] at hspace
    exact absurd hspace (by decide)

theorem not_isWhiteSpace_of_isNameStart {c : Char} (h : isNameStart c = true) :
    Text.isWhiteSpace c = false := by
  have hrange : 65 ≤ c.toNat ∧ c.toNat ≤ 90 ∨ 97 ≤ c.toNat ∧ c.toNat ≤ 122 ∨ c.toNat = 95 ∨
      c.toNat = 36 := by
    simp only [isNameStart, Bool.or_eq_true, Bool.and_eq_true, decide_eq_true_eq, Char.le_def,
      UInt32.le_iff_toNat_le] at h
    rcases h with ((h | h) | rfl) | rfl
    · exact .inl h
    · exact .inr (.inl h)
    · decide
    · decide
  by_contra hspace
  simp only [Text.isWhiteSpace, Bool.not_eq_false, Bool.or_eq_true, Bool.and_eq_true,
    decide_eq_true_eq, beq_iff_eq] at hspace
  omega

/-- A name is one token, if no part of a name follows it. -/
theorem lexeme_name {c : Char} {r rest : Text} (hc : isNameStart c = true)
    (hr : ∀ x ∈ r, isNamePart x = true) (hRest : ∀ d u, rest = d :: u → isNamePart d = false) :
    lexeme c (r ++ rest) = (nameKind (c :: r), r.length) := by
  have hblank : Text.isBlank c = false := not_isBlank (not_isWhiteSpace_of_isNameStart hc)
  simp only [Text.isBlank, Bool.or_eq_false_iff] at hblank
  rw [lexeme, if_neg (by simp [hblank.1]), if_neg (by simp [hblank.2]), if_pos hc]
  simp only [Text.takeWhile_append_stop hr hRest]

theorem nameKind_not_trivia (name : Text) : (nameKind name).isTrivia = false := by
  unfold nameKind
  split
  · rfl
  · split <;> rfl

/-- Names with a bracket behind them are filled by tokens that do not depend on what follows. -/
theorem names_fill {right : Char} (hRight : right = ']' ∨ right = '}') (names : Text)
    (hNames : ∀ x ∈ names, isPatternPart x = true) (offset : Nat) :
    ∃ ts, ∀ rest, Fill offset (names ++ [right]) rest ts := by
  have hfence : Fence right := by
    rcases hRight with rfl | rfl <;> (unfold Fence; decide +kernel)
  have hblank : Text.isBlank right = false := by rcases hRight with rfl | rfl <;> decide
  have hpart : isNamePart right = false := by rcases hRight with rfl | rfl <;> decide
  induction hn : names.length using Nat.strongRecOn generalizing names offset with
  | ind n ih =>
    subst hn
    cases names with
    | nil =>
      rcases hRight with rfl | rfl
      · exact ⟨_, fun rest => .single (z := []) rfl offset⟩
      · exact ⟨_, fun rest => .single (z := []) rfl offset⟩
    | cons c names =>
      have hcode : c ∉ verbatimStarts := by
        intro hmem
        have hc := hNames c List.mem_cons_self
        simp only [verbatimStarts, List.mem_cons, List.not_mem_nil, or_false] at hmem
        rcases hmem with rfl | rfl | rfl | rfl <;> exact absurd hc (by decide)
      have hle := lexeme_le (v := []) hfence hblank hpart (lexeme_code hcode (names ++ [right]))
      have hsame := fun rest => lexeme_congr hfence hle (Text.meets_cons right rest)
      generalize lexeme c (names ++ [right]) = read at hle hsame
      obtain ⟨k, m⟩ := read
      have hlength : (names.take m).length = m := List.length_take_of_le hle
      have hshorter : (names.drop m).length < (c :: names).length := by
        rw [List.length_drop, List.length_cons]
        omega
      obtain ⟨ts, hts⟩ := ih (names.drop m).length hshorter (names.drop m)
        (fun x hx => hNames x (List.mem_cons_of_mem c (List.mem_of_mem_drop hx)))
        (offset + Text.size (c :: names.take m)) rfl
      refine ⟨⟨k, c :: names.take m, ⟨offset, offset + Text.size (c :: names.take m)⟩⟩ :: ts,
        fun rest => ?_⟩
      have hlexeme : lexeme c (names.take m ++ (names.drop m ++ [right] ++ rest)) =
          (k, (names.take m).length) := by
        rw [hlength, ← hsame rest, ← List.append_assoc, ← List.append_assoc,
          List.take_append_drop, List.append_assoc, List.singleton_append]
      have hfill := Fill.cons hlexeme (hts rest)
      rwa [← List.append_assoc, List.take_append_drop] at hfill

/-- A target is filled by the same tokens whatever follows it, but for a part of a name. -/
theorem IsTarget.fill {target : Text} (h : IsTarget target) (offset : Nat) :
    ∃ t ts, t.kind.isTrivia = false ∧ t.kind.isVerbatim = false ∧ t.span.start = offset ∧
      ∀ rest, (∀ d u, rest = d :: u → isNamePart d = false) →
        Fill offset target rest (t :: ts) := by
  cases h with
  | @name c r hc hr =>
    exact ⟨⟨nameKind (c :: r), c :: r, ⟨offset, offset + Text.size (c :: r)⟩⟩, [],
      nameKind_not_trivia (c :: r), nameKind_code (c :: r), rfl, fun rest hrest =>
        .single (lexeme_name hc hr hrest) offset⟩
  | @pattern left right names hpair hnames =>
    simp only [List.mem_cons, Prod.mk.injEq, List.not_mem_nil, or_false] at hpair
    obtain ⟨ts, hts⟩ := names_fill (hpair.imp And.right And.right) names hnames
      (offset + Text.size [left])
    rcases hpair with ⟨rfl, -⟩ | ⟨rfl, -⟩
    · exact ⟨⟨.leftBracket, _, _⟩, ts, rfl, rfl, rfl, fun rest _ => .cons (z := []) rfl (hts rest)⟩
    · exact ⟨⟨.leftBrace, _, _⟩, ts, rfl, rfl, rfl, fun rest _ => .cons (z := []) rfl (hts rest)⟩

/-- Gaps are filled by trivia. -/
theorem gap_fill {g : Text} (hg : ∀ c ∈ g, Text.isGap c = true) (offset : Nat) :
    ∃ ts, (∀ t ∈ ts, t.kind.isTrivia = true) ∧
      ∀ rest, (∀ d u, rest = d :: u → Text.isGap d = false) → Fill offset g rest ts := by
  cases g with
  | nil => exact ⟨[], by simp, fun rest _ => .nil offset rest⟩
  | cons c g =>
    refine ⟨[⟨.gap, c :: g, ⟨offset, offset + Text.size (c :: g)⟩⟩], by simp [Kind.isTrivia],
      fun rest hrest => .single ?_ offset⟩
    have hrun : (g ++ rest).takeWhile Text.isGap = g :=
      Text.takeWhile_append_stop (fun x hx => hg x (List.mem_cons_of_mem c hx)) hrest
    rw [lexeme, if_pos (hg c List.mem_cons_self), hrun]

theorem arrow_fill (offset : Nat) (rest : Text) :
    Fill offset arrow rest [⟨.leftArrow, arrow, ⟨offset, offset + Text.size arrow⟩⟩] :=
  .single (z := ['-']) rfl offset

/-- The line from its target to its arrow. -/
def code (b : Binding) : Text := b.target.getD [] ++ b.gap ++ arrow

/-- The plain code in place of `code`. -/
def plainCode (b : Binding) : Text := b.heading ++ b.target.getD [] ++ b.gap ++ b.arrowText

theorem toText_eq_code (b : Binding) :
    b.toText = b.indent ++ (b.code ++ (b.lead ++ (b.expression ++ b.tail))) := by
  simp only [toText, code, List.append_assoc]

theorem plain_eq_plainCode (b : Binding) :
    b.plain = b.indent ++ (b.plainCode ++ (b.lead ++ (b.expression ++ b.tail))) := by
  simp only [plain, plainCode, List.append_assoc]

theorem arrowStop_eq (b : Binding) : b.arrowStop = b.targetStart + Text.size b.code := by
  simp only [arrowStop, arrowStart, targetStop, code, Text.size_append]
  omega

theorem arrowStart_bounds (b : Binding) :
    b.targetStart ≤ b.arrowStart ∧ b.arrowStart < b.arrowStop := by
  have harrow : 0 < Text.size arrow := by decide
  simp only [arrowStop, arrowStart, targetStop]
  omega

/-- The lexemes in place of the arrow. -/
def arrowLexemes (b : Binding) : List (Kind × Text) :=
  if b.target.isSome then
    [(.operator, "=".toList), (.name, "yield".toList), (.operator, "*".toList)]
  else [(.name, "yield".toList), (.operator, "*".toList)]

theorem lexemes_declaration (t : Text) :
    lexemes (declaration ++ t) = (.name, "const".toList) :: lexemes t := by
  have hname : lexeme 'c' (['o', 'n', 's', 't'] ++ ' ' :: t) = (.name, 4) := rfl
  have hword : lexemes (declaration ++ t) = (.name, "const".toList) :: lexemes (' ' :: t) :=
    lexemes_cons hname
  rw [hword, lexemes_blank (by decide)]

theorem lexemes_delegation {g : Char} (hg : Text.isGap g = true) (t : Text) :
    lexemes (delegation ++ g :: t) =
      [(.name, "yield".toList), (.operator, "*".toList)] ++ lexemes (g :: t) := by
  have hname : lexeme 'y' (['i', 'e', 'l', 'd'] ++ '*' :: g :: t) = (.name, 4) := rfl
  have hword : lexemes (delegation ++ g :: t) =
      (.name, "yield".toList) :: lexemes ('*' :: g :: t) := lexemes_cons hname
  have hstar : lexeme '*' ([] ++ g :: t) = (.operator, 0) := by
    simp only [Text.isGap, Bool.or_eq_true, decide_eq_true_eq] at hg
    rcases hg with rfl | rfl <;> rfl
  have hoperator : lexemes ('*' :: g :: t) = (.operator, "*".toList) :: lexemes (g :: t) :=
    lexemes_cons hstar
  rw [hword, hoperator]
  rfl

theorem lexemes_assignment {g : Char} (hg : Text.isGap g = true) (t : Text) :
    lexemes (assignment ++ g :: t) =
      [(.operator, "=".toList), (.name, "yield".toList), (.operator, "*".toList)] ++
        lexemes (g :: t) := by
  have hequals : lexeme '=' ([] ++ ' ' :: (delegation ++ g :: t)) = (.operator, 0) := rfl
  have hoperator : lexemes (assignment ++ g :: t) =
      (.operator, "=".toList) :: lexemes (' ' :: (delegation ++ g :: t)) := lexemes_cons hequals
  rw [hoperator, lexemes_blank (by decide), lexemes_delegation hg]
  rfl

theorem isBlank_of_mem_blankIf {touching : Bool} {c : Char} (h : c ∈ blankIf touching) :
    Text.isBlank c = true := by
  cases touching with
  | true =>
    obtain rfl : c = ' ' := by simpa [blankIf] using h
    decide
  | false => exact absurd h (by simp [blankIf])

/-- What stands for the arrow is kept apart from the expression. -/
theorem lexemes_arrowText {b : Binding} (h : b.Shaped) (t : Text) :
    lexemes (b.arrowText ++ (b.lead ++ t)) = b.arrowLexemes ++ lexemes (b.lead ++ t) := by
  obtain ⟨g, u, hg, hsplit, hlexemes⟩ : ∃ g u, Text.isGap g = true ∧
      blankIf (b.arrowStop == b.expressionStart) ++ (b.lead ++ t) = g :: u ∧
      lexemes (g :: u) = lexemes (b.lead ++ t) := by
    cases hlead : b.lead with
    | nil =>
      have htouch : (b.arrowStop == b.expressionStart) = true := by
        simp [expressionStart, hlead]
      rw [htouch]
      exact ⟨' ', t, by decide, rfl, lexemes_blank (by decide) t⟩
    | cons c lead =>
      have hc : Text.isGap c = true := h.lead c (by simp [hlead])
      have hapart : (b.arrowStop == b.expressionStart) = false := by
        have := c.utf8Size_pos
        rw [beq_eq_false_iff_ne, expressionStart, hlead, Text.size_cons]
        omega
      rw [hapart]
      exact ⟨c, lead ++ t, hc, rfl, rfl⟩
  rw [arrowText, List.append_assoc, hsplit, ← hlexemes, arrowLexemes]
  split
  · rw [List.append_assoc, lexemes_blanks fun c hc => isBlank_of_mem_blankIf hc,
      lexemes_assignment hg]
  · exact lexemes_delegation hg u

/-- The arrow as a token of a line whose target starts at `offset`. -/
def arrowToken (b : Binding) (offset : Nat) : Token :=
  ⟨.leftArrow, arrow, ⟨offset + Text.size (b.target.getD [] ++ b.gap),
    offset + Text.size (b.target.getD [] ++ b.gap) + Text.size arrow⟩⟩

theorem start_arrowToken (b : Binding) (offset : Nat) :
    (b.arrowToken (offset + b.targetStart)).span.start = offset + b.arrowStart := by
  simp only [arrowToken, arrowStart, targetStop, Text.size_append]
  omega

/-- The tokens of the target at `offset` and of the gap behind it, and the lexemes that they make
with the arrow in plain code. -/
structure Front (b : Binding) (offset : Nat) (target gap : List Token) : Prop where
  fill : ∀ rest, Fill offset b.code rest
    (target ++ gap ++ [b.arrowToken offset])
  trivia : ∀ t ∈ gap, t.kind.isTrivia = true
  noTarget : b.target = none → target = []
  first : b.target.isSome = true →
    ∃ t ts, target = t :: ts ∧ t.kind.isTrivia = false ∧ t.kind.isVerbatim = false ∧
      t.span.start = offset
  plain : ∀ rest,
    lexemes (b.plainCode ++ (b.lead ++ rest)) =
      (if b.target.isSome then [(.name, "const".toList)] else []) ++ visible target ++
        b.arrowLexemes ++ lexemes (b.lead ++ rest)

/-- Where the arrow touches the target, what stands for it starts with a blank. -/
theorem arrowText_of_touching {b : Binding} (hTarget : b.target.isSome = true) (hGap : b.gap = []) :
    ∃ u, b.arrowText = ' ' :: u := by
  have htouch : (b.targetStop == b.arrowStart) = true := by simp [arrowStart, hGap]
  rw [arrowText, if_pos hTarget, htouch]
  exact ⟨_, rfl⟩

/-- No part of a name follows a target with a gap behind it. -/
theorem Shaped.behind_target {b : Binding} (h : b.Shaped) {rest : Text}
    (hRest : b.gap = [] → ∀ d u, rest = d :: u → isNamePart d = false) :
    ∀ d u, b.gap ++ rest = d :: u → isNamePart d = false := by
  cases hgap : b.gap with
  | nil => exact hRest hgap
  | cons c gap =>
    intro d u hsplit
    obtain rfl : c = d := (List.cons.inj hsplit).1
    exact isNamePart_of_isBlank (isBlank_of_isGap (h.gap c (by simp [hgap])))

theorem Shaped.exists_front {b : Binding} (h : b.Shaped) (offset : Nat) :
    ∃ target gap, b.Front offset target gap := by
  have harrow := lexemes_arrowText h
  cases htarget : b.target with
  | none =>
    have hgap := h.noGap htarget
    refine ⟨[], [], fun rest => ?_, by simp, fun _ => rfl, by simp [htarget], fun rest => ?_⟩
    · simpa [code, htarget, hgap, arrowToken] using arrow_fill offset rest
    · simpa [plainCode, htarget, hgap, heading, visible] using harrow rest
  | some target =>
    obtain ⟨t, ts, hkind, hcode, hstart, hfill⟩ := (h.target target htarget).fill offset
    obtain ⟨gaps, htrivia, hgaps⟩ := gap_fill h.gap (offset + Text.size target)
    refine ⟨t :: ts, gaps, fun rest => ?_, htrivia, by simp [htarget],
      fun _ => ⟨t, ts, rfl, hkind, hcode, hstart⟩, fun rest => ?_⟩
    · have harrowed : ∀ d u, arrow ++ rest = d :: u → d = '<' :=
        fun d u hsplit => (List.cons.inj hsplit).1.symm
      have hname := hfill (b.gap ++ (arrow ++ rest)) (h.behind_target fun _ d u hsplit => by
        rw [harrowed d u hsplit]
        decide)
      have hgap := hgaps (arrow ++ rest) fun d u hsplit => by
        rw [harrowed d u hsplit]
        decide
      have hwhole := (hname.append hgap).append (arrow_fill _ rest)
      simpa only [code, htarget, Option.getD_some, arrowToken] using hwhole
    · have hbehind : ∀ d u, b.gap ++ (b.arrowText ++ (b.lead ++ rest)) = d :: u →
          isNamePart d = false := h.behind_target fun hgap d u hsplit => by
        obtain ⟨v, hv⟩ := arrowText_of_touching (by rw [htarget]; rfl) hgap
        rw [hv, List.cons_append] at hsplit
        rw [← (List.cons.inj hsplit).1]
        decide
      simp only [plainCode, htarget, heading, Option.isSome_some, if_true, Option.getD_some,
        List.append_assoc]
      rw [lexemes_declaration, (hfill _ hbehind).lexemes_eq,
        lexemes_blanks fun c hc => isBlank_of_isGap (h.gap c hc), harrow]
      rfl

/-- The code of the line starts with a visible character. -/
theorem Shaped.exists_visible {b : Binding} (h : b.Shaped) :
    ∃ x v, b.code = x :: v ∧ Text.isWhiteSpace x = false := by
  cases htarget : b.target with
  | none => exact ⟨'<', ['-'], by simp [code, htarget, h.noGap htarget, arrow], by decide⟩
  | some target =>
    rw [code, htarget, Option.getD_some]
    cases h.target target htarget with
    | name hc => exact ⟨_, _, rfl, not_isWhiteSpace_of_isNameStart hc⟩
    | pattern hpair =>
      refine ⟨_, _, rfl, ?_⟩
      simp only [List.mem_cons, Prod.mk.injEq, List.not_mem_nil, or_false] at hpair
      rcases hpair with ⟨rfl, -⟩ | ⟨rfl, -⟩ <;> decide

/-- So does the plain code in its place. -/
theorem Shaped.exists_plain_visible {b : Binding} (h : b.Shaped) :
    ∃ y v, b.plainCode = y :: v ∧ Text.isBlank y = false := by
  cases htarget : b.target with
  | none =>
    refine ⟨'y', "ield*".toList ++ blankIf (b.arrowStop == b.expressionStart), ?_, rfl⟩
    rw [plainCode, heading, arrowText, htarget, h.noGap htarget]
    rfl
  | some target =>
    refine ⟨'c', "onst ".toList ++ target ++ b.gap ++ b.arrowText, ?_, rfl⟩
    rw [plainCode, heading, htarget]
    rfl

/-- What is left of a line without the blanks in front of it starts with the target. -/
theorem size_sub_visible {line : Text} {b : Binding} (h : parse? line = some b) :
    Text.size line - Text.size (line.dropWhile Text.isWhiteSpace) = b.targetStart := by
  obtain ⟨x, v, hcode, hx⟩ := (shaped_of_parse? h).exists_visible
  have hline : line = b.indent ++ x :: (v ++ (b.lead ++ b.expression ++ b.tail)) := by
    rw [← List.cons_append, ← hcode, ← (toText_of_parse? h).1, toText_eq_code]
    simp only [List.append_assoc]
  have hindent : ∀ c ∈ b.indent, Text.isWhiteSpace c = true := fun c hc =>
    Text.isWhiteSpace_of_isGap ((shaped_of_parse? h).indent c hc)
  rw [hline, List.dropWhile_append_of_pos hindent, List.dropWhile_cons_of_neg (by simp [hx]),
    Text.size_append, Nat.add_sub_cancel]
  rfl

end Binding

end BindBlocks
