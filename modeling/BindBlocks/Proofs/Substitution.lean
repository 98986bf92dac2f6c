import BindBlocks.Proofs.BindingTokens

/-! What the bindings of a content put in place of its tokens. `substitute` gives the lexemes of
some tokens with `const` in front of each target and the operators of plain code in place of each
arrow; a token that starts elsewhere keeps its lexeme. `Cut` holds the tokens of one line up to its
arrow, before and after the line is made plain. -/

namespace BindBlocks

namespace Content

open Token

/-- The lexemes in place of a token, if the binding of the line rewrites it. -/
def Line.substitute? (l : Line) (t : Token) : Option (List (Kind × Text)) :=
  l.binding.bind fun b =>
    if t.span.start = l.offset + b.arrowStart then some b.arrowLexemes
    else if b.target.isSome ∧ t.span.start = l.offset + b.targetStart then
      some [(.name, "const".toList), (t.kind, t.text)]
    else none

/-- The lexemes in place of a token of a content with these lines. -/
def rewritten (ls : List Line) (t : Token) : List (Kind × Text) :=
  (ls.findSome? fun l => l.substitute? t).getD [(t.kind, t.text)]

/-- The lexemes in place of those of some tokens. -/
def substitute (ls : List Line) (ts : List Token) : List (Kind × Text) :=
  (ts.filter fun t => !t.kind.isTrivia).flatMap (rewritten ls)

@[simp]
theorem substitute_append (ls : List Line) (ts us : List Token) :
    substitute ls (ts ++ us) = substitute ls ts ++ substitute ls us := by
  simp [substitute]

theorem substitute_cons (ls : List Line) (t : Token) (ts : List Token) :
    substitute ls (t :: ts) =
      (if t.kind.isTrivia then [] else rewritten ls t) ++ substitute ls ts := by
  cases h : t.kind.isTrivia <;> simp [substitute, h]

theorem substitute_of_trivia (ls : List Line) {ts : List Token}
    (h : ∀ t ∈ ts, t.kind.isTrivia = true) : substitute ls ts = [] := by
  rw [substitute, List.filter_eq_nil_iff.2 fun t ht => by simp [h t ht], List.flatMap_nil]

theorem substitute_eq_visible {ls : List Line} {ts : List Token}
    (h : ∀ t ∈ ts, ∀ l ∈ ls, l.substitute? t = none) : substitute ls ts = visible ts := by
  induction ts with
  | nil => rfl
  | cons t ts ih =>
    have hself : rewritten ls t = [(t.kind, t.text)] := by
      rw [rewritten, List.findSome?_eq_none_iff.2 (h t List.mem_cons_self), Option.getD_none]
    rw [substitute_cons, visible_cons, hself, ih fun u hu => h u (List.mem_cons_of_mem t hu)]

theorem substitute_skip {l : Line} {ls : List Line} {ts : List Token}
    (h : ∀ t ∈ ts, l.substitute? t = none) : substitute (l :: ls) ts = substitute ls ts := by
  induction ts with
  | nil => rfl
  | cons t ts ih =>
    have hnext : rewritten (l :: ls) t = rewritten ls t := by
      rw [rewritten, List.findSome?_cons, h t List.mem_cons_self]
      rfl
    rw [substitute_cons, substitute_cons, hnext, ih fun u hu => h u (List.mem_cons_of_mem t hu)]

/-- Tokens that start elsewhere than the arrow and the target are left alone. -/
theorem Line.substitute?_eq_none {l : Line} {b : Binding} {t : Token}
    (hBinding : l.binding = some b) (hArrow : t.span.start ≠ l.offset + b.arrowStart)
    (hTarget : t.span.start ≠ l.offset + b.targetStart) : l.substitute? t = none := by
  rw [Line.substitute?, hBinding, Option.bind_some, if_neg hArrow, if_neg fun h => hTarget h.2]

theorem Line.substitute?_of_lt {l : Line} {t : Token} (h : t.span.start < l.offset) :
    l.substitute? t = none := by
  cases hbinding : l.binding with
  | none => rw [Line.substitute?, hbinding, Option.bind_none]
  | some b => exact Line.substitute?_eq_none hbinding (by omega) (by omega)

theorem rewritten_cons {l : Line} {ls : List Line} {t : Token} {new : List (Kind × Text)}
    (h : l.substitute? t = some new) : rewritten (l :: ls) t = new := by
  rw [rewritten, List.findSome?_cons, h]
  rfl

/-- The tokens of the target and the arrow of a line give way to the lexemes of its plain code. -/
theorem substitute_front {l : Line} {ls : List Line} {b : Binding} {target gap : List Token}
    (hBinding : l.binding = some b) (hTarget : ∀ target, b.target = some target → target ≠ [])
    (hFront : b.Front (l.offset + b.targetStart) target gap)
    (hLater : ∀ m ∈ ls, l.offset + b.arrowStart < m.offset) :
    substitute (l :: ls) (target ++ gap ++ [b.arrowToken (l.offset + b.targetStart)]) =
      (if b.target.isSome then [(.name, "const".toList)] else []) ++ visible target ++
        b.arrowLexemes := by
  have harrow := b.start_arrowToken l.offset
  have hnew : substitute (l :: ls) [b.arrowToken (l.offset + b.targetStart)] = b.arrowLexemes := by
    have hgiven : l.substitute? (b.arrowToken (l.offset + b.targetStart)) =
        some b.arrowLexemes := by
      rw [Line.substitute?, hBinding, Option.bind_some, if_pos harrow]
    rw [substitute_cons, rewritten_cons hgiven]
    exact List.append_nil _
  rw [substitute_append, substitute_append, substitute_of_trivia _ hFront.trivia, hnew,
    List.append_nil]
  congr 1
  cases htarget : b.target with
  | none =>
    rw [hFront.noTarget htarget]
    rfl
  | some name =>
    obtain ⟨t, ts, rfl, hkind, -, hstart⟩ := hFront.first (by rw [htarget]; rfl)
    have hname : Text.size name ≠ 0 := fun hzero => hTarget name htarget (Text.size_eq_zero.1 hzero)
    have hapart : t.span.start ≠ l.offset + b.arrowStart := by
      simp only [hstart, Binding.arrowStart, Binding.targetStop, htarget, Option.getD_some]
      omega
    have hgiven : l.substitute? t = some [(.name, "const".toList), (t.kind, t.text)] := by
      rw [Line.substitute?, hBinding, Option.bind_some, if_neg hapart,
        if_pos ⟨by rw [htarget]; rfl, hstart⟩]
    have hkept : substitute (l :: ls) ts = visible ts := by
      have horder := (hFront.fill []).pairwise_start
      rw [List.append_assoc, List.cons_append, List.pairwise_cons, List.pairwise_append] at horder
      obtain ⟨hfirst, -, -, hlast⟩ := horder
      apply substitute_eq_visible
      intro u hu m hm
      have hbehind := hfirst u (List.mem_append_left _ hu)
      have hbefore := hlast u hu _ (List.mem_append_right gap List.mem_cons_self)
      rw [harrow] at hbefore
      rw [hstart] at hbehind
      rcases List.mem_cons.1 hm with rfl | hm
      · exact Line.substitute?_eq_none hBinding (by omega) (by omega)
      · exact Line.substitute?_of_lt (Nat.lt_trans hbefore (hLater m hm))
    rw [substitute_cons, visible_cons, rewritten_cons hgiven, hkept]
    simp [hkind]

theorem Lined.offset_le {offset : Nat} {ls : List Line} (h : Lined offset ls) :
    ∀ l ∈ ls, offset ≤ l.offset := by
  induction h with
  | nil => simp
  | @cons l ls _ _ ih =>
    intro m hm
    rcases List.mem_cons.1 hm with rfl | hm
    · exact Nat.le_refl _
    · exact Nat.le_trans (Nat.le_add_right _ _) (ih m hm)

/-- The binding of the line stands where tokens start: an arrow, and a target if it has one. -/
def Line.Marked (l : Line) (ts : List Token) : Prop :=
  ∀ b, l.binding = some b →
    (∃ t ∈ ts, t.kind = .leftArrow ∧ t.span.start = l.offset + b.arrowStart) ∧
      (b.target.isSome = true →
        ∃ t ∈ ts, t.kind.isTrivia = false ∧ t.kind.isVerbatim = false ∧
          t.span.start = l.offset + b.targetStart)

theorem Line.Marked.mono {l : Line} {ts us : List Token} (h : l.Marked ts) (hSub : ts ⊆ us) :
    l.Marked us := by
  intro b hb
  obtain ⟨⟨t, ht, hkind, hstart⟩, htarget⟩ := h b hb
  refine ⟨⟨t, hSub ht, hkind, hstart⟩, fun hsome => ?_⟩
  obtain ⟨u, hu, hfirst⟩ := htarget hsome
  exact ⟨u, hSub hu, hfirst⟩

theorem Line.marked_of_front {l : Line} {b : Binding} {target gap : List Token}
    (hBinding : l.binding = some b) (hFront : b.Front (l.offset + b.targetStart) target gap) :
    l.Marked (target ++ gap ++ [b.arrowToken (l.offset + b.targetStart)]) := by
  intro b' hb'
  obtain rfl : b = b' := Option.some.inj (hBinding.symm.trans hb')
  refine ⟨⟨b.arrowToken (l.offset + b.targetStart), by simp, rfl, b.start_arrowToken l.offset⟩,
    fun hsome => ?_⟩
  obtain ⟨t, ts, rfl, hfirst⟩ := hFront.first hsome
  exact ⟨t, by simp, hfirst⟩

/-- The tokens of the blanks in front of a binding, with a text before them, and those of its target
and its gap. The blanks are filled by the same tokens whatever visible character follows them. -/
structure Cut (front pending : Text) (b : Binding) (blanks target gap : List Token) : Prop where
  shaped : b.Shaped
  blanks : ∀ y v, Text.isBlank y = false →
    Fill (Text.size front) (pending ++ b.indent) (y :: v) blanks
  front : b.Front (Text.size front + Text.size (pending ++ b.indent)) target gap

/-- Behind the arrow of the binding a token starts. -/
theorem Cut.ofTextAt_eq {front pending back text : Text} {b : Binding}
    {blanks target gap : List Token} (h : Cut front pending b blanks target gap)
    (hText : text = b.indent ++ (b.code ++ back)) (texts : List Text) :
    ofTextAt (Text.size front) (pending ++ (text :: texts).flatten) =
      blanks ++ (target ++ gap ++
          [b.arrowToken (Text.size front + Text.size (pending ++ b.indent))]) ++
        ofTextAt (Text.size (front ++ (pending ++ b.indent ++ b.code)))
          (back ++ texts.flatten) := by
  obtain ⟨x, v, hcode, hx⟩ := h.shaped.exists_visible
  have hblanks := h.blanks x (v ++ (back ++ texts.flatten)) (Binding.not_isBlank hx)
  rw [← List.cons_append, ← hcode] at hblanks
  rw [Text.size_append front, ← (hblanks.append (h.front.fill _)).ofTextAt_eq, List.flatten_cons,
    hText]
  simp only [List.append_assoc]

theorem Cut.front_line {front pending : Text} {b : Binding} {blanks target gap : List Token}
    (h : Cut front pending b blanks target gap) {offset : Nat}
    (hOffset : offset = Text.size (front ++ pending)) :
    Text.size front + Text.size (pending ++ b.indent) = offset + b.targetStart ∧
      b.Front (offset + b.targetStart) target gap := by
  have hstart : Text.size front + Text.size (pending ++ b.indent) = offset + b.targetStart := by
    simp only [hOffset, Binding.targetStart, Text.size_append]
    omega
  exact ⟨hstart, hstart ▸ h.front⟩

/-- In plain code the blanks keep their tokens, and what stands for the target and the arrow is told
apart from what follows. -/
theorem Cut.lexemes_plain {front pending : Text} {b : Binding} {blanks target gap : List Token}
    (h : Cut front pending b blanks target gap) (rest : Text) :
    lexemes (pending ++ b.indent ++ (b.plainCode ++ (b.lead ++ rest))) =
      visible blanks ++ ((if b.target.isSome then [(.name, "const".toList)] else []) ++
        visible target ++ b.arrowLexemes) ++ lexemes (b.lead ++ rest) := by
  obtain ⟨y, v, hplain, hy⟩ := h.shaped.exists_plain_visible
  have hblanks := (h.blanks y (v ++ (b.lead ++ rest)) hy).lexemes_eq
  rw [← List.cons_append, ← hplain, h.front.plain rest] at hblanks
  rw [hblanks]
  simp only [List.append_assoc]

/-- The tokens before the binding and behind its arrow start at none of its places. -/
theorem Cut.substitute_eq {front pending : Text} {b : Binding} {blanks target gap : List Token}
    (h : Cut front pending b blanks target gap) {l : Line} {ls : List Line}
    (hBinding : l.binding = some b) (hTarget : ∀ target, b.target = some target → target ≠ [])
    (hOffset : l.offset = Text.size (front ++ pending))
    (hLater : ∀ m ∈ ls, l.offset + b.arrowStart < m.offset) (t : Text) :
    substitute (l :: ls) (blanks ++ (target ++ gap ++
        [b.arrowToken (Text.size front + Text.size (pending ++ b.indent))]) ++
          ofTextAt (l.offset + b.arrowStop) t) =
      visible blanks ++ ((if b.target.isSome then [(.name, "const".toList)] else []) ++
        visible target ++ b.arrowLexemes) ++
          substitute ls (ofTextAt (l.offset + b.arrowStop) t) := by
  obtain ⟨hstart, hfront⟩ := h.front_line hOffset
  have horder := b.arrowStart_bounds
  have hblanks : substitute (l :: ls) blanks = visible blanks := by
    apply substitute_eq_visible
    intro t ht m hm
    have hbound := ((h.blanks 'y' [] rfl).start_bounds t ht).2
    rw [hstart] at hbound
    rcases List.mem_cons.1 hm with rfl | hm
    · exact Line.substitute?_eq_none hBinding (by omega) (by omega)
    · have := hLater m hm
      exact Line.substitute?_of_lt (by omega)
  have hbehind : substitute (l :: ls) (ofTextAt (l.offset + b.arrowStop) t) =
      substitute ls (ofTextAt (l.offset + b.arrowStop) t) := by
    apply substitute_skip
    intro t ht
    have hbound := (ofTextAt_within ht).1
    exact Line.substitute?_eq_none hBinding (by omega) (by omega)
  rw [hstart, substitute_append, substitute_append, hblanks, hbehind,
    substitute_front hBinding hTarget hfront hLater]

end Content

end BindBlocks
