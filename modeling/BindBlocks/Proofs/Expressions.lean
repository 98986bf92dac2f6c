import BindBlocks.Proofs.PlainRows

/-! The expressions of bindings. Behind the arrow of a line stands an expression, with blanks around
it and perhaps a semicolon at its end; `strip` takes these away. But a line is read as a binding as
soon as any character follows its arrow. If these are blanks with at most one semicolon among them,
there is no expression, and one of the characters is taken for it. -/

namespace BindBlocks

namespace Text

theorem dropWhile_append_stop {p : Char → Bool} {z rest : Text} (hz : ∀ c ∈ z, p c = true)
    (hRest : ∀ d u, rest = d :: u → p d = false) : (z ++ rest).dropWhile p = rest := by
  rw [List.dropWhile_append_of_pos hz]
  cases rest with
  | nil => rfl
  | cons d u => exact List.dropWhile_cons_of_neg (by simp [hRest d u rfl])

section Trimming

variable (p : Char → Bool)

theorem filter_dropWhile (t : Text) : (t.dropWhile p).filter (!p ·) = t.filter (!p ·) := by
  have hfront : (t.takeWhile p).filter (!p ·) = [] := by
    rw [List.filter_eq_nil_iff]
    intro c hc
    simp [List.mem_takeWhile_imp hc]
  have hsplit := congrArg (List.filter (!p ·)) (List.takeWhile_append_dropWhile (p := p) (l := t))
  rwa [List.filter_append, hfront, List.nil_append] at hsplit

theorem filter_trimEnd (t : Text) : (trimEnd p t).filter (!p ·) = t.filter (!p ·) := by
  induction t with
  | nil => rfl
  | cons c t ih =>
    rw [trimEnd]
    split
    · rename_i hrest
      rw [hrest] at ih
      rw [List.filter_cons, ← ih]
      cases hc : p c <;> simp [hc]
    · rw [List.filter_cons, List.filter_cons, ih]

theorem trimEnd_eq_nil_iff {t : Text} : trimEnd p t = [] ↔ t.filter (!p ·) = [] := by
  constructor
  · intro h
    rw [← filter_trimEnd, h]
    rfl
  · intro h
    refine trimEnd_append (fun c hc => ?_) []
    simpa using List.filter_eq_nil_iff.1 h c hc

theorem trimEnd_isPrefix (t : Text) : trimEnd p t <+: t := by
  obtain ⟨back, hback⟩ := exists_append_trimEnd p t
  exact ⟨back, hback.symm⟩

end Trimming

/-- A text without the blanks at its ends, and without one semicolon at its end and the blanks in
front of that. -/
def strip (t : Text) : Text :=
  let inner := trimEnd isGap (t.dropWhile isGap)
  if inner.getLast? = some ';' then trimEnd isGap inner.dropLast else inner

/-- Besides blanks there is at most one semicolon. -/
def Vacant (t : Text) : Prop := t.filter (!isGap ·) = [] ∨ t.filter (!isGap ·) = [';']

instance (t : Text) : Decidable (Vacant t) := inferInstanceAs (Decidable (_ ∨ _))

theorem strip_eq_nil_iff {t : Text} : strip t = [] ↔ Vacant t := by
  have hvisible : (trimEnd isGap (t.dropWhile isGap)).filter (!isGap ·) = t.filter (!isGap ·) := by
    rw [filter_trimEnd, filter_dropWhile]
  rw [Vacant, ← hvisible, strip]
  rcases List.eq_nil_or_concat (trimEnd isGap (t.dropWhile isGap)) with hnil | ⟨u, d, hconcat⟩
  · simp [hnil]
  · rw [List.concat_eq_append] at hconcat
    have hd := trimEnd_concat hconcat
    simp only [hconcat, List.getLast?_concat, List.dropLast_concat, List.filter_append,
      Option.some.injEq]
    by_cases hsemicolon : d = ';'
    · rw [if_pos hsemicolon, trimEnd_eq_nil_iff]
      simp [hsemicolon, isGap]
    · have hlast : u.filter (!isGap ·) ++ [d] ≠ [';'] := fun heq =>
        hsemicolon (List.cons.inj (List.append_inj' (heq.trans (List.nil_append _).symm) rfl).2).1
      rw [if_neg hsemicolon]
      simp [hd, hlast]

theorem strip_isPrefix (t : Text) : strip t <+: t.dropWhile isGap := by
  have hinner := trimEnd_isPrefix isGap (t.dropWhile isGap)
  rw [strip]
  split
  · exact ((trimEnd_isPrefix isGap _).trans (List.dropLast_prefix _)).trans hinner
  · exact hinner

/-- What is left starts with no blank. -/
theorem strip_cons {t u : Text} {c : Char} (h : strip t = c :: u) : isGap c = false := by
  obtain ⟨back, hback⟩ := strip_isPrefix t
  have hhead := List.head?_dropWhile_not isGap t
  rw [← hback, h] at hhead
  exact hhead

/-- What is left ends with no blank. -/
theorem strip_concat {t u : Text} {c : Char} (h : strip t = u ++ [c]) : isGap c = false := by
  rw [strip] at h
  split at h
  · exact trimEnd_concat h
  · exact trimEnd_concat h

end Text

namespace Binding

open Token

/-- What stands behind the arrow. -/
def behind (b : Binding) : Text := b.lead ++ b.expression ++ b.tail

/-- There is something behind the arrow besides blanks and a semicolon, and the expression neither
starts nor ends with a blank. -/
structure HasExpression (b : Binding) : Prop where
  filled : Text.strip b.behind ≠ []
  first : ∀ c u, b.expression = c :: u → Text.isGap c = false
  last : ∀ u c, b.expression = u ++ [c] → Text.isGap c = false

theorem withoutTail_dropWhile (t : Text) : withoutTail (t.dropWhile Text.isGap) = Text.strip t := by
  rw [withoutTail, Text.strip]
  rcases List.eq_nil_or_concat (Text.trimEnd Text.isGap (t.dropWhile Text.isGap)) with
    hnil | ⟨u, d, hconcat⟩
  · simp [hnil]
  · rw [List.concat_eq_append] at hconcat
    simp only [hconcat, List.reverse_append, List.reverse_singleton, List.singleton_append,
      List.getLast?_concat, List.dropLast_concat, Option.some.injEq]
    split
    · rename_i rest hsplit
      obtain ⟨hd, rfl⟩ := List.cons.inj hsplit
      rw [if_pos hd, List.reverse_reverse]
    · rename_i hother
      rw [if_neg fun hd => hother u.reverse (by rw [hd])]

theorem expression_of_afterArrow? {t lead expression tail : Text}
    (h : afterArrow? t = some (lead, expression, tail)) :
    (¬ Text.Vacant t → expression = Text.strip t) ∧
      (Text.Vacant t → ∃ c, expression = [c] ∧ (Text.isGap c = true ∨ c = ';')) := by
  unfold afterArrow? at h
  split at h
  · rename_i hdrop
    have hvacant : Text.Vacant t := .inl (by rw [← Text.filter_dropWhile, hdrop]; rfl)
    refine ⟨fun hnot => absurd hvacant hnot, fun _ => ?_⟩
    split at h
    · exact absurd h (by simp)
    · rename_i c hlast
      simp only [Option.some.injEq, Prod.mk.injEq] at h
      exact ⟨c, h.2.1.symm, .inl (List.dropWhile_eq_nil_iff.1 hdrop c (List.mem_of_getLast? hlast))⟩
  · rename_i c rest hdrop
    have hc : Text.isGap c = false := by
      have hhead := List.head?_dropWhile_not Text.isGap t
      rwa [hdrop] at hhead
    simp only [← hdrop, withoutTail_dropWhile, Option.some.injEq, Prod.mk.injEq] at h
    obtain ⟨-, rfl, -⟩ := h
    refine ⟨fun hfilled => ?_, fun hvacant => ⟨c, ?_, .inr ?_⟩⟩
    · have hpos := List.length_pos_of_ne_nil (mt Text.strip_eq_nil_iff.1 hfilled)
      rw [Nat.max_eq_right hpos]
      exact (List.prefix_iff_eq_take.1 (Text.strip_isPrefix t)).symm
    · rw [Text.strip_eq_nil_iff.2 hvacant, hdrop]
      rfl
    · have hmem : c ∈ t.filter (!Text.isGap ·) := by
        rw [← Text.filter_dropWhile, hdrop]
        simp [hc]
      rcases hvacant with hnil | hsemicolon
      · simp [hnil] at hmem
      · simpa [hsemicolon] using hmem

/-- A binding has an expression unless what stands behind its arrow is vacant. -/
theorem hasExpression_iff {line : Text} {b : Binding} (h : parse? line = some b) :
    (b.HasExpression ↔ ¬ Text.Vacant b.behind) ∧
      (¬ Text.Vacant b.behind → b.expression = Text.strip b.behind) ∧
      (Text.Vacant b.behind → ∃ c, b.expression = [c] ∧ (Text.isGap c = true ∨ c = ';')) := by
  obtain ⟨t, hafter⟩ := exists_afterArrow?_of_parse? h
  obtain rfl : t = b.behind := afterArrow?_append hafter
  obtain ⟨hstripped, hvacant⟩ := expression_of_afterArrow? hafter
  refine ⟨⟨fun hexpression => mt Text.strip_eq_nil_iff.2 hexpression.filled, fun hfilled => ?_⟩,
    hstripped, hvacant⟩
  have hstrip := hstripped hfilled
  exact ⟨mt Text.strip_eq_nil_iff.1 hfilled, fun c u hsplit => Text.strip_cons (hstrip ▸ hsplit),
    fun u c hsplit => Text.strip_concat (hstrip ▸ hsplit)⟩

section Reading

theorem exists_afterArrow? {t : Text} (h : t ≠ []) : ∃ parts, afterArrow? t = some parts := by
  unfold afterArrow?
  split
  · rw [List.getLast?_eq_some_getLast h]
    exact ⟨_, rfl⟩
  · exact ⟨_, rfl⟩

theorem pattern?_names {close : Char} {names : Text} (hClose : isPatternPart close = false)
    (hNames : ∀ x ∈ names, isPatternPart x = true) (rest : Text) :
    pattern? close (names ++ close :: rest) = some (names ++ [close], rest) := by
  have hstop : ∀ d u, close :: rest = d :: u → isPatternPart d = false := by
    intro d u hsplit
    rw [← (List.cons.inj hsplit).1, hClose]
  rw [pattern?, Text.dropWhile_append_stop hNames hstop, Text.takeWhile_append_stop hNames hstop]
  simp

/-- A target is read up to where no part of a name follows. -/
theorem IsTarget.target?_append {target rest : Text} (h : IsTarget target)
    (hRest : ∀ d u, rest = d :: u → isNamePart d = false) :
    target? (target ++ rest) = some (target, rest) := by
  cases h with
  | name hc hr =>
    rw [List.cons_append, target?, if_pos hc, Text.takeWhile_append_stop hr hRest,
      Text.dropWhile_append_stop hr hRest]
  | @pattern left right names hpair hnames =>
    simp only [List.mem_cons, Prod.mk.injEq, List.not_mem_nil, or_false] at hpair
    have hclose : isPatternPart right = false := by
      rcases hpair with ⟨-, rfl⟩ | ⟨-, rfl⟩ <;> decide
    have hread := pattern?_names hclose hnames rest
    rw [List.cons_append, List.append_assoc, List.singleton_append, target?]
    rcases hpair with ⟨rfl, rfl⟩ | ⟨rfl, rfl⟩
    · rw [if_neg (by decide), if_pos rfl, hread]
      rfl
    · rw [if_neg (by decide), if_neg (by decide), if_pos rfl, hread]
      rfl

/-- The blanks in front of a binding end where its code starts. -/
theorem Shaped.not_isGap {b : Binding} (h : b.Shaped) :
    ∀ d u, b.code ++ b.behind = d :: u → Text.isGap d = false := by
  obtain ⟨x, v, hcode, hx⟩ := h.exists_visible
  intro d u hsplit
  rw [hcode] at hsplit
  rw [← (List.cons.inj hsplit).1, Bool.eq_false_iff]
  intro hgap
  rw [Text.isWhiteSpace_of_isGap hgap] at hx
  exact absurd hx (by decide)

theorem toText_eq_behind (b : Binding) : b.toText = b.indent ++ (b.code ++ b.behind) := by
  rw [toText_eq_code, behind, List.append_assoc b.lead]

theorem Shaped.takeWhile_toText {b : Binding} (h : b.Shaped) :
    b.toText.takeWhile Text.isGap = b.indent := by
  rw [toText_eq_behind]
  exact Text.takeWhile_append_stop h.indent h.not_isGap

/-- A line with the parts of a binding is read as one if any character follows the arrow. -/
theorem Shaped.exists_parse? {b : Binding} (h : b.Shaped) (hBehind : b.behind ≠ []) :
    ∃ b', parse? b.toText = some b' := by
  obtain ⟨parts, hafter⟩ := exists_afterArrow? hBehind
  have hdrop : b.toText.dropWhile Text.isGap = b.code ++ b.behind := by
    rw [toText_eq_behind]
    exact Text.dropWhile_append_stop h.indent h.not_isGap
  unfold parse?
  simp only [hdrop]
  cases htarget : b.target with
  | none =>
    have hread : b.code ++ b.behind = '<' :: '-' :: b.behind := by
      simp [code, htarget, h.noGap htarget, arrow]
    have hnone : target? ('<' :: '-' :: b.behind) = none := rfl
    simp only [hread, hnone, hafter]
    exact ⟨_, rfl⟩
  | some target =>
    have hstop : ∀ d u, arrow ++ b.behind = d :: u → d = '<' := fun d u hsplit =>
      (List.cons.inj hsplit).1.symm
    have hread : target? (b.code ++ b.behind) = some (target, b.gap ++ (arrow ++ b.behind)) := by
      rw [code, htarget, Option.getD_some, List.append_assoc, List.append_assoc]
      apply (h.target target htarget).target?_append
      apply h.behind_target
      intro _ d u hsplit
      rw [hstop d u hsplit]
      decide
    have hgap : (b.gap ++ (arrow ++ b.behind)).dropWhile Text.isGap = '<' :: '-' :: b.behind := by
      apply Text.dropWhile_append_stop h.gap
      intro d u hsplit
      rw [hstop d u hsplit]
      decide
    simp only [hread, hgap, hafter]
    exact ⟨_, rfl⟩

/-- A line is a binding if it has the parts of one and any character follows the arrow. -/
theorem exists_parse?_iff {line : Text} {indent : Text} :
    (∃ b, parse? line = some b ∧ b.indent = indent) ↔
      ∃ b : Binding, b.Shaped ∧ b.toText = line ∧ b.behind ≠ [] ∧ b.indent = indent := by
  constructor
  · rintro ⟨b, hparse, rfl⟩
    refine ⟨b, shaped_of_parse? hparse, (toText_of_parse? hparse).1, fun hnil => ?_, rfl⟩
    exact expression_ne_nil hparse (List.append_eq_nil_iff.1 (List.append_eq_nil_iff.1 hnil).1).2
  · rintro ⟨b, hshaped, rfl, hbehind, rfl⟩
    obtain ⟨b', hparse⟩ := hshaped.exists_parse? hbehind
    refine ⟨b', hparse, ?_⟩
    rw [← hshaped.takeWhile_toText, ← (toText_of_parse? hparse).1]
    exact (shaped_of_parse? hparse).takeWhile_toText.symm

end Reading

end Binding

namespace Content

open Binding

/-- An edit stands on the row. -/
def Rewritten (content : Text) (row : Nat × Text) : Prop :=
  ∃ e ∈ edits content, row.1 ≤ e.start ∧ e.start ≤ row.1 + Text.size row.2

theorem rewritten_iff {content : Text} (hFits : Text.size content < Offset.bound)
    {row : Nat × Text} (hRow : row ∈ Text.rows content) :
    Rewritten content row ↔
      ∃ b, parse? (lineBody row.2) = some b ∧ OpenAt content (row.1 + b.targetStart) := by
  constructor
  · rintro ⟨e, he, hon⟩
    obtain ⟨other, hother, b, hbinding, he⟩ := mem_edits_iff.1 he
    obtain ⟨hlow, hhigh⟩ := edit_on_row hFits hother hbinding he
    obtain rfl := Text.eq_of_mem_rows hRow hother hon ⟨by omega, hhigh⟩
    exact ⟨b, (openLine_binding_iff hFits).1 hbinding⟩
  · rintro ⟨b, hb⟩
    have hbinding := (openLine_binding_iff hFits).2 hb
    have he : Edit.replace ⟨row.1 + b.arrowStart, row.1 + b.arrowStop⟩ b.arrowText ∈
        b.edits row.1 := (mem_edits_row hFits hRow hbinding).2 (.inr rfl)
    obtain ⟨hlow, hhigh⟩ := edit_on_row hFits hRow hbinding he
    exact ⟨_, mem_edits_iff.2 ⟨row, hRow, b, hbinding, he⟩, by omega, hhigh⟩

/-- A row is rewritten if it has the parts of an open binding and any character follows the arrow.
If nothing but blanks and a semicolon do, it has no expression, and one of them is taken for it. -/
theorem rewritten_expression_iff (content : Text) (row : Nat × Text)
    (hFits : Text.size content < Offset.bound) (hRow : row ∈ Text.rows content) :
    (Rewritten content row ↔ ∃ b : Binding, b.Shaped ∧ b.toText = lineBody row.2 ∧ b.behind ≠ [] ∧
        OpenAt content (row.1 + b.targetStart)) ∧
      (Rewritten content row → ∃ b, parse? (lineBody row.2) = some b ∧
        (b.HasExpression ↔ ¬ Text.Vacant b.behind) ∧
        (¬ Text.Vacant b.behind → b.expression = Text.strip b.behind) ∧
        (Text.Vacant b.behind → ∃ c, b.expression = [c] ∧ (Text.isGap c = true ∨ c = ';'))) := by
  refine ⟨(rewritten_iff hFits hRow).trans ⟨?_, ?_⟩, fun hrewritten => ?_⟩
  · rintro ⟨b, hparse, hopen⟩
    obtain ⟨b', hshaped, htext, hbehind, hindent⟩ := exists_parse?_iff.1 ⟨b, hparse, rfl⟩
    exact ⟨b', hshaped, htext, hbehind, by rwa [targetStart, hindent]⟩
  · rintro ⟨b, hshaped, htext, hbehind, hopen⟩
    obtain ⟨b', hparse, hindent⟩ := exists_parse?_iff.2 ⟨b, hshaped, htext, hbehind, rfl⟩
    exact ⟨b', hparse, by rwa [targetStart, hindent]⟩
  · obtain ⟨b, hparse, -⟩ := (rewritten_iff hFits hRow).1 hrewritten
    exact ⟨b, hparse, hasExpression_iff hparse⟩

/-- A semicolon on its own is taken for the expression. -/
theorem rewritten_expression_iff_semicolon :
    Rewritten "x <- ;".toList (0, "x <- ;".toList) ∧
      ∃ b, parse? "x <- ;".toList = some b ∧ b.expression = [';'] ∧ ¬ b.HasExpression := by
  have hparse : parse? "x <- ;".toList = some ⟨[], some ['x'], [' '], [' '], [';'], []⟩ := by
    decide +kernel
  have hedits : edits "x <- ;".toList =
      [.insertLeft 0 "const ".toList, .replace ⟨2, 4⟩ "= yield*".toList] := by decide +kernel
  have hrewritten : Rewritten "x <- ;".toList (0, "x <- ;".toList) := by
    refine ⟨.insertLeft 0 "const ".toList, ?_, by decide, by decide⟩
    rw [hedits]
    exact List.mem_cons_self
  obtain ⟨b, hb, hexpression, -⟩ := (rewritten_expression_iff "x <- ;".toList
    (0, "x <- ;".toList) (by decide) (by decide +kernel)).2 hrewritten
  obtain rfl := Option.some.inj (hparse.symm.trans hb)
  exact ⟨hrewritten, _, hparse, rfl, fun h => hexpression.1 h (by decide)⟩

end Content

end BindBlocks
