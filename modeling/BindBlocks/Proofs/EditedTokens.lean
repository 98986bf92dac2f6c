import BindBlocks.Proofs.OpenCode
import BindBlocks.Proofs.TokenEnds

/-! The tokens that the edits of a content touch. A binding is found by the characters of its line,
and tokens come in only where it is asked whether the line starts in code. Still every edit is
placed by tokens: the arrow that is replaced is one token, a target is declared at the first token
of its line that is not trivia, and no edit reaches into a token whose inside is no code. -/

namespace BindBlocks

namespace Token

/-- Of two tokens, one is over where the other one starts. -/
theorem apart_of_mem {t : Text} {token other : Token} (h : token ∈ ofTextAt 0 t)
    (hOther : other ∈ ofTextAt 0 t) :
    token = other ∨ token.span.stop ≤ other.span.start ∨ other.span.stop ≤ token.span.start := by
  have happart := (ofTextAt_tiled 0 t).1.apart
  have hall : ∀ ⦃a⦄, a ∈ ofTextAt 0 t → ∀ ⦃b⦄, b ∈ ofTextAt 0 t →
      a = b ∨ a.span.stop ≤ b.span.start ∨ b.span.stop ≤ a.span.start :=
    List.Pairwise.forall_of_forall_of_flip (fun _ _ => .inl rfl)
      (happart.imp fun hlater => .inr (.inl hlater.2))
      (happart.imp fun hlater => .inr (.inr hlater.2))
  exact hall h hOther

theorem markLexeme_leftArrow {c : Char} {t : Text} :
    (markLexeme c t).1 = .leftArrow → c :: t.take (markLexeme c t).2 = ['<', '-'] := by
  fun_cases markLexeme c t <;> simp

theorem lexeme_leftArrow {c : Char} {t : Text} :
    (lexeme c t).1 = .leftArrow → c :: t.take (lexeme c t).2 = ['<', '-'] := by
  fun_cases lexeme c t with
  | case3 _ _ _ rest =>
    intro h
    rcases nameKind_cases (c :: rest) with hkind | hkind | hkind <;>
      exact absurd (hkind.symm.trans h) (by decide)
  | case7 => exact markLexeme_leftArrow
  | case1 | case2 | case4 | case5 | case6 => exact fun h => absurd h (by simp)

theorem text_of_leftArrow {t : Text} {token : Token} (h : token ∈ ofTextAt 0 t)
    (hKind : token.kind = .leftArrow) : token.text = ['<', '-'] := by
  obtain ⟨front, c, rest, -, rfl⟩ := eq_first_of_mem h
  exact lexeme_leftArrow hKind

/-- A token of code that ends with a blank is trivia. -/
theorem isTrivia_of_isBlank {t u : Text} {token : Token} {d : Char} (h : token ∈ ofTextAt 0 t)
    (hCode : token.kind.isVerbatim = false) (hText : token.text = u ++ [d])
    (hd : Text.isBlank d = true) : token.kind.isTrivia = true := by
  have hlast : d ∈ token.text := by simp [hText]
  have hall : ∀ x ∈ token.text, Text.isBlank x = true := fun x hx =>
    isBlank_of_mem_text h hCode hlast hd hx
  obtain ⟨front, c, rest, -, rfl⟩ := eq_first_of_mem h
  have hc : Text.isBlank c = true := hall c List.mem_cons_self
  rcases Bool.or_eq_true_iff.1 hc with hgap | hend
  · simp [first, lexeme, hgap, Kind.isTrivia]
  · by_cases hgap : Text.isGap c = true
    · simp [first, lexeme, hgap, Kind.isTrivia]
    · simp [first, lexeme, hgap, hend, Kind.isTrivia]

/-- A token that ends with a blank before the end of the text is trivia. -/
theorem isTrivia_of_last {t u : Text} {token : Token} {d : Char} (h : token ∈ ofTextAt 0 t)
    (hNext : token.span.stop < Text.size t) (hText : token.text = u ++ [d])
    (hd : Text.isBlank d = true) : token.kind.isTrivia = true := by
  cases hkind : token.kind with
  | string | template =>
    obtain ⟨front, c, z, x, v, -, htext, -, hlexeme⟩ := exists_next h hNext
    obtain ⟨w, q, hquote, hq⟩ := last_of_quoted (congrArg Prod.snd hlexeme)
      (by rw [hlexeme, hkind]; simp)
    obtain ⟨-, hsame⟩ := List.append_inj' (hText.symm.trans (htext.trans hquote)) rfl
    obtain rfl : d = q := (List.cons.inj hsame).1
    rcases hq with rfl | rfl | rfl <;> exact absurd hd (by decide)
  | gap | lineEnd | lineComment | blockComment => rfl
  | _ => rw [← hkind]; exact isTrivia_of_isBlank h (by rw [hkind]; rfl) hText hd

end Token

namespace Content

open Token

/-- A token that is not trivia starts at the offset, and on the same line only trivia stands in
front of it. -/
def LeadsLine (content : Text) (offset : Nat) : Prop :=
  (∃ t ∈ ofText content, t.kind.isTrivia = false ∧ t.span.start = offset) ∧
    ∀ t ∈ ofText content, t.span.start < offset →
      (LineTable.ofText content).startAt offset < t.span.stop → t.kind.isTrivia = true

/-- How an edit of a content stands to its tokens. Its ends have 32 bits and lie between characters,
so that a draft takes it as it is. -/
structure OnCode (content : Text) (e : Edit) : Prop where
  fits : e.start ≤ e.stop ∧ e.stop ≤ Text.size content ∧ e.stop < Offset.bound
  start : content.isBoundary e.start = true
  stop : content.isBoundary e.stop = true
  pushed : ∀ d : Draft, d.source = content → d.push e = ⟨content, d.edits ++ [e]⟩
  arrow : e.isReplace = true →
    ∃ t ∈ ofText content, t.kind = .leftArrow ∧ t.span = ⟨e.start, e.stop⟩
  leads : e.isReplace = false → LeadsLine content e.start
  code : ∀ t ∈ ofText content, t.kind.isVerbatim = true →
    e.stop ≤ t.span.start ∨ t.span.stop ≤ e.start

/-- A token in front of the target of an open binding that reaches into its line is trivia. -/
theorem isTrivia_of_indent {content : Text} {row : Nat × Text} {b : Binding}
    (hRow : row ∈ Text.rows content) (hBinding : (openLine content row).binding = some b)
    {t target : Token} (ht : t ∈ ofTextAt 0 content) (hTarget : target ∈ ofTextAt 0 content)
    (hFirst : target.span.start = row.1 + b.targetStart)
    (hBefore : t.span.start < row.1 + b.targetStart) (hInto : row.1 < t.span.stop) :
    t.kind.isTrivia = true := by
  obtain ⟨front, back, hcontent, hoffset⟩ := Text.exists_split_of_mem_rowsFrom hRow
  obtain ⟨rest, hline, -⟩ := Line.exists_rest hBinding (openLine_read content row)
  have hshaped := Binding.shaped_of_parse? (openLine_binding.1 hBinding).1
  obtain ⟨before, u, d, behind, hplace, htext, hspan⟩ := exists_place ht
  have hfilled := start_lt_stop hTarget
  have hover : t.span.stop ≤ row.1 + b.targetStart := by
    rcases apart_of_mem ht hTarget with rfl | hlow | hhigh <;> omega
  have hwhole : before ++ u ++ [d] ++ behind =
      front ++ b.indent ++ (b.code ++ (b.lead ++ rest) ++ back) := by
    rw [← hplace, hcontent, show row.2 = _ from hline]
    simp only [List.append_assoc]
  have hfront : Text.size (front ++ b.indent) = row.1 + b.targetStart := by
    rw [Text.size_append, hoffset, Nat.zero_add]
    rfl
  have hd : d ∈ b.indent := by
    rw [hspan] at hover hInto
    simp only at hover hInto
    obtain ⟨k, hk, -⟩ := Text.exists_middle hwhole (hfront ▸ hover)
    obtain ⟨l, hl, hindent⟩ := Text.exists_middle hk (by omega)
    rw [hindent]
    exact List.mem_append_left k (Text.mem_of_last hl (by omega))
  have hnext : t.span.stop < Text.size content := by
    have := (ofTextAt_within hTarget).2.2
    omega
  exact isTrivia_of_last ht hnext htext (Binding.isBlank_of_isGap (hshaped.indent d hd))

section Bindings

variable {content : Text} {row : Nat × Text} {b : Binding}
  (hFits : Text.size content < Offset.bound) (hRow : row ∈ Text.rows content)
  (hBinding : (openLine content row).binding = some b)
include hFits hRow hBinding

/-- The arrow of an open binding is one token. -/
theorem exists_arrow :
    ∃ t ∈ ofTextAt 0 content, t.kind = .leftArrow ∧
      t.span = ⟨row.1 + b.arrowStart, row.1 + b.arrowStop⟩ := by
  obtain ⟨⟨t, ht, hkind, hstart⟩, -⟩ := openLine_marked hFits hRow b hBinding
  obtain ⟨front, u, d, back, -, htext, hspan⟩ := exists_place ht
  rw [text_of_leftArrow ht hkind] at htext
  have hfront : Text.size front = row.1 + b.arrowStart :=
    (congrArg Span.start hspan).symm.trans hstart
  refine ⟨t, ht, hkind, ?_⟩
  rw [hspan, List.append_assoc, Text.size_append, ← htext, hfront, Nat.add_assoc]
  rfl

/-- The target of an open binding leads its line. -/
theorem leadsLine_target (hSome : b.target.isSome = true) :
    LeadsLine content (row.1 + b.targetStart) := by
  obtain ⟨-, htarget⟩ := openLine_marked hFits hRow b hBinding
  obtain ⟨target, hmem, hkind, -, hstart⟩ := htarget hSome
  have hinsert : Edit.insertLeft (row.1 + b.targetStart) Binding.declaration ∈ b.edits row.1 :=
    (mem_edits_row hFits hRow hBinding).2 (.inl ⟨hSome, rfl⟩)
  have hline : (LineTable.ofText content).startAt (row.1 + b.targetStart) = row.1 :=
    Text.startAt_of_mem_rows hRow (Nat.le_add_right _ _)
      (edit_on_row hFits hRow hBinding hinsert).2
  rw [LeadsLine, ofText_eq hFits]
  refine ⟨⟨target, hmem, hkind, hstart⟩, fun t ht hbefore hinto => ?_⟩
  rw [hline] at hinto
  exact isTrivia_of_indent hRow hBinding ht hmem hstart hbefore hinto

/-- Each edit starts with a token of code and does not go beyond it. -/
theorem exists_token_of_edit {e : Edit} (he : e ∈ b.edits row.1) :
    ∃ t ∈ ofTextAt 0 content, t.kind.isVerbatim = false ∧ t.span.start = e.start ∧
      e.stop ≤ t.span.stop := by
  rcases (mem_edits_row hFits hRow hBinding).1 he with ⟨hsome, rfl⟩ | rfl
  · obtain ⟨-, htarget⟩ := openLine_marked hFits hRow b hBinding
    obtain ⟨t, ht, -, hcode, hstart⟩ := htarget hsome
    have hfilled := start_lt_stop ht
    exact ⟨t, ht, hcode, hstart, hstart ▸ Nat.le_of_lt hfilled⟩
  · obtain ⟨t, ht, hkind, hspan⟩ := exists_arrow hFits hRow hBinding
    exact ⟨t, ht, by rw [hkind]; rfl, by rw [hspan]; rfl, by rw [hspan]; exact Nat.le_refl _⟩

end Bindings

theorem onCode_of_mem {content : Text} (hFits : Text.size content < Offset.bound) {e : Edit}
    (he : e ∈ edits content) : OnCode content e := by
  have hwoven := (edits_spaced hFits).1.woven
  have hfair := hwoven.inOrder.fair e he
  obtain ⟨⟨front, back, hfront, hstart⟩, ⟨front', back', hfront', hstop⟩⟩ := hwoven.ends e he
  rw [Nat.zero_add] at hstart hstop
  obtain ⟨row, hrow, b, hbinding, hmem⟩ := mem_edits_iff.1 he
  constructor
  case fits =>
    have hsize : e.stop ≤ Text.size content := by
      rw [hstop, hfront', Text.size_append]
      exact Nat.le_add_right _ _
    exact ⟨hfair.start_le_stop, hsize, Nat.lt_of_le_of_lt hsize hFits⟩
  case start => exact Text.isBoundary_iff.2 ⟨front, back, hfront, hstart.symm⟩
  case stop => exact Text.isBoundary_iff.2 ⟨front', back', hfront', hstop.symm⟩
  case pushed =>
    rintro d rfl
    rw [Draft.push, Draft.clamp_eq_self hfair ⟨front, back, hfront, hstart⟩
      ⟨front', back', hfront', hstop⟩]
  case arrow =>
    intro hreplace
    rcases (mem_edits_row hFits hrow hbinding).1 hmem with ⟨-, rfl⟩ | rfl
    · exact absurd hreplace (by simp [Edit.isReplace])
    · rw [ofText_eq hFits]
      exact exists_arrow hFits hrow hbinding
  case leads =>
    intro hinsert
    rcases (mem_edits_row hFits hrow hbinding).1 hmem with ⟨hsome, rfl⟩ | rfl
    · exact leadsLine_target hFits hrow hbinding hsome
    · exact absurd hinsert (by simp [Edit.isReplace])
  case code =>
    intro t ht hverbatim
    rw [ofText_eq hFits] at ht
    obtain ⟨token, htoken, hcode, hfirst, hlast⟩ := exists_token_of_edit hFits hrow hbinding hmem
    rcases apart_of_mem ht htoken with rfl | hlow | hhigh
    · rw [hverbatim] at hcode
      exact absurd hcode (by decide)
    · exact .inr (hfirst ▸ hlow)
    · exact .inl (Nat.le_trans hlast hhigh)

/-- The arrow of every open binding is replaced. -/
theorem exists_edit_of_open {content : Text} (hFits : Text.size content < Offset.bound)
    {row : Nat × Text} {b : Binding} (hRow : row ∈ Text.rows content)
    (hParse : Binding.parse? (lineBody row.2) = some b)
    (hOpen : OpenAt content (row.1 + b.targetStart)) :
    ∃ e ∈ edits content, e.isReplace = true ∧ e.start = row.1 + b.arrowStart := by
  have hbinding := (openLine_binding_iff hFits).2 ⟨hParse, hOpen⟩
  exact ⟨_, mem_edits_iff.2 ⟨row, hRow, b, hbinding,
    (mem_edits_row hFits hRow hbinding).2 (.inr rfl)⟩, rfl, rfl⟩

/-- The edits of a content go from left to right without touching each other, each of them is placed
by the tokens of the content, and no open binding goes without one. -/
theorem edits_on_code (content : Text) (hFits : Text.size content < Offset.bound) :
    (edits content).Pairwise (fun e f => e.start < f.start ∧ e.stop ≤ f.start) ∧
      (∀ e ∈ edits content, OnCode content e) ∧
      ∀ row ∈ Text.rows content, ∀ b, Binding.parse? (lineBody row.2) = some b →
        OpenAt content (row.1 + b.targetStart) →
        ∃ e ∈ edits content, e.isReplace = true ∧ e.start = row.1 + b.arrowStart := by
  have hspaced := (edits_spaced hFits).1
  refine ⟨hspaced.rising.and hspaced.woven.inOrder.apart, fun e he => onCode_of_mem hFits he, ?_⟩
  exact fun row hrow b hparse hopen => exists_edit_of_open hFits hrow hparse hopen

/-- Two bindings among a comment and a string with arrows in them. -/
theorem edits_on_code_between_literals :
    Text.size "x <- f() // <-\n'\\\n<- '\n\t[a] <- g".toList < Offset.bound ∧
      edits "x <- f() // <-\n'\\\n<- '\n\t[a] <- g".toList =
        [.insertLeft 0 "const ".toList, .replace ⟨2, 4⟩ "= yield*".toList,
          .insertLeft 24 "const ".toList, .replace ⟨28, 30⟩ "= yield*".toList] ∧
      ∀ e ∈ edits "x <- f() // <-\n'\\\n<- '\n\t[a] <- g".toList,
        OnCode "x <- f() // <-\n'\\\n<- '\n\t[a] <- g".toList e :=
  ⟨by decide, by decide +kernel,
    (edits_on_code "x <- f() // <-\n'\\\n<- '\n\t[a] <- g".toList (by decide)).2.1⟩

end Content

end BindBlocks
