import BindBlocks.Proofs.ContentTokens
import BindBlocks.Proofs.Rows

/-! Which rows of a content are made plain. The reader of the lines keeps a scope and the last token
as it goes on, but what it knows at an offset depends on the tokens that it passes on the way there
only, so whether a binding is open can be said of each row on its own. Where all offsets have 32
bits these are the tokens before the offset, and `OpenAt` says of an offset, without a reader,
whether it is open. The edits of a content are those of its open bindings row by row, so each row
gives its edits on its own, and the rows of its expansion are its own rows, each made plain on its
own. -/

namespace BindBlocks

namespace Text

theorem trimEnd_append {p : Char → Bool} {v : Text} (hv : ∀ c ∈ v, p c = true) (u : Text) :
    trimEnd p (u ++ v) = trimEnd p u := by
  induction u with
  | nil =>
    induction v with
    | nil => rfl
    | cons c v ih =>
      have hrest : trimEnd p v = [] := ih fun d hd => hv d (List.mem_cons_of_mem c hd)
      simp only [List.nil_append, trimEnd, hrest, hv c List.mem_cons_self, if_true]
  | cons c u ih => rw [List.cons_append, trimEnd, trimEnd, ih]

/-- A text without white space at its ends. -/
def trim (t : Text) : Text := trimEnd isWhiteSpace (t.dropWhile isWhiteSpace)

theorem trimEnd_cons_of_neg {p : Char → Bool} {c : Char} (hc : p c = false) (t : Text) :
    trimEnd p (c :: t) = c :: trimEnd p t := by
  rw [trimEnd]
  split
  · rename_i hnil
    rw [hnil, hc]
    rfl
  · rfl

end Text

namespace Token

/-- A token is over where a later one starts. -/
theorem Tiled.apart {offset : Nat} {ts : List Token} (h : Tiled offset ts) :
    ts.Pairwise fun t later => t.span.start ≤ t.span.stop ∧ t.span.stop ≤ later.span.start := by
  induction ts generalizing offset with
  | nil => exact .nil
  | cons t ts ih =>
    obtain ⟨hspan, hrest⟩ := h
    refine .cons (fun later hlater => ?_) (ih hrest)
    rw [hspan]
    exact ⟨Nat.le_add_right _ _, (hrest.within later hlater).1⟩

theorem ofText_apart {t : Text} (hFits : Text.size t < Offset.bound) :
    (ofText t).Pairwise fun token later =>
      token.span.start ≤ token.span.stop ∧ token.span.stop ≤ later.span.start := by
  rw [ofText_eq hFits]
  exact (ofTextAt_tiled 0 t).1.apart

/-- The tokens of a text up to the first one that does not start before an offset. -/
def passed (t : Text) (offset : Nat) : List Token := (ofText t).takeWhile (·.span.start < offset)

/-- The tokens of a text that start before an offset. -/
def before (t : Text) (offset : Nat) : List Token := (ofText t).filter (·.span.start < offset)

theorem mem_before {t : Text} {offset : Nat} {token : Token} :
    token ∈ before t offset ↔ token ∈ ofText t ∧ token.span.start < offset := by
  simp [before]

/-- They come first, if all offsets have 32 bits. -/
theorem passed_eq_before {t : Text} (hFits : Text.size t < Offset.bound) (offset : Nat) :
    passed t offset = before t offset := by
  have happart := ofText_apart hFits
  rw [passed, before]
  generalize ofText t = ts at happart ⊢
  induction ts with
  | nil => rfl
  | cons token ts ih =>
    obtain ⟨hfirst, hrest⟩ := List.pairwise_cons.1 happart
    by_cases hlt : token.span.start < offset
    · rw [List.takeWhile_cons_of_pos (by simpa using hlt),
        List.filter_cons_of_pos (by simpa using hlt), ih hrest]
    · rw [List.takeWhile_cons_of_neg (by simpa using hlt),
        List.filter_cons_of_neg (by simpa using hlt), List.filter_eq_nil_iff.2]
      intro later hlater
      have := hfirst later hlater
      simp only [decide_eq_true_eq]
      omega

end Token

namespace Content

open Token

/-- An offset of a content is open: it lies inside no token whose inside is no code, and the tokens
before it leave no function body open. -/
structure OpenAt (content : Text) (offset : Nat) : Prop where
  code : ∀ t ∈ before content offset, t.kind.isVerbatim = true → t.span.stop ≤ offset
  outside : (Scope.start.follow (before content offset)).inBody = false

instance (content : Text) (offset : Nat) : Decidable (OpenAt content offset) :=
  decidable_of_iff
    ((∀ t ∈ before content offset, t.kind.isVerbatim = true → t.span.stop ≤ offset) ∧
      (Scope.start.follow (before content offset)).inBody = false)
    ⟨fun h => ⟨h.1, h.2⟩, fun h => ⟨h.code, h.outside⟩⟩

/-- Of the tokens before an offset only the last one can run on behind it. -/
theorem openAt_iff {content : Text} (hFits : Text.size content < Offset.bound) (offset : Nat) :
    OpenAt content offset ↔
      ((before content offset).getLast?.any fun t => offset < t.span.stop && t.kind.isVerbatim) =
        false ∧
      (Scope.start.follow (before content offset)).inBody = false := by
  refine ⟨fun h => ⟨?_, h.outside⟩, fun h => ⟨?_, h.2⟩⟩
  · cases hlast : (before content offset).getLast? with
    | none => rfl
    | some t =>
      have hcode := h.code t (List.mem_of_getLast? hlast)
      cases hkind : t.kind.isVerbatim with
      | false => simp [hkind]
      | true =>
        have := hcode hkind
        simp only [Option.any_some, hkind, Bool.and_true, decide_eq_false_iff_not]
        omega
  · have happart : (before content offset).Pairwise fun t later =>
        t.span.start ≤ t.span.stop ∧ t.span.stop ≤ later.span.start :=
      (ofText_apart hFits).sublist List.filter_sublist
    rcases List.eq_nil_or_concat (before content offset) with hnil | ⟨init, last, hconcat⟩
    · simp [hnil]
    · rw [List.concat_eq_append] at hconcat
      have hmem : last ∈ before content offset := by simp [hconcat]
      have hlast := (mem_before.1 hmem).2
      rw [hconcat, List.pairwise_append] at happart
      intro t ht hkind
      rw [hconcat, List.mem_append, List.mem_singleton] at ht
      rcases ht with ht | rfl
      · have := happart.2.2 t ht last List.mem_cons_self
        omega
      · have hcode := h.1
        simp only [hconcat, List.getLast?_concat, Option.any_some, hkind, Bool.and_true,
          decide_eq_false_iff_not] at hcode
        omega

namespace Progress

/-- The scope and the last token of a reader are those of the tokens before the offset. -/
theorem following_eq (offset : Nat) (scope : Scope) (last : Option Token) (ts : List Token) :
    following offset scope last ts =
      ⟨scope.follow (ts.takeWhile (·.span.start < offset)),
        (ts.takeWhile (·.span.start < offset)).getLast?.or last,
        ts.dropWhile (·.span.start < offset)⟩ := by
  induction ts generalizing scope last with
  | nil => rfl
  | cons t ts ih =>
    rw [following]
    split
    · rename_i hlt
      rw [ih, List.takeWhile_cons_of_pos (by simpa using hlt),
        List.dropWhile_cons_of_pos (by simpa using hlt), List.getLast?_cons]
      cases (ts.takeWhile (·.span.start < offset)).getLast? <;> rfl
    · rename_i hge
      rw [List.takeWhile_cons_of_neg (by simpa using hge),
        List.dropWhile_cons_of_neg (by simpa using hge)]
      rfl

/-- On the way to an offset it makes no difference to stop at an earlier one. -/
theorem advance_advance {offset next : Nat} (hle : offset ≤ next) (p : Progress) :
    (p.advance offset).advance next = p.advance next := by
  obtain ⟨scope, last, ahead⟩ := p
  simp only [advance]
  induction ahead generalizing scope last with
  | nil => rfl
  | cons t ts ih =>
    rw [following, following]
    by_cases hlt : t.span.start < offset
    · rw [if_pos hlt, if_pos (Nat.lt_of_lt_of_le hlt hle), ih]
    · rw [if_neg hlt, following]

end Progress

/-- Whether a reader of the content who comes to an offset finds code outside function bodies. -/
def readsOpen (content : Text) (offset : Nat) : Bool :=
  ((Progress.start (ofText content)).advance offset).isOpen offset

/-- The reader looks at the last of the passed tokens and at the scope behind them. -/
theorem readsOpen_eq (content : Text) (offset : Nat) :
    readsOpen content offset =
      (!((passed content offset).getLast?.any fun t => offset < t.span.stop && t.kind.isVerbatim) &&
        !(Scope.start.follow (passed content offset)).inBody) := by
  simp only [readsOpen, Progress.advance, Progress.start, Progress.following_eq, Progress.isOpen,
    Option.or_none, passed]

/-- What a reader finds open is open, if all offsets have 32 bits. -/
theorem readsOpen_iff {content : Text} (hFits : Text.size content < Offset.bound) (offset : Nat) :
    readsOpen content offset = true ↔ OpenAt content offset := by
  rw [readsOpen_eq, passed_eq_before hFits, openAt_iff hFits, Bool.and_eq_true, Bool.not_eq_true',
    Bool.not_eq_true']

/-- A row of a content with its binding, if a reader finds that open. -/
def openLine (content : Text) (row : Nat × Text) : Line :=
  ⟨row.1, row.2, (Binding.parse? (lineBody row.2)).filter fun b =>
    readsOpen content (row.1 + b.targetStart)⟩

theorem openLine_binding {content : Text} {row : Nat × Text} {b : Binding} :
    (openLine content row).binding = some b ↔
      Binding.parse? (lineBody row.2) = some b ∧
        readsOpen content (row.1 + b.targetStart) = true := by
  rw [openLine, Option.filter_eq_some_iff]

theorem openLine_binding_iff {content : Text} (hFits : Text.size content < Offset.bound)
    {row : Nat × Text} {b : Binding} :
    (openLine content row).binding = some b ↔
      Binding.parse? (lineBody row.2) = some b ∧ OpenAt content (row.1 + b.targetStart) := by
  rw [openLine_binding, readsOpen_iff hFits]

theorem openLine_read (content : Text) (row : Nat × Text) : (openLine content row).Read :=
  fun _ hb => (openLine_binding.1 hb).1

/-- No binding starts with a slash. -/
theorem head?_code {b : Binding} (h : b.Shaped) : b.code.head? ≠ some '/' := by
  cases htarget : b.target with
  | none => simp [Binding.code, htarget, h.noGap htarget, Binding.arrow]
  | some target =>
    rw [Binding.code, htarget, Option.getD_some]
    cases h.target target htarget with
    | name hc =>
      rintro heq
      obtain rfl := Option.some.inj heq
      exact absurd hc (by decide)
    | pattern hpair =>
      simp only [List.mem_cons, Prod.mk.injEq, List.not_mem_nil, or_false] at hpair
      rcases hpair with ⟨rfl, -⟩ | ⟨rfl, -⟩ <;> simp

/-- Behind its indent a binding starts with a visible character, which is no slash. -/
theorem exists_visible_of_parse? {line : Text} {b : Binding} (h : Binding.parse? line = some b) :
    ∃ x v, line = b.indent ++ x :: v ∧ (∀ c ∈ b.indent, Text.isWhiteSpace c = true) ∧
      Text.isWhiteSpace x = false ∧ x ≠ '/' := by
  have hshaped := Binding.shaped_of_parse? h
  obtain ⟨x, v, hcode, hx⟩ := hshaped.exists_visible
  have hslash := head?_code hshaped
  rw [hcode, List.head?_cons, ne_eq, Option.some.injEq] at hslash
  refine ⟨x, v ++ (b.lead ++ (b.expression ++ b.tail)), ?_,
    fun c hc => Text.isWhiteSpace_of_isGap (hshaped.indent c hc), hx, hslash⟩
  rw [← (Binding.toText_of_parse? h).1, Binding.toText_eq_code, hcode, List.cons_append]

/-- An idle line holds no binding. -/
theorem parse?_of_isIdle {body : Text} (h : isIdle (body.dropWhile Text.isWhiteSpace) = true) :
    Binding.parse? body = none := by
  cases hparse : Binding.parse? body with
  | none => rfl
  | some b =>
    obtain ⟨x, v, hbody, hindent, hx, hslash⟩ := exists_visible_of_parse? hparse
    rw [hbody, List.dropWhile_append_of_pos hindent, List.dropWhile_cons_of_neg (by simp [hx])] at h
    unfold isIdle at h
    split at h
    · rename_i heq
      exact absurd heq (List.cons_ne_nil _ _)
    · rename_i heq
      exact absurd (List.cons.inj heq).1 hslash
    · exact absurd h (by decide)

/-- The lines of some texts, each with its binding if a reader finds that open. -/
def openLines (content : Text) (offset : Nat) : List Text → List Line
  | [] => []
  | text :: texts =>
    openLine content (offset, text) :: openLines content (offset + Text.size text) texts

/-- A reader finds the open bindings. -/
theorem linesFrom_eq_openLines {content : Text} {reached offset : Nat} (hle : reached ≤ offset)
    (texts : List Text) :
    linesFrom ((Progress.start (ofText content)).advance reached) offset texts =
      openLines content offset texts := by
  induction texts generalizing reached offset with
  | nil => rfl
  | cons text texts ih =>
    rw [linesFrom, openLines]
    simp only
    split
    · rename_i hidle
      rw [ih (Nat.le_trans hle (Nat.le_add_right _ _)), openLine, parse?_of_isIdle hidle]
      rfl
    · have hbody := size_lineBody_le text
      generalize hfirst : offset + (Text.size (lineBody text) -
        Text.size ((lineBody text).dropWhile Text.isWhiteSpace)) = first
      have hreach : reached ≤ first := by omega
      have hnext : first ≤ offset + Text.size text := by omega
      rw [Progress.advance_advance hreach, ih hnext]
      congr 1
      rw [openLine]
      congr 1
      cases hparse : Binding.parse? (lineBody text) with
      | none => exact ite_self none
      | some b =>
        have hstart : first = offset + b.targetStart := by
          rw [← hfirst, Binding.size_sub_visible hparse]
        rw [Option.filter_some, ← hstart]
        rfl

theorem lines_eq_openLines (content : Text) :
    lines content = openLines content 0 (Text.lines content) := by
  have hstart : (Progress.start (ofText content)).advance 0 = Progress.start (ofText content) := by
    rw [Progress.advance, Progress.following_eq]
    cases hts : ofText content <;> simp [Progress.start, Scope.follow]
  rw [lines, ← hstart, linesFrom_eq_openLines (Nat.le_refl 0)]

section Feeds

variable (content : Text) (offset : Nat) (u : Text)

theorem size_feed : offset + Text.size (u ++ ['\n']) = offset + Text.size u + 1 := by
  rw [Text.size_append, ← Nat.add_assoc]
  rfl

theorem lineBody_feed : lineBody (u ++ ['\n']) = lineBody u :=
  Text.trimEnd_append (by simp [Text.isLineEnd]) u

theorem binding_feed :
    (openLine content (offset, u ++ ['\n'])).binding = (openLine content (offset, u)).binding := by
  rw [openLine, openLine, lineBody_feed]

theorem edits_feed :
    (openLine content (offset, u ++ ['\n'])).edits = (openLine content (offset, u)).edits := by
  rw [Line.edits, binding_feed]
  rfl

end Feeds

/-- An empty row has no binding. -/
theorem openLine_nil (content : Text) (offset : Nat) :
    openLine content (offset, []) = ⟨offset, [], none⟩ := rfl

/-- The edits of the lines of a text are those of its rows. -/
theorem flatMap_edits_openLines (content : Text) (offset : Nat) (t : Text) :
    (openLines content offset (Text.lines t)).flatMap Line.edits =
      (Text.rowsFrom offset t).flatMap fun row => (openLine content row).edits := by
  induction t using Text.row_induction generalizing offset with
  | last u hu =>
    rw [Text.rowsFrom_single hu]
    by_cases hnil : u = []
    · subst hnil
      rfl
    · rw [Text.lines_single hu hnil]
      rfl
  | feed u t hu ih =>
    have hnext := size_feed offset u
    rw [Text.lines_feed hu, Text.rowsFrom_feed hu, openLines, List.flatMap_cons, List.flatMap_cons,
      edits_feed, hnext, ih]

theorem edits_eq_rows (content : Text) :
    edits content = (Text.rows content).flatMap fun row => (openLine content row).edits := by
  rw [edits_eq_flatMap, lines_eq_openLines, flatMap_edits_openLines, Text.rows_eq]

theorem mem_edits_iff {content : Text} {e : Edit} :
    e ∈ edits content ↔ ∃ row ∈ Text.rows content, ∃ b,
      (openLine content row).binding = some b ∧ e ∈ b.edits row.1 := by
  rw [edits_eq_rows, List.mem_flatMap]
  refine exists_congr fun row => and_congr_right fun _ => ?_
  rw [Line.edits]
  cases hbinding : (openLine content row).binding with
  | none => simp
  | some b => simp [openLine]

/-- The arrow of a binding stands on its row, and so within the content. -/
theorem arrowStop_le {content : Text} {row : Nat × Text} (hRow : row ∈ Text.rows content)
    {b : Binding} (hBinding : (openLine content row).binding = some b) :
    b.arrowStop ≤ Text.size row.2 ∧ row.1 + b.arrowStop ≤ Text.size content := by
  obtain ⟨front, back, hsplit, hoffset⟩ := Text.exists_split_of_mem_rowsFrom hRow
  have hsize := congrArg Text.size hsplit
  have hstop : b.arrowStop ≤ Text.size row.2 := (openLine_read content row).arrowStop_le hBinding
  rw [Text.size_append, Text.size_append] at hsize
  exact ⟨hstop, by omega⟩

section Fits

variable {content : Text} {row : Nat × Text} {b : Binding} {e : Edit}
  (hFits : Text.size content < Offset.bound) (hRow : row ∈ Text.rows content)
  (hBinding : (openLine content row).binding = some b)
include hFits hRow hBinding

/-- The edits of a row stand at its target and its arrow. -/
theorem mem_edits_row :
    e ∈ b.edits row.1 ↔
      (b.target.isSome = true ∧ e = .insertLeft (row.1 + b.targetStart) Binding.declaration) ∨
        e = .replace ⟨row.1 + b.arrowStart, row.1 + b.arrowStop⟩ b.arrowText := by
  have hstop := (arrowStop_le hRow hBinding).2
  exact Binding.mem_edits (by omega)

theorem edit_on_row (he : e ∈ b.edits row.1) :
    row.1 + b.targetStart ≤ e.start ∧ e.start ≤ row.1 + Text.size row.2 := by
  have hbounds := b.arrowStart_bounds
  have hstop := (arrowStop_le hRow hBinding).1
  rcases (mem_edits_row hFits hRow hBinding).1 he with ⟨-, rfl⟩ | rfl <;>
    simp only [Edit.start] <;> omega

end Fits

/-- The row of an open binding is a line. -/
theorem exists_line_of_mem_rowsFrom {content t : Text} {offset : Nat} {row : Nat × Text}
    (h : row ∈ Text.rowsFrom offset t) {b : Binding}
    (hBinding : (openLine content row).binding = some b) :
    ∃ l ∈ openLines content offset (Text.lines t), l.offset = row.1 ∧ l.binding = some b := by
  induction t using Text.row_induction generalizing offset with
  | last u hu =>
    rw [Text.rowsFrom_single hu, List.mem_singleton] at h
    subst h
    have hnil : u ≠ [] := by
      rintro rfl
      exact absurd hBinding (by simp [openLine_nil])
    rw [Text.lines_single hu hnil]
    exact ⟨_, List.mem_cons_self, rfl, hBinding⟩
  | feed u t hu ih =>
    rw [Text.rowsFrom_feed hu] at h
    rw [Text.lines_feed hu, openLines]
    rcases List.mem_cons.1 h with rfl | h
    · exact ⟨_, List.mem_cons_self, rfl, by rw [binding_feed, hBinding]⟩
    · have hnext := size_feed offset u
      obtain ⟨l, hl, hline⟩ := ih h
      exact ⟨l, List.mem_cons_of_mem _ (by rwa [hnext]), hline⟩

/-- An open binding stands on tokens of the content. -/
theorem openLine_marked {content : Text} (hFits : Text.size content < Offset.bound)
    {row : Nat × Text} (h : row ∈ Text.rows content) :
    (openLine content row).Marked (ofTextAt 0 content) := by
  intro b hb
  obtain ⟨l, hl, hoffset, hbinding⟩ := exists_line_of_mem_rowsFrom h hb
  have hmarked := (agrees_lines hFits).marked l (by rwa [lines_eq_openLines])
  rw [List.nil_append, Text.flatten_lines] at hmarked
  have hplaces := hmarked b hbinding
  rwa [hoffset] at hplaces

/-- A row with a binding is neither blank nor a comment, and its first visible character stands
behind the indent. -/
theorem visible_of_parse? {text : Text} {b : Binding}
    (h : Binding.parse? (lineBody text) = some b) :
    text.takeWhile Text.isWhiteSpace = b.indent ∧
      ¬ (Text.trim text = [] ∨ ['/', '/'] <+: Text.trim text) := by
  obtain ⟨x, v, hbody, hindent, hx, hslash⟩ := exists_visible_of_parse? h
  obtain ⟨back, hback⟩ := Text.exists_append_trimEnd Text.isLineEnd text
  have htext : text = b.indent ++ x :: (v ++ back) := by
    rw [hback, ← lineBody, hbody, List.append_assoc, List.cons_append]
  have htrim : Text.trim text = x :: Text.trimEnd Text.isWhiteSpace (v ++ back) := by
    rw [Text.trim, htext, List.dropWhile_append_of_pos hindent,
      List.dropWhile_cons_of_neg (by simp [hx]), Text.trimEnd_cons_of_neg hx]
  constructor
  · rw [htext, List.takeWhile_append_of_pos hindent, List.takeWhile_cons_of_neg (by simp [hx]),
      List.append_nil]
  · rw [htrim, List.cons_prefix_cons]
    rintro (hnil | ⟨hhead, -⟩)
    · exact absurd hnil (List.cons_ne_nil _ _)
    · exact hslash hhead.symm

end Content

end BindBlocks
