import BindBlocks.Content
import BindBlocks.Proofs.Commit

/-! The edits of a content. A binding that has been read is the line it was read from, so its edits
can be woven into the line: a word goes in front of its target, and another one takes the place of
its arrow. Line by line this gives the edits of a content, which are spaced and take no line feed
away, and so the content can be expanded. The edits stand at the targets and the arrows of its lines
and nowhere else. -/

namespace BindBlocks

theorem Text.exists_append_trimEnd (p : Char → Bool) (t : Text) :
    ∃ back, t = Text.trimEnd p t ++ back := by
  induction t with
  | nil => exact ⟨[], rfl⟩
  | cons c t ih =>
    obtain ⟨back, hback⟩ := ih
    unfold Text.trimEnd
    split
    · split
      · exact ⟨c :: t, rfl⟩
      · exact ⟨t, rfl⟩
    · exact ⟨back, by rw [List.cons_append, ← hback]⟩

namespace Binding

open Edit

theorem pattern?_append {close : Char} {t p rest : Text} (h : pattern? close t = some (p, rest)) :
    t = p ++ rest := by
  unfold pattern? at h
  split at h
  · rename_i c rest' hdrop
    split at h
    · simp only [Option.some.injEq, Prod.mk.injEq] at h
      obtain ⟨rfl, rfl⟩ := h
      rw [List.append_assoc, List.singleton_append, ← hdrop, List.takeWhile_append_dropWhile]
    · exact absurd h (by simp)
  · exact absurd h (by simp)

theorem target?_append {t target rest : Text} (h : target? t = some (target, rest)) :
    t = target ++ rest ∧ target ≠ [] := by
  cases t with
  | nil => exact absurd h (by simp [target?])
  | cons c t =>
    have hpattern : ∀ close p, pattern? close t = some (p, rest) → c :: p = target →
        c :: t = target ++ rest ∧ target ≠ [] := by
      rintro close p hp rfl
      exact ⟨by rw [List.cons_append, ← pattern?_append hp], List.cons_ne_nil _ _⟩
    rw [target?] at h
    split at h
    · simp only [Option.some.injEq, Prod.mk.injEq] at h
      obtain ⟨rfl, rfl⟩ := h
      exact ⟨by rw [List.cons_append, List.takeWhile_append_dropWhile], List.cons_ne_nil _ _⟩
    · split at h
      · obtain ⟨⟨p, rest'⟩, hp, heq⟩ := Option.map_eq_some_iff.1 h
        obtain ⟨htarget, rfl⟩ := Prod.mk.inj heq
        exact hpattern ']' p hp htarget
      · split at h
        · obtain ⟨⟨p, rest'⟩, hp, heq⟩ := Option.map_eq_some_iff.1 h
          obtain ⟨htarget, rfl⟩ := Prod.mk.inj heq
          exact hpattern '}' p hp htarget
        · exact absurd h (by simp)

theorem afterArrow?_append {t lead expression tail : Text}
    (h : afterArrow? t = some (lead, expression, tail)) : t = lead ++ expression ++ tail := by
  unfold afterArrow? at h
  split at h
  · split at h
    · exact absurd h (by simp)
    · rename_i c hlast
      simp only [Option.some.injEq, Prod.mk.injEq] at h
      obtain ⟨rfl, rfl, rfl⟩ := h
      rw [List.append_nil]
      exact (List.dropLast_append_getLast? c hlast).symm
  · rename_i c rest hdrop
    simp only [Option.some.injEq, Prod.mk.injEq] at h
    obtain ⟨rfl, rfl, rfl⟩ := h
    rw [List.append_assoc, List.take_append_drop, ← hdrop, List.takeWhile_append_dropWhile]

/-- A binding that has been read is the line it was read from. -/
theorem toText_of_parse? {line : Text} {b : Binding} (h : parse? line = some b) :
    b.toText = line ∧ ∀ target, b.target = some target → target ≠ [] := by
  have hindent := List.takeWhile_append_dropWhile (p := Text.isGap) (l := line)
  unfold parse? at h
  cases htarget : target? (line.dropWhile Text.isGap) with
  | none =>
    simp only [htarget] at h
    split at h
    · rename_i t ht
      obtain ⟨⟨lead, expression, tail⟩, hafter, rfl⟩ := Option.map_eq_some_iff.1 h
      refine ⟨?_, by simp⟩
      rw [ht, afterArrow?_append hafter] at hindent
      simpa [toText, arrow] using hindent
    · exact absurd h (by simp)
  | some pair =>
    obtain ⟨target, rest⟩ := pair
    obtain ⟨hrest, hne⟩ := target?_append htarget
    simp only [htarget] at h
    split at h
    · rename_i t ht
      obtain ⟨⟨lead, expression, tail⟩, hafter, rfl⟩ := Option.map_eq_some_iff.1 h
      refine ⟨?_, fun target' h' => by rwa [← Option.some.inj h']⟩
      have hgap := List.takeWhile_append_dropWhile (p := Text.isGap) (l := rest)
      rw [ht, afterArrow?_append hafter] at hgap
      rw [hrest, ← hgap] at hindent
      simpa [toText, arrow] using hindent
    · exact absurd h (by simp)

/-- The arrow of a line gives way to a text, whatever happens in front of it. -/
theorem spaced_arrow (b : Binding) {offset : Nat} {es : List Edit} {result : Text} (new : Text)
    (h : Spaced offset es (b.indent ++ b.target.getD [] ++ b.gap) result) :
    Spaced offset (es ++ [.replace ⟨offset + b.arrowStart, offset + b.arrowStop⟩ new]) b.toText
      (result ++ new ++ (b.lead ++ b.expression ++ b.tail)) := by
  have hfront : offset + b.arrowStart =
      offset + Text.size (b.indent ++ b.target.getD [] ++ b.gap) := by
    simp only [arrowStart, targetStop, targetStart, Text.size_append]
  have hstop : offset + b.arrowStop = offset + b.arrowStart + Text.size arrow := by
    rw [arrowStop, Nat.add_assoc]
  have harrow := Spaced.replace (offset + b.arrowStart) new (show arrow ≠ [] by decide)
  have hline := (h.append hfront harrow).append
    (by rw [Text.size_append, hfront, Nat.add_assoc])
    (Spaced.rest (offset + b.arrowStart + Text.size arrow) (b.lead ++ b.expression ++ b.tail))
  rw [List.append_nil, ← hstop] at hline
  simpa only [toText, List.append_assoc] using hline

theorem keepsLines_arrow (b : Binding) (offset : Nat) (new : Text) :
    (Edit.replace ⟨offset + b.arrowStart, offset + b.arrowStop⟩ new).KeepsLines offset
      b.toText := by
  refine ⟨b.indent ++ b.target.getD [] ++ b.gap, arrow, b.lead ++ b.expression ++ b.tail,
    by simp only [toText, List.append_assoc], ?_, ?_, by decide⟩
  · simp only [start, arrowStart, targetStop, targetStart, Text.size_append]
  · simp only [start, stop, arrowStop, Nat.add_assoc]

/-- What stands for the arrow, with a blank on a side where the arrow has none. -/
def arrowText (b : Binding) : Text :=
  (if b.target.isSome then blankIf (b.targetStop == b.arrowStart) ++ assignment else delegation) ++
    blankIf (b.arrowStop == b.expressionStart)

theorem arrowText_ne_nil (b : Binding) : b.arrowText ≠ [] := by
  have hassignment : assignment ≠ [] := by decide
  have hdelegation : delegation ≠ [] := by decide
  unfold arrowText
  split <;> simp [hassignment, hdelegation]

theorem not_mem_arrowText (b : Binding) : '\n' ∉ b.arrowText := by
  have hassignment : '\n' ∉ assignment := by decide
  have hdelegation : '\n' ∉ delegation := by decide
  have hblank : ∀ touching, '\n' ∉ blankIf touching := by decide
  unfold arrowText
  split <;> simp [hassignment, hdelegation, hblank]

/-- The word in front of the target, if there is a target. -/
def heading (b : Binding) : Text := if b.target.isSome then declaration else []

/-- The line as plain code. -/
def plain (b : Binding) : Text :=
  b.indent ++ (b.heading ++ b.target.getD []) ++ b.gap ++ b.arrowText ++
    (b.lead ++ b.expression ++ b.tail)

theorem arrowStop_le_size (b : Binding) : b.arrowStop ≤ Text.size b.toText := by
  simp only [arrowStop, arrowStart, targetStop, targetStart, toText, Text.size_append]
  omega

/-- If the places of a line have 32 bits, its edits stand at its target and its arrow. -/
theorem edits_eq {b : Binding} {offset : Nat} (hFits : offset + b.arrowStop < Offset.bound) :
    b.edits offset =
      (if b.target.isSome then [.insertLeft (offset + b.targetStart) declaration] else []) ++
        [.replace ⟨offset + b.arrowStart, offset + b.arrowStop⟩ b.arrowText] := by
  have harrow : b.targetStart ≤ b.arrowStart ∧ b.arrowStart ≤ b.arrowStop := by
    simp only [arrowStop, arrowStart, targetStop]
    omega
  have htarget := Offset.wrap_of_lt (show offset + b.targetStart < Offset.bound by omega)
  have hspan := Span.wrap_of_lt (s := ⟨offset + b.arrowStart, offset + b.arrowStop⟩)
    (show offset + b.arrowStart < Offset.bound by omega) hFits
  rw [edits, htarget, hspan, arrowText]
  cases b.target <;> simp

theorem mem_edits {b : Binding} {offset : Nat} {e : Edit}
    (hFits : offset + b.arrowStop < Offset.bound) :
    e ∈ b.edits offset ↔
      (b.target.isSome = true ∧ e = .insertLeft (offset + b.targetStart) declaration) ∨
        e = .replace ⟨offset + b.arrowStart, offset + b.arrowStop⟩ b.arrowText := by
  rw [edits_eq hFits, List.mem_append, List.mem_singleton]
  split <;> simp_all

/-- The edits of a binding make plain code of its line, which stays one line. -/
theorem edits_spaced {b : Binding} (hTarget : ∀ target, b.target = some target → target ≠ [])
    {offset : Nat} (hFits : offset + b.arrowStop < Offset.bound) :
    Spaced offset (b.edits offset) b.toText b.plain ∧
      ∀ e ∈ b.edits offset, e.KeepsLines offset b.toText := by
  have hfront : Spaced offset
      (if b.target.isSome then [.insertLeft (offset + b.targetStart) declaration] else [])
      (b.indent ++ b.target.getD [] ++ b.gap)
      (b.indent ++ (b.heading ++ b.target.getD []) ++ b.gap) := by
    cases htarget : b.target with
    | none =>
      simp only [heading, htarget, Option.isSome_none, Bool.false_eq_true, if_false,
        Option.getD_none, List.append_nil]
      exact .rest offset _
    | some target =>
      have hinsert := Spaced.insertLeft (offset + Text.size b.indent) declaration
        (hTarget target htarget)
      simp only [heading, htarget, Option.isSome_some, if_true, Option.getD_some]
      exact ((Spaced.rest offset b.indent).append rfl hinsert).append rfl (.rest _ b.gap)
  refine ⟨?_, fun e he => ?_⟩
  · rw [edits_eq hFits]
    exact b.spaced_arrow b.arrowText hfront
  · rcases (mem_edits hFits).1 he with ⟨-, rfl⟩ | rfl
    · exact ⟨b.indent, [], b.target.getD [] ++ b.gap ++ arrow ++ b.lead ++ b.expression ++ b.tail,
        by simp [toText], rfl, rfl, by simp⟩
    · exact b.keepsLines_arrow offset _

end Binding

namespace Content

open Edit

/-- A line of a content: where it starts, its text, and the binding that is made plain in it. -/
structure Line where
  offset : Nat
  text : Text
  binding : Option Binding

namespace Line

def edits (l : Line) : List Edit := l.binding.elim [] (·.edits l.offset)

/-- The characters that end the line. -/
def ending (l : Line) : Text := l.text.drop (lineBody l.text).length

/-- The line with plain code in place of its binding. -/
def plain (l : Line) : Text := l.binding.elim l.text (·.plain ++ l.ending)

/-- The binding is read from the line. -/
def Read (l : Line) : Prop := ∀ b, l.binding = some b → Binding.parse? (lineBody l.text) = some b

theorem body_append_ending (l : Line) : lineBody l.text ++ l.ending = l.text := by
  obtain ⟨back, hback⟩ := Text.exists_append_trimEnd Text.isLineEnd l.text
  have hprefix : lineBody l.text <+: l.text := ⟨back, hback.symm⟩
  rw [ending, List.prefix_iff_eq_take.1 hprefix, List.length_take, Nat.min_eq_left]
  · exact List.take_append_drop _ _
  · exact hprefix.length_le

end Line

/-- The lines of a content from `offset` on, with the bindings that are open to a reader who has
come as far as `p`. -/
def linesFrom (p : Progress) (offset : Nat) : List Text → List Line
  | [] => []
  | text :: texts =>
    let body := lineBody text
    let visible := body.dropWhile Text.isWhiteSpace
    let next := offset + Text.size text
    if isIdle visible then ⟨offset, text, none⟩ :: linesFrom p next texts
    else
      let first := offset + (Text.size body - Text.size visible)
      let p := p.advance first
      let binding := if p.isOpen first then Binding.parse? body else none
      ⟨offset, text, binding⟩ :: linesFrom p next texts

def lines (content : Text) : List Line :=
  linesFrom (Progress.start (Token.ofText content)) 0 (Text.lines content)

/-- The edits of a content are those of its lines. -/
theorem editsFrom_eq (p : Progress) (offset : Nat) (texts : List Text) :
    editsFrom p offset texts = (linesFrom p offset texts).flatMap Line.edits := by
  induction texts generalizing p offset with
  | nil => rfl
  | cons text texts ih =>
    rw [editsFrom, linesFrom]
    simp only
    split
    · rw [ih, List.flatMap_cons]
      rfl
    · rw [ih, List.flatMap_cons]
      congr 1
      split
      · cases Binding.parse? (lineBody text) <;> rfl
      · rfl

/-- The lines follow one another from `offset` on, and their bindings are read from them. -/
inductive Lined : Nat → List Line → Prop
  | nil (offset : Nat) : Lined offset []
  | cons {l : Line} {ls : List Line} :
      l.Read → Lined (l.offset + Text.size l.text) ls → Lined l.offset (l :: ls)

theorem linesFrom_lined (p : Progress) (offset : Nat) (texts : List Text) :
    Lined offset (linesFrom p offset texts) ∧ (linesFrom p offset texts).map Line.text = texts := by
  induction texts generalizing p offset with
  | nil => exact ⟨.nil offset, rfl⟩
  | cons text texts ih =>
    rw [linesFrom]
    simp only
    split
    · obtain ⟨hlined, htexts⟩ := ih p (offset + Text.size text)
      exact ⟨.cons (l := ⟨offset, text, none⟩) (by simp [Line.Read]) hlined, by simp [htexts]⟩
    · refine ⟨.cons (l := ⟨offset, text, _⟩) (fun b hb => ?_) (ih _ _).1, by simp [(ih _ _).2]⟩
      simp only at hb
      split at hb
      · exact hb
      · exact absurd hb (by simp)

/-- The arrow of a line that has been read lies on it. -/
theorem Line.Read.arrowStop_le {l : Line} (h : l.Read) {b : Binding} (hb : l.binding = some b) :
    b.arrowStop ≤ Text.size l.text := by
  have harrow := b.arrowStop_le_size
  have hsize := congrArg Text.size l.body_append_ending
  rw [(Binding.toText_of_parse? (h b hb)).1] at harrow
  rw [Text.size_append] at hsize
  omega

theorem Line.edits_spaced {l : Line} (h : l.Read)
    (hFits : l.offset + Text.size l.text < Offset.bound) :
    Spaced l.offset l.edits l.text l.plain ∧ ∀ e ∈ l.edits, e.KeepsLines l.offset l.text := by
  unfold Line.edits Line.plain
  cases hbinding : l.binding with
  | none => exact ⟨.rest l.offset l.text, by simp⟩
  | some b =>
    obtain ⟨htext, htarget⟩ := Binding.toText_of_parse? (h b hbinding)
    have harrow := h.arrowStop_le hbinding
    obtain ⟨hspaced, hkeeps⟩ := Binding.edits_spaced htarget
      (show l.offset + b.arrowStop < Offset.bound by omega)
    rw [htext] at hspaced hkeeps
    rw [← l.body_append_ending]
    refine ⟨?_, fun e he => (hkeeps e he).append_right l.ending⟩
    have hline := hspaced.append rfl (.rest _ l.ending)
    rwa [List.append_nil] at hline

theorem Lined.edits_spaced {offset : Nat} {ls : List Line} (h : Lined offset ls)
    (hFits : offset + Text.size (ls.flatMap Line.text) < Offset.bound) :
    Spaced offset (ls.flatMap Line.edits) (ls.flatMap Line.text) (ls.flatMap Line.plain) ∧
      ∀ e ∈ ls.flatMap Line.edits, e.KeepsLines offset (ls.flatMap Line.text) := by
  induction h with
  | nil offset => exact ⟨.rest offset [], by simp⟩
  | @cons l ls hread _ ih =>
    rw [List.flatMap_cons, Text.size_append] at hFits
    obtain ⟨hspaced, hkeeps⟩ := Line.edits_spaced hread (by omega)
    have ih := ih (by omega)
    simp only [List.flatMap_cons]
    refine ⟨hspaced.append rfl ih.1, fun e he => ?_⟩
    rcases List.mem_append.1 he with he | he
    · exact (hkeeps e he).append_right _
    · exact (ih.2 e he).append_left rfl

theorem Lined.read_of_mem {offset : Nat} {ls : List Line} (h : Lined offset ls) :
    ∀ l ∈ ls, l.Read ∧ l.offset + Text.size l.text ≤ offset + Text.size (ls.flatMap Line.text) := by
  induction h with
  | nil offset => simp
  | @cons l ls hread _ ih =>
    rw [List.flatMap_cons, Text.size_append]
    intro k hk
    rcases List.mem_cons.1 hk with rfl | hk
    · exact ⟨hread, by omega⟩
    · obtain ⟨hread', hstop⟩ := ih k hk
      exact ⟨hread', by omega⟩

theorem lines_lined (content : Text) : Lined 0 (lines content) := (linesFrom_lined _ _ _).1

theorem flatMap_text_lines (content : Text) : (lines content).flatMap Line.text = content := by
  rw [List.flatMap_def, lines, (linesFrom_lined _ _ _).2, Text.flatten_lines]

theorem edits_eq_flatMap (content : Text) : edits content = (lines content).flatMap Line.edits :=
  editsFrom_eq _ _ _

section Fits

variable {content : Text} (hFits : Text.size content < Offset.bound)
include hFits

theorem edits_spaced :
    Spaced 0 (edits content) content ((lines content).flatMap Line.plain) ∧
      ∀ e ∈ edits content, e.KeepsLines 0 content := by
  have hspaced := (lines_lined content).edits_spaced
  rw [flatMap_text_lines, ← edits_eq_flatMap, Nat.zero_add] at hspaced
  exact hspaced hFits

/-- A content can be expanded: its lines are made plain one by one. -/
theorem expand_eq : expand content = .ok ((lines content).flatMap Line.plain) := by
  obtain ⟨r, hcommit, -, htext, -⟩ :=
    Draft.commit_spaced (edits_spaced hFits).1 (List.Perm.refl _)
  rw [expand, hcommit, ← htext]
  rfl

/-- The bindings that are made plain have places of 32 bits. -/
theorem arrowStop_lt_of_mem {l : Line} (hl : l ∈ lines content) {b : Binding}
    (hb : l.binding = some b) : l.offset + b.arrowStop < Offset.bound := by
  obtain ⟨hread, hstop⟩ := (lines_lined content).read_of_mem l hl
  have harrow := hread.arrowStop_le hb
  rw [flatMap_text_lines] at hstop
  omega

end Fits

/-- The arrows of the bindings that are made plain. -/
def arrows (content : Text) : List Span :=
  (lines content).filterMap fun l =>
    l.binding.map fun b => ⟨l.offset + b.arrowStart, l.offset + b.arrowStop⟩

/-- Where the targets of these bindings start. -/
def targets (content : Text) : List Nat :=
  (lines content).filterMap fun l =>
    (l.binding.filter (·.target.isSome)).map fun b => l.offset + b.targetStart

/-- The edits of a content declare its targets and put a text on one line in place of each arrow. -/
theorem mem_edits_cases {content : Text} (hFits : Text.size content < Offset.bound) {e : Edit}
    (he : e ∈ edits content) :
    (∃ o ∈ targets content, e = .insertLeft o Binding.declaration) ∨
      ∃ s ∈ arrows content, ∃ new, new ≠ [] ∧ '\n' ∉ new ∧ e = .replace s new := by
  rw [edits_eq_flatMap, List.mem_flatMap] at he
  obtain ⟨l, hl, he⟩ := he
  rw [Line.edits] at he
  cases hbinding : l.binding with
  | none => simp [hbinding] at he
  | some b =>
    rw [hbinding, Option.elim_some, Binding.mem_edits (arrowStop_lt_of_mem hFits hl hbinding)] at he
    rcases he with ⟨htarget, rfl⟩ | rfl
    · exact .inl ⟨_, List.mem_filterMap.2 ⟨l, hl, by simp [hbinding, htarget]⟩, rfl⟩
    · exact .inr ⟨_, List.mem_filterMap.2 ⟨l, hl, by simp [hbinding]⟩, b.arrowText,
        b.arrowText_ne_nil, b.not_mem_arrowText, rfl⟩

theorem declaration_mem_edits {content : Text} (hFits : Text.size content < Offset.bound) {o : Nat}
    (ho : o ∈ targets content) :
    .insertLeft o Binding.declaration ∈ edits content := by
  obtain ⟨l, hl, ho⟩ := List.mem_filterMap.1 ho
  obtain ⟨b, hb, rfl⟩ := Option.map_eq_some_iff.1 ho
  obtain ⟨hbinding, htarget⟩ := Option.filter_eq_some_iff.1 hb
  rw [edits_eq_flatMap, List.mem_flatMap]
  refine ⟨l, hl, ?_⟩
  rw [Line.edits, hbinding, Option.elim_some,
    Binding.mem_edits (arrowStop_lt_of_mem hFits hl hbinding)]
  exact .inl ⟨htarget, rfl⟩

end Content

end BindBlocks
