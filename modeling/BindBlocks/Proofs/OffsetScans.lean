import BindBlocks.Proofs.Octets
import BindBlocks.Proofs.Tiling

/-! The ends of literals, found by byte offsets. These scans keep an offset and look at the text
behind it, which is refused inside a character and beyond the end. A literal inside another one is
scanned as a text of its own, and the braces of an expression are counted, where counting down below
zero is refused too. No scan is refused: each returns the size that its literal has by characters,
and so it stops between characters. -/

namespace BindBlocks

namespace Text

theorem size_of_slice {t rest : Text} {offset stop : Nat} (h : slice t offset stop = .ok rest) :
    offset + size rest = stop := by
  obtain ⟨front, back, -, -, hsize⟩ := slice_eq_ok_iff.1 h
  exact hsize

/-- The text behind an offset. -/
def behind (t : Text) (offset : Nat) :
    Except Fault { rest : Text // offset + size rest = size t } :=
  match h : slice t offset (size t) with
  | .error fault => .error fault
  | .ok rest => .ok ⟨rest, size_of_slice h⟩

theorem behind_eq {t front rest : Text} {offset : Nat} (hSplit : t = front ++ rest)
    (hSize : size front = offset) :
    behind t offset = .ok ⟨rest, by rw [hSplit, size_append, hSize]⟩ := by
  have hslice : slice t offset (size t) = .ok rest :=
    slice_eq_ok_iff.2 ⟨front, [], by rw [hSplit, List.append_nil], hSize, by
      rw [hSplit, size_append, hSize]⟩
  unfold behind
  split
  · simp_all
  · rename_i other hother
    simp only [Except.ok.inj (hother.symm.trans hslice)]

/-- The size lies within the text and between characters. -/
structure Cuts (t : Text) (n : Nat) : Prop where
  within : n ≤ size t
  between : t.isBoundary n = true

theorem cuts_take (t : Text) (n : Nat) : t.Cuts (size (t.take n)) := by
  have hsplit := List.take_append_drop n t
  refine ⟨?_, isBoundary_iff.2 ⟨t.take n, t.drop n, hsplit.symm, rfl⟩⟩
  have hsize := congrArg size hsplit
  rw [size_append] at hsize
  omega

theorem size_concat {c : Char} (hc : c.utf8Size = 1) (front : Text) :
    size (front ++ [c]) = size front + 1 := by
  rw [size_append, size_cons, hc, size_nil]

theorem lt_of_size_cons {c : Char} {rest : Text} {offset whole : Nat}
    (h : offset + size (c :: rest) = whole) : offset < whole := by
  have hpos := c.utf8Size_pos
  rw [size_cons] at h
  omega

end Text

namespace Literal

/-- The size of the character at an offset, if there is one. -/
def sizeAt (t : Text) (offset : Nat) : Except Fault Nat := do
  let rest ← t.behind offset
  return Text.size (rest.1.take 1)

/-- Whether a template expression is opened at an offset where `c` stands. -/
def embedsAt (c : Char) (t : Text) (offset : Nat) : Except Fault Bool :=
  if c = '$' then do
    let rest ← t.behind (offset + 1)
    return rest.1.head? = some '{'
  else return false

/-- The end of a quoted text. -/
def quotedEnd (close : Char) (t : Text) (offset : Nat) : Except Fault Nat :=
  match t.behind offset with
  | .error fault => .error fault
  | .ok ⟨[], _⟩ => .ok (Text.size t)
  | .ok ⟨c :: _, h⟩ =>
    have := Text.lt_of_size_cons h
    if c = '\\' then do
      quotedEnd close t (offset + 1 + (← sizeAt t (offset + 1)))
    else if c = close then .ok (offset + 1)
    else quotedEnd close t (offset + c.utf8Size)
termination_by Text.size t - offset
decreasing_by all_goals have := c.utf8Size_pos; omega

mutual

/-- The end of a template. -/
def templateEnd (t : Text) (offset : Nat) : Except Fault Nat :=
  match t.behind offset with
  | .error fault => .error fault
  | .ok ⟨[], _⟩ => .ok (Text.size t)
  | .ok ⟨c :: _, h⟩ =>
    have := Text.lt_of_size_cons h
    if c = '\\' then do
      templateEnd t (offset + 1 + (← sizeAt t (offset + 1)))
    else if c = '\x60' then .ok (offset + 1)
    else do
      if ← embedsAt c t offset then
        let rest ← t.behind (offset + 2)
        have := rest.2
        templateEnd t (offset + 2 + (← expressionEnd 1 rest.1 0))
      else
        templateEnd t (offset + c.utf8Size)
termination_by Text.size t - offset
decreasing_by all_goals have := c.utf8Size_pos; omega

/-- The end of a template expression in which `depth` braces are open. -/
def expressionEnd (depth : Nat) (t : Text) (offset : Nat) : Except Fault Nat :=
  match t.behind offset with
  | .error fault => .error fault
  | .ok ⟨[], _⟩ => .ok (Text.size t)
  | .ok ⟨c :: _, h⟩ =>
    have := Text.lt_of_size_cons h
    if c = '{' then expressionEnd (depth + 1) t (offset + 1)
    else if c = '}' then do
      let depth ← Offset.sub depth 1
      if depth = 0 then return offset + 1
      expressionEnd depth t (offset + 1)
    else if c = '\x60' then do
      let rest ← t.behind (offset + 1)
      have := rest.2
      expressionEnd depth t (offset + 1 + (← templateEnd rest.1 0))
    else if c = '\x27' ∨ c = '\x22' then do
      let rest ← t.behind (offset + 1)
      expressionEnd depth t (offset + 1 + (← quotedEnd c rest.1 0))
    else if c = '\\' then do
      expressionEnd depth t (offset + 1 + (← sizeAt t (offset + 1)))
    else expressionEnd depth t (offset + c.utf8Size)
termination_by Text.size t - offset
decreasing_by all_goals have := c.utf8Size_pos; omega

end

end Literal

namespace Opener

/-- The bytes of a scan with other openers still to close, up to and with the character that closes
the outermost one, which counts as a single byte. -/
def scanSize (top : Opener) (below : List Opener) (t : Text) : Nat :=
  Text.size (t.take (bodyLength top below t)) + if bodyLength top below t < t.length then 1 else 0

section Steps

variable {top : Opener} {below : List Opener}

/-- What a scan counts in full, it counts with all its bytes. -/
theorem scanSize_append {top' : Opener} {below' : List Opener} (front : Text) {t : Text}
    (h : bodyLength top below (front ++ t) = front.length + bodyLength top' below' t) :
    scanSize top below (front ++ t) = Text.size front + scanSize top' below' t := by
  rw [scanSize, h, List.take_length_add_append, Text.size_append, List.length_append,
    Nat.add_assoc, scanSize]
  simp only [Nat.add_lt_add_iff_left]

theorem scanSize_nil : scanSize top below [] = 0 := by
  simp [scanSize, bodyLength]

theorem scanSize_embedded (t : Text) :
    scanSize .template below ('$' :: '{' :: t) = 2 + scanSize .brace (.template :: below) t := by
  refine scanSize_append ['$', '{'] ?_
  show bodyLength .template below ('$' :: '{' :: t) = _
  rw [bodyLength]
  rfl

theorem scanSize_step {c : Char} {t : Text} {s : Opener × List Opener} (hEscape : c ≠ '\\')
    (hDollar : top = .template → c = '$' → t.head? ≠ some '{')
    (hStep : step? top below c = some s) :
    scanSize top below (c :: t) = c.utf8Size + scanSize s.1 s.2 t := by
  refine scanSize_append [c] ?_
  rw [List.singleton_append, bodyLength_cons hEscape, hStep]
  · rfl
  · rintro u htop hc rfl
    exact hDollar htop hc rfl

theorem scanSize_close {c : Char} {t : Text} (hEscape : c ≠ '\\')
    (hDollar : top = .template → c = '$' → t.head? ≠ some '{')
    (hStep : step? top below c = none) : scanSize top below (c :: t) = 1 := by
  rw [scanSize, bodyLength_cons hEscape, hStep]
  · rfl
  · rintro u htop hc rfl
    exact hDollar htop hc rfl

/-- A scan passes an escape with the character behind it, if there is one. -/
theorem exists_escape (t : Text) :
    ∃ rest, t = t.take 1 ++ rest ∧ ∀ top below,
      scanSize top below ('\\' :: t) = 1 + Text.size (t.take 1) + scanSize top below rest := by
  cases t with
  | nil =>
    refine ⟨[], rfl, fun top below => ?_⟩
    rw [scanSize_nil, scanSize, bodyLength]
    rfl
  | cons c t =>
    refine ⟨t, rfl, fun top below => ?_⟩
    rw [List.take_succ_cons, List.take_zero]
    refine scanSize_append ['\\', c] ?_
    show bodyLength top below ('\\' :: c :: t) = _
    rw [bodyLength]
    rfl

end Steps

theorem ne_escape {c : Char} {t : Text} (hEnd : c = '\\' → t = [] → False)
    (hPair : ∀ d u, c = '\\' → t = d :: u → False) : c ≠ '\\' := by
  rintro rfl
  cases t with
  | nil => exact hEnd rfl rfl
  | cons d t => exact hPair d t rfl rfl

/-- What a scan counts that has a further opener to close: all of the text if the scan without it
does, and otherwise what the further scan counts behind the character where the first one ends. -/
def Continues (o : Opener) (further : Text → Nat) (t : Text) (inner outer : Nat) : Prop :=
  (inner = t.length ∧ outer = t.length) ∨
    ∃ front rest, t = front ++ o.close :: rest ∧ front.length = inner ∧
      outer = inner + 1 + further rest

theorem Continues.prepend {o : Opener} {further : Text → Nat} {t : Text} {inner outer : Nat}
    (h : o.Continues further t inner outer) (front : Text) :
    o.Continues further (front ++ t) (front.length + inner) (front.length + outer) := by
  rcases h with ⟨rfl, rfl⟩ | ⟨middle, rest, rfl, rfl, rfl⟩
  · exact .inl ⟨List.length_append.symm, List.length_append.symm⟩
  · refine .inr ⟨front ++ middle, rest, (List.append_assoc ..).symm, List.length_append, ?_⟩
    omega

theorem bodyLength_continues (top : Opener) (below : List Opener) (outer : Opener)
    (rest : List Opener) (t : Text) :
    (below.getLastD top).Continues (bodyLength outer rest) t (bodyLength top below t)
      (bodyLength top (below ++ outer :: rest) t) := by
  fun_induction bodyLength top below t with
  | case1 => exact .inl ⟨rfl, by rw [bodyLength]; rfl⟩
  | case2 => exact .inl ⟨rfl, by rw [bodyLength]; rfl⟩
  | case3 top below c t ih =>
    rw [bodyLength]
    exact ih.prepend ['\\', c]
  | case4 below t ih =>
    rw [bodyLength]
    rw [List.getLastD_cons] at ih
    exact ih.prepend ['$', '{']
  | case5 top below c t hend hpair hdollar hmove ih =>
    rw [bodyLength_cons (ne_escape hend hpair) hdollar]
    simp only [step?, hmove, Option.elim_some]
    exact ih.prepend [c]
  | case6 top below c t hend hpair hdollar inner hmove ih =>
    rw [bodyLength_cons (ne_escape hend hpair) hdollar]
    simp only [step?, hmove, Option.elim_some]
    rw [List.getLastD_cons] at ih
    exact ih.prepend [c]
  | case7 top c t hend hpair hdollar hmove =>
    rw [bodyLength_cons (ne_escape hend hpair) hdollar]
    simp only [step?, hmove, List.nil_append, Option.elim_some]
    rw [eq_close_of_move hmove]
    exact .inr ⟨[], t, rfl, rfl, by omega⟩
  | case8 top c t hend hpair hdollar hmove middle others ih =>
    rw [bodyLength_cons (ne_escape hend hpair) hdollar]
    simp only [step?, hmove, List.cons_append, Option.elim_some]
    rw [List.getLastD_cons]
    exact ih.prepend [c]

/-- A scan with a further opener to close goes on behind the literal of the innermost one. -/
theorem exists_behind_literal {inner : Opener} (hClose : inner.close.utf8Size = 1) (outer : Opener)
    (rest : List Opener) (t : Text) :
    ∃ a b, t = a ++ b ∧ Text.size a = inner.literalSize t ∧
      scanSize inner (outer :: rest) t = Text.size a + scanSize outer rest b := by
  have hcontinues := bodyLength_continues inner [] outer rest t
  rw [List.getLastD_nil, List.nil_append] at hcontinues
  rcases hcontinues with ⟨hinner, houter⟩ | ⟨front, behind, hsplit, hinner, houter⟩
  · refine ⟨t, [], (List.append_nil t).symm, ?_, ?_⟩
    · rw [literalSize, hinner]
      simp
    · rw [scanSize_nil, scanSize, houter]
      simp
  · refine ⟨front ++ [inner.close], behind, by rw [hsplit, List.append_assoc]; rfl, ?_, ?_⟩
    · rw [literalSize, ← hinner, hsplit, List.take_left, Text.size_append, if_pos (by simp)]
      simp [hClose]
    · rw [hsplit, List.append_cons]
      refine scanSize_append (front ++ [inner.close]) ?_
      rw [← List.append_cons, ← hsplit, houter, ← hinner, List.length_append]
      rfl

end Opener

namespace Literal

open Opener (scanSize)

theorem sizeAt_eq {t front rest : Text} {offset : Nat} (hSplit : t = front ++ rest)
    (hSize : Text.size front = offset) : sizeAt t offset = .ok (Text.size (rest.take 1)) := by
  rw [sizeAt, Text.behind_eq hSplit hSize]
  rfl

theorem embedsAt_append (c : Char) (front rest : Text) :
    embedsAt c (front ++ c :: rest) (Text.size front) =
      .ok (decide (c = '$' ∧ rest.head? = some '{')) := by
  unfold embedsAt
  by_cases hc : c = '$'
  · subst hc
    rw [if_pos rfl, Text.behind_eq (List.append_cons front '$' rest) (Text.size_concat rfl front)]
    simp [bind, Except.bind, pure, Except.pure]
  · rw [if_neg hc, decide_eq_false fun h => hc h.1]
    rfl

/-- From a boundary in front of `rest`, a scan returns what the openers take up of it. -/
def Reads (scan : Text → Nat → Except Fault Nat) (top : Opener) (below : List Opener)
    (rest : Text) : Prop :=
  ∀ front, scan (front ++ rest) (Text.size front) =
    .ok (Text.size front + scanSize top below rest)

section Reads

variable {scan : Text → Nat → Except Fault Nat} {top : Opener} {below : List Opener} {rest : Text}

/-- A scan goes on behind what it has passed. -/
theorem Reads.behind (h : Reads scan top below rest) (front middle : Text) :
    scan (front ++ (middle ++ rest)) (Text.size front + Text.size middle) =
      .ok (Text.size front + (Text.size middle + scanSize top below rest)) := by
  have hscan := h (front ++ middle)
  rwa [List.append_assoc, Text.size_append, Nat.add_assoc] at hscan

theorem Reads.start (h : Reads scan top below rest) :
    scan rest 0 = .ok (scanSize top below rest) := by
  have hscan := h []
  rwa [List.nil_append, Text.size_nil, Nat.zero_add] at hscan

/-- A scan goes on behind an escape. -/
theorem Reads.escape (h : ∀ b : Text, b.length < rest.length + 1 → Reads scan top below b)
    (front : Text) :
    (do scan (front ++ '\\' :: rest)
          (Text.size front + 1 + (← sizeAt (front ++ '\\' :: rest) (Text.size front + 1)))) =
      .ok (Text.size front + scanSize top below ('\\' :: rest)) := by
  obtain ⟨behind, hsplit, hsize⟩ := Opener.exists_escape rest
  have hlength := congrArg List.length hsplit
  rw [List.length_append] at hlength
  have hscan := (h behind (by omega)).behind front ('\\' :: rest.take 1)
  rw [List.cons_append, ← hsplit] at hscan
  rw [sizeAt_eq (List.append_cons front '\\' rest) (Text.size_concat rfl front), hsize]
  show scan _ (Text.size front + 1 + Text.size (rest.take 1)) = _
  rw [Nat.add_assoc (Text.size front)]
  exact hscan

/-- A scan goes on behind a character with what it leaves open. -/
theorem Reads.next {top' : Opener} {below' : List Opener} {c : Char}
    (h : Reads scan top' below' rest) (hEscape : c ≠ '\\')
    (hDollar : top = .template → c = '$' → rest.head? ≠ some '{')
    (hStep : Opener.step? top below c = some (top', below')) (front : Text) :
    scan (front ++ c :: rest) (Text.size front + c.utf8Size) =
      .ok (Text.size front + scanSize top below (c :: rest)) := by
  rw [Opener.scanSize_step hEscape hDollar hStep]
  exact h.behind front [c]

/-- A scan goes on behind a literal that stands inside of what it scans, and that is scanned as a
text of its own behind the characters that open it. -/
theorem Reads.literal {inner : Opener} {scanInner : Text → Nat → Except Fault Nat} {opening : Nat}
    (h : ∀ b : Text, b.length ≤ rest.length → Reads scan top below b)
    (hInner : Reads scanInner inner [] rest) (hClose : inner.close.utf8Size = 1)
    (front mark : Text) (hMark : Text.size mark = opening) :
    (do
      let inside ← (front ++ (mark ++ rest)).behind (Text.size front + opening)
      scan (front ++ (mark ++ rest)) (Text.size front + opening + (← scanInner inside.1 0))) =
      .ok (Text.size front + (opening + scanSize inner (top :: below) rest)) := by
  subst hMark
  obtain ⟨body, behind, hsplit, hbody, hsize⟩ :=
    Opener.exists_behind_literal hClose top below rest
  have hlength : behind.length ≤ rest.length := by rw [hsplit]; simp
  have hscan := (h behind hlength).behind (front ++ mark) body
  rw [← hsplit, List.append_assoc, Text.size_append, hbody] at hscan
  rw [Text.behind_eq (List.append_assoc front mark rest).symm (Text.size_append front mark)]
  show (do scan _ (_ + (← scanInner rest 0))) = _
  rw [hInner.start, hsize, hbody, ← Nat.add_assoc]
  exact hscan

end Reads

/-- The scan of a quoted text is never refused. -/
theorem quotedEnd_reads (close : Char) (rest : Text) :
    Reads (quotedEnd close) (.quote close) [] rest := by
  induction hn : rest.length using Nat.strongRecOn generalizing rest with
  | ind n ih =>
    subst hn
    intro front
    rw [quotedEnd, Text.behind_eq rfl rfl]
    cases rest with
    | nil => simp [Opener.scanSize_nil]
    | cons c rest =>
      have hlater : ∀ b : Text, b.length < rest.length + 1 →
          Reads (quotedEnd close) (.quote close) [] b := fun b hb => ih b.length hb b rfl
      simp only
      by_cases hescape : c = '\\'
      · subst hescape
        exact Reads.escape hlater front
      by_cases hclose : c = close
      · rw [if_neg hescape, if_pos hclose, Opener.scanSize_close hescape (by simp)]
        simp [Opener.step?, Opener.move, hclose]
      · rw [if_neg hescape, if_neg hclose]
        refine (hlater rest (Nat.lt_succ_self _)).next hescape (by simp) ?_ front
        simp [Opener.step?, Opener.move, hclose]

/-- Neither the scan of a template nor that of an expression is refused in front of the text. -/
structure Scanned (rest : Text) : Prop where
  template : Reads templateEnd .template [] rest
  expression : ∀ depth, Reads (expressionEnd (depth + 1)) .brace (List.replicate depth .brace) rest

theorem Scanned.nil : Scanned [] where
  template front := by
    rw [templateEnd, Text.behind_eq rfl rfl]
    simp [Opener.scanSize_nil]
  expression depth front := by
    rw [expressionEnd, Text.behind_eq rfl rfl]
    simp [Opener.scanSize_nil]

section Steps

variable {c : Char} {rest : Text} (hLater : ∀ b : Text, b.length < rest.length + 1 → Scanned b)
include hLater

theorem templateEnd_reads_cons : Reads templateEnd .template [] (c :: rest) := by
  intro front
  rw [templateEnd, Text.behind_eq rfl rfl]
  simp only
  by_cases hescape : c = '\\'
  · subst hescape
    exact Reads.escape (fun b hb => (hLater b hb).template) front
  by_cases hclose : c = '\x60'
  · rw [if_neg hescape, if_pos hclose, Opener.scanSize_close hescape (by simp [hclose])]
    simp [Opener.step?, Opener.move, hclose]
  rw [if_neg hescape, if_neg hclose, embedsAt_append]
  by_cases hembeds : c = '$' ∧ rest.head? = some '{'
  · obtain ⟨rfl, hhead⟩ := hembeds
    obtain ⟨rest, rfl⟩ := List.head?_eq_some_iff.1 hhead
    rw [decide_eq_true ⟨rfl, hhead⟩, Opener.scanSize_embedded]
    have hlater : ∀ b : Text, b.length ≤ rest.length → Scanned b := fun b hb =>
      hLater b (by rw [List.length_cons]; omega)
    exact Reads.literal (fun b hb => (hlater b hb).template)
      ((hlater rest (Nat.le_refl _)).expression 0) rfl front ['$', '{'] rfl
  · rw [decide_eq_false hembeds]
    refine (hLater rest (Nat.lt_succ_self _)).template.next hescape ?_ ?_ front
    · exact fun _ hc hhead => hembeds ⟨hc, hhead⟩
    · simp [Opener.step?, Opener.move, hclose]

theorem expressionEnd_reads_cons (depth : Nat) :
    Reads (expressionEnd (depth + 1)) .brace (List.replicate depth .brace) (c :: rest) := by
  have hlater : ∀ b : Text, b.length ≤ rest.length → Scanned b := fun b hb =>
    hLater b (Nat.lt_succ_of_le hb)
  have hrest := hlater rest (Nat.le_refl _)
  intro front
  rw [expressionEnd, Text.behind_eq rfl rfl]
  simp only
  by_cases hopen : c = '{'
  · subst hopen
    exact (hrest.expression (depth + 1)).next (by decide) (by simp) rfl front
  by_cases hclose : c = '}'
  · subst hclose
    cases depth with
    | zero =>
      rw [Opener.scanSize_close (by decide) (by simp) rfl]
      rfl
    | succ depth => exact (hrest.expression depth).next (by decide) (by simp) rfl front
  by_cases htick : c = '\x60'
  · subst htick
    rw [Opener.scanSize_step (s := (.template, .brace :: List.replicate depth .brace)) (by decide)
      (by simp) rfl]
    exact Reads.literal (fun b hb => (hlater b hb).expression depth) hrest.template rfl front
      ['\x60'] rfl
  by_cases hquote : c = '\x27' ∨ c = '\x22'
  · have hone : c.utf8Size = 1 := by rcases hquote with rfl | rfl <;> rfl
    have hescape : c ≠ '\\' := by rcases hquote with rfl | rfl <;> decide
    rw [if_neg hopen, if_neg hclose, if_neg htick, if_pos hquote,
      Opener.scanSize_step (s := (.quote c, .brace :: List.replicate depth .brace)) hescape
        (by simp) (by simp [Opener.step?, Opener.move, hopen, hclose, htick, hquote]), hone]
    exact Reads.literal (fun b hb => (hlater b hb).expression depth) (quotedEnd_reads c rest) hone
      front [c] hone
  by_cases hescape : c = '\\'
  · subst hescape
    exact Reads.escape (fun b hb => (hLater b hb).expression depth) front
  · rw [if_neg hopen, if_neg hclose, if_neg htick, if_neg hquote, if_neg hescape]
    refine (hrest.expression depth).next hescape (by simp) ?_ front
    simp [Opener.step?, Opener.move, hopen, hclose, htick, hquote]

end Steps

/-- The scans of templates and expressions are never refused. The induction is on what is left, not
on the offset, which starts again at zero inside a nested literal. -/
theorem scanned (rest : Text) : Scanned rest := by
  induction hn : rest.length using Nat.strongRecOn generalizing rest with
  | ind n ih =>
    subst hn
    cases rest with
    | nil => exact .nil
    | cons c rest =>
      have hlater : ∀ b : Text, b.length < rest.length + 1 → Scanned b := fun b hb =>
        ih b.length hb b rfl
      exact ⟨templateEnd_reads_cons hlater, expressionEnd_reads_cons hlater⟩

/-- The sizes of literals, in every text. Scans by byte offsets return them and are never refused,
and where the bytes are read one by one they count the same; each size lies within the text and
between characters. -/
theorem literal_ends (t : Text) :
    (∀ quote : Char, quote.toNat < 128 →
      quotedEnd quote t 0 = .ok ((Opener.quote quote).literalSize t) ∧
        t.Cuts ((Opener.quote quote).literalSize t)) ∧
    (templateEnd t 0 = .ok (Opener.template.literalSize t) ∧
      t.Cuts (Opener.template.literalSize t)) ∧
    (expressionEnd 1 t 0 = .ok (Opener.brace.literalSize t) ∧
      t.Cuts (Opener.brace.literalSize t)) ∧
    (blockCommentLength t.octets = blockCommentSize t ∧ t.Cuts (blockCommentSize t)) ∧
    (lineCommentLength t.octets = lineCommentSize t ∧ t.Cuts (lineCommentSize t)) ∧
    (numberLength t.octets = numberSize t ∧ t.Cuts (numberSize t)) := by
  have hcuts : ∀ o : Opener, o.close.utf8Size = 1 → t.Cuts (o.literalSize t) := by
    intro o hclose
    rw [o.literalSize_eq hclose]
    exact Text.cuts_take t _
  obtain ⟨htemplate, hexpression⟩ := scanned t
  exact ⟨fun quote hquote =>
      ⟨(quotedEnd_reads quote t).start, hcuts (.quote quote) (Text.utf8Size_of_lt hquote)⟩,
    ⟨htemplate.start, hcuts .template rfl⟩, ⟨(hexpression 0).start, hcuts .brace rfl⟩,
    ⟨blockCommentLength_octets t, Text.cuts_take t _⟩,
    ⟨lineCommentLength_octets t, Text.cuts_take t _⟩,
    ⟨numberLength_octets t, Text.cuts_take t _⟩⟩

/-- An escape takes a character of three bytes out of account, and then the quote is closed. -/
theorem literal_ends_escaped :
    quotedEnd '\x27' ['é', '\\', '€', '\x27', 'x'] 0 = .ok 7 ∧
      Text.Cuts ['é', '\\', '€', '\x27', 'x'] 7 := by
  have hsize : (Opener.quote '\x27').literalSize ['é', '\\', '€', '\x27', 'x'] = 7 := by decide
  have hends := (literal_ends ['é', '\\', '€', '\x27', 'x']).1 '\x27' (by decide)
  rwa [hsize] at hends

end Literal

end BindBlocks
