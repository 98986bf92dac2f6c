import BindBlocks.Expansion.Basic
import BindBlocks.Proofs.BlockContent
import BindBlocks.Proofs.TokenEnds

/-! What a glance misses. Blocks are found on tokens and the glance looks at characters, where it
wants the keyword to start a word. A keyword that is a token may still follow a character of a word:
the last one of a number, or one that no rule for tokens covers. No other token ends with such a
character in front of a keyword, so a block with nothing but white space between its keyword and its
brace is only missed there. -/

namespace BindBlocks

namespace Text

/-- Only the first four ranges of word characters begin below 128. -/
theorem wordRanges_high : ((wordRanges.drop 4).all fun r => decide (128 ≤ r.1)) = true := by
  decide +kernel

/-- The word characters below 128 are parts of names. -/
theorem isNamePart_of_isWord {c : Char} (hLow : c.toNat < 128) (h : isWord c = true) :
    Token.isNamePart c = true := by
  obtain ⟨r, hr, hrange⟩ := List.any_eq_true.1 h
  simp only [Bool.and_eq_true, decide_eq_true_eq] at hrange
  rw [← List.take_append_drop 4 wordRanges, List.mem_append] at hr
  have hlow : wordRanges.take 4 = [(0x30, 0x39), (0x41, 0x5a), (0x5f, 0x5f), (0x61, 0x7a)] := rfl
  rcases hr with hr | hr
  · rw [hlow] at hr
    simp only [List.mem_cons, List.not_mem_nil, or_false] at hr
    simp only [Token.isNamePart, Token.isNameStart, isDigit, Bool.or_eq_true, Bool.and_eq_true,
      decide_eq_true_eq, Char.le_def, UInt32.le_iff_toNat_le]
    rcases hr with rfl | rfl | rfl | rfl
    · exact .inr hrange
    · exact .inl (.inl (.inl (.inl hrange)))
    · exact .inl (.inl (.inr (Char.toNat_inj.1 (Nat.le_antisymm hrange.2 hrange.1))))
    · exact .inl (.inl (.inl (.inr hrange)))
  · have hhigh := List.all_eq_true.1 wordRanges_high r hr
    simp only [decide_eq_true_eq] at hhigh
    omega

theorem not_isWord_of_mem_delimiters {c : Char} (h : c ∈ Token.delimiters) : isWord c = false := by
  have hall : (Token.delimiters.all fun d => decide (d.toNat < 128) && !Token.isNamePart d) =
      true := by decide +kernel
  have hc := List.all_eq_true.1 hall c h
  simp only [Bool.and_eq_true, decide_eq_true_eq, Bool.not_eq_true'] at hc
  by_contra hword
  rw [isNamePart_of_isWord hc.1 (by simpa using hword)] at hc
  exact absurd hc.2 (by decide)

end Text

namespace Block

/-- A glance sees a keyword that starts a word, with a brace behind it after white space. -/
theorem glanceAfter_iff {previous : Option Char} {t : Text} :
    glanceAfter previous t = true ↔ ∃ front rest, t = front ++ rest ∧
      startsPlainly rest = true ∧ (front.getLast?.or previous).any Text.isWord = false := by
  induction t generalizing previous with
  | nil =>
    refine iff_of_false (by simp [glanceAfter]) ?_
    rintro ⟨front, rest, hsplit, hplain, -⟩
    rw [(List.append_eq_nil_iff.1 hsplit.symm).2] at hplain
    exact absurd hplain (by decide)
  | cons c t ih =>
    have hlast : ∀ front : Text,
        (c :: front).getLast?.or previous = front.getLast?.or (some c) := by
      intro front
      rw [List.getLast?_cons]
      cases front.getLast? <;> rfl
    rw [glanceAfter, Bool.or_eq_true_iff, Bool.and_eq_true_iff, Bool.not_eq_true', ih]
    constructor
    · rintro (⟨hplain, hword⟩ | ⟨front, rest, rfl, hplain, hword⟩)
      · exact ⟨[], c :: t, rfl, hplain, hword⟩
      · exact ⟨c :: front, rest, rfl, hplain, by rw [hlast, hword]⟩
    · rintro ⟨front, rest, hsplit, hplain, hword⟩
      cases front with
      | nil =>
        obtain rfl : c :: t = rest := hsplit
        exact .inl ⟨hplain, hword⟩
      | cons d front =>
        obtain ⟨rfl, rfl⟩ := List.cons.inj hsplit
        exact .inr ⟨front, rest, rfl, hplain, by rw [← hlast, hword]⟩

theorem glance_iff {t : Text} :
    glance t = true ↔ ∃ front rest, t = front ++ rest ∧
      startsPlainly rest = true ∧ front.getLast?.any Text.isWord = false := by
  simp [glance, glanceAfter_iff]

/-- Only white space stands between the keyword of the block and its brace. -/
def PlainIn (t : Text) (b : Block) : Prop :=
  ∃ middle, Text.slice t (b.start + 3) b.opening = .ok middle ∧
    ∀ c ∈ middle, Text.isWhiteSpace c = true

/-- The keyword of the block stands directly behind a character of a word, which ends a number or is
covered by no rule for tokens. -/
def GluedIn (t : Text) (b : Block) : Prop :=
  ∃ token ∈ Token.ofText t, token.span.stop = b.start ∧
    (token.kind = .number ∨ token.kind = .other) ∧
    ∃ u d, token.text = u ++ [d] ∧ Text.isWord d = true

theorem exists_cons_of_startsPlainly {t : Text} (h : startsPlainly t = true) :
    ∃ v, t = 'g' :: v := by
  unfold startsPlainly at h
  split at h
  · exact ⟨_, rfl⟩
  · exact absurd h (by decide)

section Fits

variable {t : Text} {bs : List Block} {b : Block} (hFits : Text.size t < Offset.bound)
  (hBlocks : ofText t = .ok bs) (hb : b ∈ bs)
include hFits hBlocks hb

/-- A plain block starts plainly. -/
theorem exists_plain_start (hPlain : b.PlainIn t) :
    ∃ front rest, t = front ++ rest ∧ Text.size front = b.start ∧ startsPlainly rest = true := by
  obtain ⟨bs', hblocks', hlaid⟩ := ofText_laid hFits
  obtain rfl := Except.ok.inj (hBlocks.symm.trans hblocks')
  obtain ⟨front, middle, back, hsplit, hstart, hopening, -⟩ := hlaid.exists_split hb
  obtain ⟨white, hslice, hwhite⟩ := hPlain
  rw [Nat.zero_add] at hstart
  have hwhole : t =
      front ++ ['g', 'e', 'n'] ++ middle ++ ('{' :: (b.content ++ ['}'] ++ back)) := by
    rw [hsplit]
    simp only [List.append_assoc, List.cons_append, List.nil_append]
  have hmiddle : Text.slice t (b.start + 3) b.opening = .ok middle := by
    have hgen : Text.size (front ++ ['g', 'e', 'n']) = b.start + 3 := by
      rw [Text.size_append, hstart]
      rfl
    have hbrace : b.start + 3 + Text.size middle = b.opening := by
      rw [hopening, Text.size_append, ← Nat.add_assoc]
      rfl
    rw [hwhole, ← hgen, ← hbrace, ← hgen]
    exact Text.slice_append _ _ _
  obtain rfl : white = middle := Except.ok.inj (hslice.symm.trans hmiddle)
  refine ⟨front, ['g', 'e', 'n'] ++ white ++ ('{' :: (b.content ++ ['}'] ++ back)), ?_,
    hstart.symm, ?_⟩
  · rw [hwhole]
    simp only [List.append_assoc]
  · have hdrop : (white ++ '{' :: (b.content ++ ['}'] ++ back)).dropWhile Text.isWhiteSpace =
        '{' :: (b.content ++ ['}'] ++ back) := by
      rw [List.dropWhile_append_of_pos hwhite]
      rfl
    show startsPlainly ('g' :: 'e' :: 'n' :: (white ++ '{' :: (b.content ++ ['}'] ++ back))) = true
    rw [startsPlainly, hdrop]
    rfl

/-- A keyword that is not the first token starts where another one stops. -/
theorem exists_previous (hStart : 0 < b.start) :
    ∃ token ∈ Token.ofTextAt 0 t, token.span.stop = b.start := by
  obtain ⟨before, keyword, back, rest, f, htokens, -, hafter, hblock⟩ :=
    exists_keyword hFits hBlocks hb
  have hkeyword : keyword.span.start = b.start := by
    obtain ⟨trivia, brace, inner, close, -, -, -, -, rfl⟩ := Frame.after?_cases hafter
    obtain ⟨content, -, hb⟩ := Fault.bind_eq_ok_iff.1 hblock
    rw [← Except.ok.inj hb]
  have htiled := (Token.ofTextAt_tiled 0 t).1
  rw [htokens] at htiled
  rcases List.eq_nil_or_concat before with rfl | ⟨before, token, rfl⟩
  · have hzero : keyword.span.start = 0 := congrArg Span.start htiled.1
    omega
  · rw [List.concat_eq_append] at htiled htokens
    obtain ⟨hbefore, hspan, -⟩ := Token.tiled_append.1 htiled
    obtain ⟨-, hlast, -⟩ := Token.tiled_append.1 hbefore
    refine ⟨token, by simp [htokens], ?_⟩
    rw [← hkeyword, hspan, hlast, List.flatMap_append, Text.size_append, List.flatMap_singleton,
      Nat.add_assoc]

end Fits

/-- A token that ends with a character of a word in front of a keyword is a number or no rule covers
it. -/
theorem kind_of_isWord {front rest u : Text} {d : Char} {token : Token}
    (h : token ∈ Token.ofTextAt 0 (front ++ rest)) (hPlain : startsPlainly rest = true)
    (hStop : token.span.stop = Text.size front) (hText : token.text = u ++ [d])
    (hWord : Text.isWord d = true) : token.kind = .number ∨ token.kind = .other := by
  obtain ⟨v, rfl⟩ := exists_cons_of_startsPlainly hPlain
  have hnext : token.span.stop < Text.size (front ++ 'g' :: v) := by
    have := 'g'.utf8Size_pos
    rw [hStop, Text.size_append, Text.size_cons]
    omega
  obtain ⟨w, c, z, x, y, hsplit, htext, hspan, hlexeme⟩ := Token.exists_next h hnext
  have hwhole : front ++ 'g' :: v = (w ++ c :: z) ++ x :: y := by simpa using hsplit
  have hsize : Text.size front = Text.size (w ++ c :: z) := by
    rw [← hStop, hspan, Text.size_append]
  obtain ⟨-, hrest⟩ := Text.append_inj_of_size hwhole hsize
  have hx : Token.isNamePart x = true := by
    rw [← (List.cons.inj hrest).1]
    decide
  by_contra hkind
  rw [not_or] at hkind
  have hmem : d ∈ Token.delimiters :=
    Token.last_of_lexeme hx (htext.symm.trans hText) (congrArg Prod.snd hlexeme)
      (by rw [hlexeme]; exact hkind.1) (by rw [hlexeme]; exact hkind.2)
  rw [Text.not_isWord_of_mem_delimiters hmem] at hWord
  exact absurd hWord (by decide)

/-- A plain block is glued to the text in front of it exactly if that ends with a character of a
word. -/
theorem gluedIn_iff {front rest : Text} {bs : List Block} {b : Block}
    (hFits : Text.size (front ++ rest) < Offset.bound) (hBlocks : ofText (front ++ rest) = .ok bs)
    (hb : b ∈ bs) (hStart : Text.size front = b.start) (hPlain : startsPlainly rest = true) :
    b.GluedIn (front ++ rest) ↔ front.getLast?.any Text.isWord = true := by
  rw [GluedIn, Token.ofText_eq hFits]
  constructor
  · rintro ⟨token, hmem, hstop, -, u, d, htext, hword⟩
    obtain ⟨w, u', d', hfront, htext'⟩ := Token.exists_last hmem (hstop.trans hStart.symm)
    obtain ⟨-, hchar⟩ := List.append_inj' (htext.symm.trans htext') rfl
    rw [hfront, List.getLast?_concat, Option.any_some, ← (List.cons.inj hchar).1, hword]
  · intro hword
    have hpos : 0 < b.start := by
      rw [← hStart]
      refine Nat.pos_of_ne_zero fun hzero => ?_
      rw [Text.size_eq_zero.1 hzero] at hword
      exact absurd hword (by simp)
    obtain ⟨token, hmem, hstop⟩ := exists_previous hFits hBlocks hb hpos
    have hend : token.span.stop = Text.size front := hstop.trans hStart.symm
    obtain ⟨w, u, d, hfront, htext⟩ := Token.exists_last hmem hend
    rw [hfront, List.getLast?_concat, Option.any_some] at hword
    exact ⟨token, hmem, hstop, kind_of_isWord hmem hPlain hend htext hword, u, d, htext, hword⟩

/-- A block with nothing but white space between its keyword and its brace is expanded exactly if
the glance sees something. It does unless the keyword is glued to what stands in front of it, and
then only if another keyword in the text starts a word and has a brace behind it. -/
theorem glance_plain_iff (t : Text) (bs : List Block) (b : Block)
    (hFits : Text.size t < Offset.bound) (hBlocks : ofText t = .ok bs) (hMem : b ∈ bs)
    (hPlain : b.PlainIn t) :
    ((∃ cs, Expansion.blocksOf t = .ok cs ∧ b ∈ cs) ↔ glance t = true) ∧
      (glance t = true ↔ ¬ b.GluedIn t ∨
        ∃ front rest, t = front ++ rest ∧ Text.size front ≠ b.start ∧
          startsPlainly rest = true ∧ front.getLast?.any Text.isWord = false) := by
  constructor
  · rw [Expansion.blocksOf]
    split_ifs with hglance
    · exact iff_of_true ⟨bs, hBlocks, hMem⟩ hglance
    · exact iff_of_false (by simp) hglance
  · obtain ⟨front, rest, rfl, hstart, hplain⟩ := exists_plain_start hFits hBlocks hMem hPlain
    rw [gluedIn_iff hFits hBlocks hMem hstart hplain, glance_iff]
    constructor
    · rintro ⟨front', rest', hsplit, hplain', hword⟩
      by_cases hsize : Text.size front' = b.start
      · obtain ⟨rfl, -⟩ := Text.append_inj_of_size hsplit (hstart.trans hsize.symm)
        exact .inl (by simp [hword])
      · exact .inr ⟨front', rest', hsplit, hsize, hplain', hword⟩
    · rintro (hword | ⟨front', rest', hsplit, -, hplain', hword⟩)
      · exact ⟨front, rest, rfl, hplain, by simpa using hword⟩
      · exact ⟨front', rest', hsplit, hplain', hword⟩

/-- The block of `1gen { x <- f() }`. -/
theorem glance_plain_after_number :
    let t := "1gen \x7b x <- f() \x7d".toList
    let b : Block := ⟨1, 5, 17, " x <- f() ".toList⟩
    ofText t = .ok [b] ∧ b.PlainIn t ∧ glance t = false ∧ b.GluedIn t := by
  intro t b
  have hblocks : ofText t = .ok [b] := by decide +kernel
  have hplain : b.PlainIn t :=
    ⟨[' '], by decide +kernel, fun c hc => by rw [List.mem_singleton.1 hc]; rfl⟩
  have hglance : glance t = false := by decide +kernel
  refine ⟨hblocks, hplain, hglance, ?_⟩
  by_contra hfree
  have hseen := (glance_plain_iff t [b] b (by decide) hblocks (List.mem_singleton_self b)
    hplain).2.2 (.inl hfree)
  rw [hglance] at hseen
  exact absurd hseen (by decide)

end Block

end BindBlocks
