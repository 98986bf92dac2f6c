import BindBlocks.Proofs.Lexing

/-! The tokens of a text as pieces of it. A token starts where the one before it stops, and
`ReadOff` says of a single token that its span is the place of its text. The end of a literal is
found by a scan that counts bytes behind the opening characters; `Scan` ties that count to the
characters, so that no scan stops inside a character or beyond the text. -/

namespace BindBlocks

namespace Opener

/-- The character that closes an opener. -/
def close : Opener → Char
  | .quote close => close
  | .template => '\x60'
  | .brace => '}'

theorem eq_close_of_move {o : Opener} {c : Char} (h : o.move c = .leave) : c = o.close := by
  cases o with
  | quote | template =>
    simp only [move] at h
    split_ifs at h with hclose
    exact hclose
  | brace =>
    simp only [move] at h
    split_ifs at h with _ hclose
    exact hclose

/-- The first `n` characters are all of the text, or a character that closes the opener follows
them. -/
def Ends (o : Opener) (t : Text) (n : Nat) : Prop :=
  n = t.length ∨ ∃ front rest, t = front ++ o.close :: rest ∧ front.length = n

theorem Ends.prepend {o : Opener} {t : Text} {n : Nat} (h : o.Ends t n) (front : Text) :
    o.Ends (front ++ t) (front.length + n) := by
  rcases h with rfl | ⟨middle, rest, rfl, rfl⟩
  · exact .inl List.length_append.symm
  · exact .inr ⟨front ++ middle, rest, (List.append_assoc ..).symm, List.length_append⟩

/-- A body ends with the text, or before the character that closes the outermost opener. -/
theorem bodyLength_ends (top : Opener) (below : List Opener) (t : Text) :
    (below.getLastD top).Ends t (bodyLength top below t) := by
  fun_induction bodyLength top below t with
  | case1 => exact .inl rfl
  | case2 => exact .inl rfl
  | case3 top below c t ih => exact ih.prepend ['\\', c]
  | case4 below t ih =>
    rw [List.getLastD_cons] at ih
    exact ih.prepend ['$', '{']
  | case5 top below c t _ _ _ _ ih => exact ih.prepend [c]
  | case6 top below c t _ _ _ inner _ ih =>
    rw [List.getLastD_cons] at ih
    exact ih.prepend [c]
  | case7 top c t _ _ _ hleave =>
    rw [eq_close_of_move hleave]
    exact .inr ⟨[], t, rfl, rfl⟩
  | case8 top c t _ _ _ hleave outer rest ih =>
    rw [List.getLastD_cons]
    exact ih.prepend [c]

/-- The size of a literal with a closing character of one byte is that of its characters. -/
theorem literalSize_eq {o : Opener} (hClose : o.close.utf8Size = 1) (t : Text) :
    o.literalSize t = Text.size (t.take (o.literalLength t)) := by
  rw [literalSize, literalLength]
  rcases bodyLength_ends o [] t with hall | ⟨front, rest, hsplit, hlength⟩
  · rw [hall, Nat.min_eq_right (Nat.le_add_right _ _)]
    simp
  · rw [List.getLastD_nil] at hsplit
    have hle : front.length + 1 ≤ (front ++ o.close :: rest).length := by simp
    rw [← hlength, hsplit, if_pos (Nat.lt_of_succ_le hle), Nat.min_eq_left hle, List.take_left,
      List.take_length_add_append]
    simp [hClose]

end Opener

namespace Token

/-- How the end of a literal is found: the bytes that open it, and a measure, in bytes, of what
belongs to it in the text behind them. -/
structure Scan where
  opening : Nat
  measure : Text → Nat

/-- The scan of a token; words, marks and blanks have none. -/
def scan? (token : Token) : Option Scan :=
  match token.kind, token.text with
  | .string, quote :: _ => some ⟨1, (Opener.quote quote).literalSize⟩
  | .template, _ => some ⟨1, Opener.template.literalSize⟩
  | .number, _ => some ⟨1, Literal.numberSize⟩
  | .lineComment, _ => some ⟨2, Literal.lineCommentSize⟩
  | .blockComment, _ => some ⟨2, Literal.blockCommentSize⟩
  | _, _ => none

/-- The token is read off the text at its span: it is not empty, its bounds lie between characters
and have 32 bits, and its scan, if it has one, starts between characters and stops where the token
does. -/
structure ReadOff (t : Text) (token : Token) : Prop where
  filled : token.span.start < token.span.stop
  fits : token.span.stop < Offset.bound
  start : t.isBoundary token.span.start = true
  stop : t.isBoundary token.span.stop = true
  text : token.span.slice t = .ok token.text
  single : token.kind = .other → ∃ c, token.text = [c]
  scan : ∀ s, token.scan? = some s →
    ∃ rest, Text.slice t (token.span.start + s.opening) (Text.size t) = .ok rest ∧
      token.span.start + s.opening + s.measure rest = token.span.stop

theorem nameKind_cases (name : Text) :
    nameKind name = .gen ∨ nameKind name = .function ∨ nameKind name = .name := by
  unfold nameKind
  split_ifs <;> simp

theorem markLexeme_other {c : Char} {t : Text} :
    (markLexeme c t).1 = .other → (markLexeme c t).2 = 0 := by
  fun_cases markLexeme c t <;> simp

theorem lexeme_other {c : Char} {t : Text} : (lexeme c t).1 = .other → (lexeme c t).2 = 0 := by
  fun_cases lexeme c t with
  | case3 _ _ _ rest =>
    intro h
    rcases nameKind_cases (c :: rest) with hkind | hkind | hkind <;>
      exact absurd (hkind.symm.trans h) (by decide)
  | case7 => exact markLexeme_other
  | case1 | case2 | case4 | case5 | case6 => exact fun h => absurd h (by simp)

theorem utf8Size_of_isDigit {c : Char} (h : Text.isDigit c = true) : c.utf8Size = 1 := by
  simp only [Text.isDigit, Bool.and_eq_true, decide_eq_true_eq] at h
  have hle : c.val ≤ 57 := h.2
  exact Char.utf8Size_eq_one_iff.2 (UInt32.le_trans hle (by decide))

theorem markLexeme_scan {c : Char} {t : Text} {place : Span} {s : Scan}
    (h : scan? ⟨(markLexeme c t).1, c :: t.take (markLexeme c t).2, place⟩ = some s) :
    ∃ mark rest, c :: t = mark ++ rest ∧ Text.size mark = s.opening ∧
      Text.size (c :: t.take (markLexeme c t).2) = s.opening + s.measure rest := by
  unfold markLexeme at h ⊢
  split at h
  case h_11 rest =>
    obtain rfl := Option.some.inj h
    refine ⟨['/', '/'], rest, rfl, rfl, ?_⟩
    show Text.size ('/' :: ('/' :: rest).take (1 + Literal.lineCommentLength rest)) =
      2 + Literal.lineCommentSize rest
    rw [Nat.add_comm 1, List.take_succ_cons]
    exact (Nat.add_assoc 1 1 _).symm
  case h_12 rest =>
    obtain rfl := Option.some.inj h
    refine ⟨['/', '*'], rest, rfl, rfl, ?_⟩
    show Text.size ('/' :: ('*' :: rest).take (1 + Literal.blockCommentLength rest)) =
      2 + Literal.blockCommentSize rest
    rw [Nat.add_comm 1, List.take_succ_cons]
    exact (Nat.add_assoc 1 1 _).symm
  case h_13 => split at h <;> exact absurd h (by simp [scan?])
  all_goals exact absurd h (by simp [scan?])

/-- A scan measures the rest of the token behind its opening characters. -/
theorem lexeme_scan {c : Char} {t : Text} {place : Span} {s : Scan} :
    scan? ⟨(lexeme c t).1, c :: t.take (lexeme c t).2, place⟩ = some s →
      ∃ mark rest, c :: t = mark ++ rest ∧ Text.size mark = s.opening ∧
        Text.size (c :: t.take (lexeme c t).2) = s.opening + s.measure rest := by
  fun_cases lexeme c t with
  | case1 | case2 => exact fun h => absurd h (by simp [scan?])
  | case3 _ _ _ rest =>
    intro h
    rcases nameKind_cases (c :: rest) with hkind | hkind | hkind <;>
      exact absurd h (by simp [scan?, hkind])
  | case4 _ _ _ hdigit =>
    intro h
    obtain rfl := Option.some.inj h
    have hsize : Text.size [c] = 1 := utf8Size_of_isDigit hdigit
    exact ⟨[c], t, rfl, hsize, congrArg (· + _) hsize⟩
  | case5 _ _ _ _ hquote =>
    intro h
    obtain rfl := Option.some.inj h
    have hsize : c.utf8Size = 1 := by rcases hquote with rfl | rfl <;> rfl
    refine ⟨[c], t, rfl, hsize, ?_⟩
    show Text.size (c :: t.take ((Opener.quote c).literalLength t)) =
      1 + (Opener.quote c).literalSize t
    rw [Opener.literalSize_eq (o := .quote c) hsize, Text.size_cons, hsize]
  | case6 =>
    intro h
    subst_vars
    obtain rfl := Option.some.inj h
    refine ⟨['\x60'], t, rfl, rfl, ?_⟩
    show Text.size ('\x60' :: t.take (Opener.template.literalLength t)) =
      1 + Opener.template.literalSize t
    rw [Opener.literalSize_eq (o := .template) rfl]
    rfl
  | case7 => exact markLexeme_scan

theorem first_text_append (offset : Nat) (c : Char) (t : Text) :
    (first offset c t).text ++ t.drop (lexeme c t).2 = c :: t :=
  congrArg (c :: ·) (List.take_append_drop _ t)

theorem first_readOff {front rest : Text} {c : Char}
    (hFits : Text.size (front ++ c :: rest) < Offset.bound) :
    ReadOff (front ++ c :: rest) (first (Text.size front) c rest) := by
  obtain ⟨text, back, htext, hwhole⟩ : ∃ text back, (first (Text.size front) c rest).text = text ∧
      front ++ c :: rest = front ++ text ++ back :=
    ⟨_, _, rfl, by rw [List.append_assoc, first_text_append]⟩
  have hspan : (first (Text.size front) c rest).span =
      ⟨Text.size front, Text.size front + Text.size text⟩ := by rw [← htext]; rfl
  have hsize := congrArg Text.size hwhole
  rw [Text.size_append (front ++ text), Text.size_append front text] at hsize
  refine ⟨?_, ?_, ?_, ?_, ?_, ?_, ?_⟩
  · have hpos := c.utf8Size_pos
    show Text.size front < Text.size front + (c.utf8Size + _)
    omega
  · rw [hspan]
    show Text.size front + Text.size text < _
    omega
  · exact Text.isBoundary_iff.2 ⟨front, c :: rest, rfl, rfl⟩
  · rw [hwhole, hspan]
    exact Text.isBoundary_iff.2 ⟨front ++ text, back, rfl, Text.size_append front text⟩
  · rw [hwhole, hspan, htext]
    exact Text.slice_append front text back
  · intro hkind
    refine ⟨c, ?_⟩
    show c :: rest.take (lexeme c rest).2 = [c]
    rw [lexeme_other hkind, List.take_zero]
  · intro s hs
    obtain ⟨mark, body, hsplit, hmark, hmeasure⟩ := lexeme_scan hs
    rw [show c :: rest.take (lexeme c rest).2 = text from htext] at hmeasure
    refine ⟨body, ?_, ?_⟩
    · rw [Text.slice_eq_ok_iff]
      refine ⟨front ++ mark, [], ?_, ?_, ?_⟩
      · rw [hsplit, List.append_nil, List.append_assoc]
      · rw [Text.size_append, hmark]
        rfl
      · rw [hsplit, Text.size_append, Text.size_append, hmark, ← Nat.add_assoc]
        rfl
    · rw [hspan]
      show Text.size front + s.opening + s.measure body = Text.size front + Text.size text
      omega

/-- Where each token stops, the next one starts. -/
theorem Tiled.starts {offset : Nat} {ts : List Token} (h : Tiled offset ts) :
    ts.map (·.span.start) ++ [offset + Text.size (ts.flatMap (·.text))] =
      offset :: ts.map (·.span.stop) := by
  induction ts generalizing offset with
  | nil => rfl
  | cons t ts ih =>
    obtain ⟨hspan, hrest⟩ := h
    rw [List.map_cons, List.cons_append, List.flatMap_cons, Text.size_append, ← Nat.add_assoc,
      ih hrest, List.map_cons, hspan]

/-- The tokens of a text cut it into pieces: the first starts at its start, each of the others where
the one before it stops, and the last stops at its end. Each of them is read off the text. -/
theorem ofText_partition (t : Text) (hFits : Text.size t < Offset.bound) :
    (ofText t).map (·.span.start) ++ [Text.size t] = 0 :: (ofText t).map (·.span.stop) ∧
      ∀ token ∈ ofText t, token.ReadOff t := by
  rw [ofText_eq hFits]
  constructor
  · obtain ⟨htiled, htext⟩ := ofTextAt_tiled 0 t
    have hstarts := htiled.starts
    rwa [htext, Nat.zero_add] at hstarts
  · intro token htoken
    obtain ⟨front, c, rest, rfl, rfl⟩ := eq_first_of_mem htoken
    rw [Nat.zero_add]
    exact first_readOff hFits

theorem ofText_partition_unclosed :
    ofText "€1e+é\x60$\x7b'é".toList =
        [⟨.other, ['€'], ⟨0, 3⟩⟩, ⟨.number, "1e+".toList, ⟨3, 6⟩⟩, ⟨.other, ['é'], ⟨6, 8⟩⟩,
          ⟨.template, "\x60$\x7b'é".toList, ⟨8, 14⟩⟩] ∧
      ∀ token ∈ ofText "€1e+é\x60$\x7b'é".toList, token.ReadOff "€1e+é\x60$\x7b'é".toList :=
  ⟨by decide +kernel, (ofText_partition "€1e+é\x60$\x7b'é".toList (by decide)).2⟩

end Token

end BindBlocks
