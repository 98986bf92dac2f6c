import BindBlocks.Proofs.Tiling

/-! How tokens end. A token that stops before the end of its text has a character behind it, and its
kind says what stands at its end: a literal or a comment has been closed, and every character of a
mark is one that marks are made of. -/

namespace BindBlocks

/-- A literal with a character behind it is closed. -/
theorem Opener.literalLength_closed {o : Opener} {z v : Text} {x : Char}
    (h : o.literalLength (z ++ x :: v) = z.length) : ∃ u, z = u ++ [o.close] := by
  rw [literalLength, List.length_append, List.length_cons] at h
  have hbody : bodyLength o [] (z ++ x :: v) + 1 = z.length := by omega
  rcases bodyLength_ends o [] (z ++ x :: v) with hall | ⟨front, rest, hsplit, hlength⟩
  · rw [List.length_append, List.length_cons] at hall
    omega
  · have hcut : z ++ x :: v = (front ++ [o.close]) ++ rest := by
      rw [hsplit, List.append_assoc, List.getLastD_nil]
      rfl
    have hsame : z.length = (front ++ [o.close]).length := by
      rw [List.length_append, hlength, ← hbody]
      rfl
    exact ⟨front, (List.append_inj hcut hsame).1⟩

/-- A block comment with a character behind it is closed. -/
theorem Literal.blockCommentLength_closed {z v : Text} {x : Char}
    (h : blockCommentLength (z ++ x :: v) = z.length) : ∃ u, z = u ++ ['*', '/'] := by
  induction z with
  | nil => exact absurd h (Nat.ne_of_gt (blockCommentLength_pos (List.cons_ne_nil x v)))
  | cons c z ih =>
    rw [List.cons_append, List.length_cons] at h
    unfold blockCommentLength at h
    split at h
    · rename_i heq
      exact absurd heq (List.cons_ne_nil _ _)
    · rename_i rest heq
      obtain ⟨rfl, hrest⟩ := List.cons.inj heq
      obtain ⟨d, rfl⟩ : ∃ d, z = [d] := List.length_eq_one_iff.1 (by omega)
      exact ⟨[], by rw [(List.cons.inj hrest).1]; rfl⟩
    · rename_i rest _ heq
      obtain ⟨rfl, rfl⟩ := List.cons.inj heq
      obtain ⟨u, rfl⟩ := ih (by omega)
      exact ⟨c :: u, rfl⟩

namespace Token

/-- The characters of marks. -/
def marks : Text := brackets ++ operators.flatten

theorem mem_operators_of_isPrefixOf {c : Char} {t operator : Text} (hMem : operator ∈ operators)
    (hPrefix : operator.isPrefixOf (c :: t) = true) : c ∈ operators.flatten := by
  cases operator with
  | nil => exact absurd hMem (by decide +kernel)
  | cons d operator =>
    obtain rfl : d = c := by
      simp only [List.isPrefixOf, Bool.and_eq_true, beq_iff_eq] at hPrefix
      exact hPrefix.1
    exact List.mem_flatten_of_mem hMem List.mem_cons_self

theorem head_mem_marks {c : Char} {t : Text} :
    (markLexeme c t).1.isVerbatim = false → (markLexeme c t).1 ≠ .other → c ∈ marks := by
  fun_cases markLexeme c t with
  | case13 c t _ _ _ _ _ _ _ _ _ _ _ _ operator hfind =>
    intro _ _
    have hstart := List.find?_some hfind
    exact List.mem_append_right _
      (mem_operators_of_isPrefixOf (List.mem_of_find?_eq_some hfind) hstart)
  | case14 => exact fun _ h => absurd rfl h
  | case11 | case12 => exact fun h => absurd h (by simp [Kind.isVerbatim])
  | _ => exact fun _ _ => by decide +kernel

/-- A mark consists of the characters that marks are made of. -/
theorem mem_marks_of_markLexeme {c x : Char} {t : Text}
    (hk : (markLexeme c t).1.isVerbatim = false) (hOther : (markLexeme c t).1 ≠ .other)
    (hx : x ∈ c :: t.take (markLexeme c t).2) : x ∈ marks := by
  rcases List.mem_cons.1 hx with rfl | hx
  · exact head_mem_marks hk hOther
  · exact List.mem_append_right _ (mem_operators_of_markLexeme hk hx)

/-- The place of a token, and its last character. -/
theorem exists_place {t : Text} {token : Token} (h : token ∈ ofTextAt 0 t) :
    ∃ front u d back, t = front ++ u ++ [d] ++ back ∧ token.text = u ++ [d] ∧
      token.span = ⟨Text.size front, Text.size (front ++ u ++ [d])⟩ := by
  obtain ⟨front, c, rest, rfl, rfl⟩ := eq_first_of_mem h
  rw [Nat.zero_add]
  obtain hnil | ⟨u, d, hlast⟩ := List.eq_nil_or_concat (first (Text.size front) c rest).text
  · exact absurd hnil (List.cons_ne_nil _ _)
  · rw [List.concat_eq_append] at hlast
    refine ⟨front, u, d, rest.drop (lexeme c rest).2, ?_, hlast, ?_⟩
    · rw [List.append_assoc front, ← hlast, List.append_assoc, first_text_append]
    · rw [List.append_assoc front, ← hlast, Text.size_append]
      rfl

theorem start_lt_stop {t : Text} {token : Token} (h : token ∈ ofTextAt 0 t) :
    token.span.start < token.span.stop := by
  obtain ⟨front, u, d, back, -, -, hspan⟩ := exists_place h
  have := d.utf8Size_pos
  rw [hspan]
  simp only [Text.size_append, Text.size_cons]
  omega

/-- A text that stops where a token does ends with its last character. -/
theorem exists_last {front rest : Text} {token : Token} (h : token ∈ ofTextAt 0 (front ++ rest))
    (hStop : token.span.stop = Text.size front) :
    ∃ w u d, front = w ++ u ++ [d] ∧ token.text = u ++ [d] := by
  obtain ⟨w, u, d, back, hplace, htext, hspan⟩ := exists_place h
  have hsize : Text.size front = Text.size (w ++ u ++ [d]) := by rw [← hStop, hspan]
  exact ⟨w, u, d, (Text.append_inj_of_size hplace hsize).1, htext⟩

/-- A token that stops before the end of a text, with the character behind it. -/
theorem exists_next {t : Text} {token : Token} (h : token ∈ ofTextAt 0 t)
    (hNext : token.span.stop < Text.size t) :
    ∃ front c z x v, t = front ++ c :: (z ++ x :: v) ∧ token.text = c :: z ∧
      token.span = ⟨Text.size front, Text.size front + Text.size (c :: z)⟩ ∧
      lexeme c (z ++ x :: v) = (token.kind, z.length) := by
  obtain ⟨front, c, rest, rfl, rfl⟩ := eq_first_of_mem h
  rw [Nat.zero_add] at hNext ⊢
  have hsplit := List.take_append_drop (lexeme c rest).2 rest
  cases hdrop : rest.drop (lexeme c rest).2 with
  | nil =>
    rw [hdrop, List.append_nil] at hsplit
    simp only [first, hsplit, Text.size_append] at hNext
    omega
  | cons x v =>
    rw [hdrop] at hsplit
    have hlength : (rest.take (lexeme c rest).2).length = (lexeme c rest).2 := by
      refine List.length_take_of_le (Nat.le_of_lt (Nat.lt_of_not_le fun hle => ?_))
      rw [List.drop_eq_nil_of_le hle] at hdrop
      exact absurd hdrop (by simp)
    exact ⟨front, c, rest.take (lexeme c rest).2, x, v, by rw [hsplit], rfl, rfl,
      by rw [hsplit, hlength]; rfl⟩

/-- A mark or a comment with a character behind it on its line ends with a character of marks. -/
theorem last_of_mark {c x d : Char} {z v u : Text} (hx : Text.isLineEnd x = false)
    (hLength : (markLexeme c (z ++ x :: v)).2 = z.length)
    (hOther : (markLexeme c (z ++ x :: v)).1 ≠ .other) (hLast : c :: z = u ++ [d]) :
    d ∈ marks := by
  cases hk : (markLexeme c (z ++ x :: v)).1.isVerbatim with
  | true =>
    obtain ⟨w, rfl, rfl, hlength⟩ := blockComment_of_verbatim hx hLength hk
    obtain ⟨w, rfl⟩ := Literal.blockCommentLength_closed hlength
    have hslash : ('/' :: '*' :: (w ++ ['*'])) ++ ['/'] = u ++ [d] := by rw [← hLast]; simp
    obtain ⟨-, hsame⟩ := List.append_inj' hslash rfl
    rw [← (List.cons.inj hsame).1]
    decide +kernel
  | false =>
    have htake : (z ++ x :: v).take (markLexeme c (z ++ x :: v)).2 = z := by
      rw [hLength, List.take_left]
    refine mem_marks_of_markLexeme hk hOther ?_
    rw [htake, hLast]
    simp

theorem markLexeme_unquoted {c : Char} {t : Text} :
    (markLexeme c t).1 ≠ .string ∧ (markLexeme c t).1 ≠ .template := by
  fun_cases markLexeme c t <;> simp

/-- A string or a template with a character behind it ends with a quote. -/
theorem last_of_quoted {c x : Char} {z v : Text} :
    (lexeme c (z ++ x :: v)).2 = z.length →
      (lexeme c (z ++ x :: v)).1 = .string ∨ (lexeme c (z ++ x :: v)).1 = .template →
      ∃ u q, c :: z = u ++ [q] ∧ (q = '\x27' ∨ q = '\x22' ∨ q = '\x60') := by
  fun_cases lexeme c (z ++ x :: v) with
  | case5 _ _ _ _ hquote =>
    intro hlength _
    obtain ⟨u, rfl⟩ := Opener.literalLength_closed hlength
    exact ⟨c :: u, c, rfl, hquote.imp_right .inl⟩
  | case6 =>
    intro hlength _
    obtain ⟨u, rfl⟩ := Opener.literalLength_closed hlength
    exact ⟨c :: u, '\x60', rfl, .inr (.inr rfl)⟩
  | case3 _ _ _ rest =>
    intro _ hkind
    rcases nameKind_cases (c :: rest) with hname | hname | hname <;>
      simp [hname] at hkind
  | case7 => exact fun _ hkind => absurd hkind (not_or.2 markLexeme_unquoted)
  | case1 | case2 | case4 => exact fun _ hkind => absurd hkind (by simp)

/-- The quotes, the blanks and the characters of marks. -/
def delimiters : Text := ['\x27', '\x22', '\x60', ' ', '\t', '\n', '\r'] ++ marks

theorem mem_delimiters_of_isBlank {c : Char} (h : Text.isBlank c = true) : c ∈ delimiters := by
  rcases Text.isBlank_cases h with rfl | rfl | rfl | rfl <;> decide +kernel

/-- A run of blanks ends with a blank. -/
theorem isBlank_of_run {p : Char → Bool} {c d : Char} {t z u : Text}
    (hp : ∀ x, p x = true → Text.isBlank x = true) (hc : p c = true)
    (hLength : (t.takeWhile p).length = z.length) (hTake : t.take z.length = z)
    (hLast : c :: z = u ++ [d]) : Text.isBlank d = true := by
  have hd : d ∈ c :: z := by simp [hLast]
  rcases List.mem_cons.1 hd with rfl | hd
  · exact hp d hc
  · rw [← hTake, ← hLength, Text.take_length_takeWhile] at hd
    exact hp d (List.mem_takeWhile_imp hd)

/-- A token with a part of a name behind it ends with a delimiter, unless it is a number or no rule
covers it. -/
theorem last_of_lexeme {c x d : Char} {z v u : Text} (hx : isNamePart x = true)
    (hLast : c :: z = u ++ [d]) :
    (lexeme c (z ++ x :: v)).2 = z.length → (lexeme c (z ++ x :: v)).1 ≠ .number →
      (lexeme c (z ++ x :: v)).1 ≠ .other → d ∈ delimiters := by
  have htake : (z ++ x :: v).take z.length = z := List.take_left
  intro hlength hnumber hother
  by_cases hquoted : (lexeme c (z ++ x :: v)).1 = .string ∨ (lexeme c (z ++ x :: v)).1 = .template
  · obtain ⟨w, q, hquote, hq⟩ := last_of_quoted hlength hquoted
    obtain ⟨-, hsame⟩ := List.append_inj' (hLast.symm.trans hquote) rfl
    obtain rfl : d = q := (List.cons.inj hsame).1
    rcases hq with rfl | rfl | rfl <;> decide +kernel
  · revert hlength hnumber hother hquoted
    fun_cases lexeme c (z ++ x :: v) with
    | case1 hgap =>
      intro hlength _ _ _
      refine mem_delimiters_of_isBlank (isBlank_of_run (fun y hy => ?_) hgap hlength htake hLast)
      simp [Text.isBlank, hy]
    | case2 _ hend =>
      intro hlength _ _ _
      refine mem_delimiters_of_isBlank (isBlank_of_run (fun y hy => ?_) hend hlength htake hLast)
      simp [Text.isBlank, hy]
    | case3 => exact fun hlength => absurd hlength (Text.length_takeWhile_ne hx z v)
    | case4 => exact fun _ hnumber => absurd rfl hnumber
    | case5 => exact fun _ _ _ hquoted => absurd (.inl rfl) hquoted
    | case6 => exact fun _ _ _ hquoted => absurd (.inr rfl) hquoted
    | case7 =>
      intro hlength _ hother _
      have hline : Text.isLineEnd x = false := by
        by_contra hend
        rw [isNamePart_of_isBlank (by simp [Text.isBlank, hend])] at hx
        exact absurd hx (by decide)
      exact List.mem_append_right _ (last_of_mark hline hlength hother hLast)

end Token

end BindBlocks
