import BindBlocks.Block
import BindBlocks.Proofs.Boundary
import Mathlib.Data.List.Forall2

/-! Where blocks lie. The tokens of a text fill it without gaps, and the keyword and the braces are
spelled in one way, so what is found on tokens can be said of characters: `Laid` describes a text in
which the given blocks stand one after the other. -/

namespace BindBlocks

/-- A traversal returns exactly if each of its steps does. -/
theorem mapM_eq_ok_iff {α β : Type} {f : α → Except Fault β} {as : List α} {bs : List β} :
    as.mapM f = .ok bs ↔ List.Forall₂ (fun a b => f a = .ok b) as bs := by
  induction as generalizing bs with
  | nil =>
    rw [List.mapM_nil, List.forall₂_nil_left_iff]
    exact ⟨fun h => (Except.ok.inj h).symm, fun h => congrArg Except.ok h.symm⟩
  | cons a as ih =>
    rw [List.mapM_cons, Fault.bind_eq_ok_iff, List.forall₂_cons_left_iff]
    refine exists_congr fun b => ?_
    rw [Fault.bind_eq_ok_iff]
    constructor
    · rintro ⟨ha, bs', has, hbs⟩
      exact ⟨bs', ha, ih.1 has, (Except.ok.inj hbs).symm⟩
    · rintro ⟨bs', ha, has, rfl⟩
      exact ⟨ha, bs', ih.2 has, rfl⟩

theorem exists_of_mem_mapM {α β : Type} {f : α → Except Fault β} {as : List α} {bs : List β}
    (h : as.mapM f = .ok bs) {b : β} (hb : b ∈ bs) : ∃ a ∈ as, f a = .ok b := by
  rw [mapM_eq_ok_iff] at h
  induction h with
  | nil => exact absurd hb (by simp)
  | @cons a b' as bs ha _ ih =>
    rcases List.mem_cons.1 hb with rfl | hb
    · exact ⟨a, List.mem_cons_self, ha⟩
    · obtain ⟨a', ha', hf⟩ := ih hb
      exact ⟨a', List.mem_cons_of_mem a ha', hf⟩

theorem mapM_eq_ok {α β : Type} {f : α → Except Fault β} {g : α → β} {as : List α}
    (h : ∀ a ∈ as, f a = .ok (g a)) : as.mapM f = .ok (as.map g) := by
  rw [mapM_eq_ok_iff, List.forall₂_map_right_iff]
  exact List.forall₂_same.2 h

namespace Token

/-- The tokens follow one another from `offset` on. -/
def Tiled : Nat → List Token → Prop
  | _, [] => True
  | offset, t :: ts =>
    t.span = ⟨offset, offset + Text.size t.text⟩ ∧ Tiled (offset + Text.size t.text) ts

structure Spelled (t : Token) : Prop where
  gen : t.kind = .gen → t.text = ['g', 'e', 'n']
  leftBrace : t.kind = .leftBrace → t.text = ['{']
  rightBrace : t.kind = .rightBrace → t.text = ['}']

theorem tiled_append {offset : Nat} {ts us : List Token} :
    Tiled offset (ts ++ us) ↔
      Tiled offset ts ∧ Tiled (offset + Text.size (ts.flatMap (·.text))) us := by
  induction ts generalizing offset with
  | nil => simp [Tiled]
  | cons t ts ih =>
    rw [List.cons_append, Tiled, Tiled, ih, List.flatMap_cons, Text.size_append, Nat.add_assoc,
      and_assoc]

theorem markLexeme_spelled (c : Char) (t : Text) (place : Span) :
    Spelled ⟨(markLexeme c t).1, c :: t.take (markLexeme c t).2, place⟩ := by
  unfold markLexeme
  split <;> (try split) <;> exact ⟨by simp, by simp, by simp⟩

theorem nameKind_spelled (name : Text) (place : Span) : Spelled ⟨nameKind name, name, place⟩ := by
  unfold nameKind
  by_cases hgen : name = ['g', 'e', 'n']
  · rw [if_pos hgen]
    exact ⟨fun _ => hgen, by simp, by simp⟩
  · rw [if_neg hgen]
    split <;> exact ⟨by simp, by simp, by simp⟩

theorem lexeme_spelled (c : Char) (t : Text) (place : Span) :
    Spelled ⟨(lexeme c t).1, c :: t.take (lexeme c t).2, place⟩ := by
  have hword : t.take (t.takeWhile isNamePart).length = t.takeWhile isNamePart :=
    (List.prefix_iff_eq_take.1 (List.takeWhile_prefix isNamePart)).symm
  unfold lexeme
  split
  · exact ⟨by simp, by simp, by simp⟩
  · split
    · exact ⟨by simp, by simp, by simp⟩
    · split
      · simp only [hword]
        exact nameKind_spelled _ _
      · split
        · exact ⟨by simp, by simp, by simp⟩
        · split
          · exact ⟨by simp, by simp, by simp⟩
          · split
            · exact ⟨by simp, by simp, by simp⟩
            · exact markLexeme_spelled c t place

/-- The tokens of a text fill it. -/
theorem ofTextAt_tiled (offset : Nat) (t : Text) :
    Tiled offset (ofTextAt offset t) ∧ (ofTextAt offset t).flatMap (·.text) = t := by
  fun_induction ofTextAt offset t with
  | case1 offset => exact ⟨trivial, rfl⟩
  | case2 offset c t kind length hlexeme text stop ih =>
    refine ⟨⟨rfl, ih.1⟩, ?_⟩
    rw [List.flatMap_cons, ih.2, List.cons_append, List.take_append_drop]

/-- The token that a text starts with at `offset`. -/
def first (offset : Nat) (c : Char) (t : Text) : Token :=
  let text := c :: t.take (lexeme c t).2
  ⟨(lexeme c t).1, text, ⟨offset, offset + Text.size text⟩⟩

/-- Each token is the first one of the text that it starts. -/
theorem eq_first_of_mem {offset : Nat} {t : Text} {token : Token} (h : token ∈ ofTextAt offset t) :
    ∃ front c rest, t = front ++ c :: rest ∧ token = first (offset + Text.size front) c rest := by
  fun_induction ofTextAt offset t with
  | case1 offset => exact absurd h (by simp)
  | case2 offset c t kind length hlexeme text stop ih =>
    rcases List.mem_cons.1 h with rfl | h
    · refine ⟨[], c, t, rfl, ?_⟩
      simp only [first, hlexeme, Text.size_nil, Nat.add_zero]
      rfl
    · obtain ⟨front, d, rest, hsplit, rfl⟩ := ih h
      refine ⟨text ++ front, d, rest, ?_, ?_⟩
      · rw [List.append_assoc, ← hsplit, List.cons_append, List.take_append_drop]
      · rw [Text.size_append, ← Nat.add_assoc]

theorem ofTextAt_spelled {offset : Nat} {t : Text} {token : Token}
    (h : token ∈ ofTextAt offset t) : token.Spelled := by
  obtain ⟨front, c, rest, -, rfl⟩ := eq_first_of_mem h
  exact lexeme_spelled c rest _

theorem Tiled.within {offset : Nat} {ts : List Token} (h : Tiled offset ts) :
    ∀ t ∈ ts, offset ≤ t.span.start ∧ t.span.start ≤ t.span.stop ∧
      t.span.stop ≤ offset + Text.size (ts.flatMap (·.text)) := by
  intro t ht
  obtain ⟨front, back, rfl⟩ := List.append_of_mem ht
  obtain ⟨-, hspan, -⟩ := tiled_append.1 h
  rw [hspan, List.flatMap_append, List.flatMap_cons, Text.size_append, Text.size_append]
  simp only
  omega

/-- The tokens of a text have their places in it. -/
theorem ofTextAt_within {offset : Nat} {t : Text} {token : Token} (h : token ∈ ofTextAt offset t) :
    offset ≤ token.span.start ∧ token.span.start ≤ token.span.stop ∧
      token.span.stop ≤ offset + Text.size t := by
  obtain ⟨htiled, htext⟩ := ofTextAt_tiled offset t
  have hwithin := htiled.within token h
  rwa [htext] at hwithin

/-- The tokens of a text are at their places exactly if all of its offsets have 32 bits. -/
theorem ofText_eq_iff (t : Text) : ofText t = ofTextAt 0 t ↔ Text.size t < Offset.bound := by
  obtain ⟨htiled, htext⟩ := ofTextAt_tiled 0 t
  rw [ofText]
  constructor
  · intro h
    rcases List.eq_nil_or_concat (ofTextAt 0 t) with hnil | ⟨front, last, hlast⟩
    · rw [← htext, hnil]
      decide
    · rw [List.concat_eq_append] at hlast
      rw [hlast] at htiled htext h
      obtain ⟨-, hspan, -⟩ := tiled_append.1 htiled
      have hstop : last.span.stop = Text.size t := by
        rw [← htext, hspan, List.flatMap_append, Text.size_append, List.flatMap_singleton,
          Nat.zero_add]
      have hnarrow : last.narrow = last :=
        List.map_inj_left.1 (h.trans (List.map_id _).symm) last (by simp)
      rw [← hstop, ← hnarrow]
      exact Nat.mod_lt _ (by decide)
  · intro h
    refine (List.map_congr_left fun token htoken => ?_).trans (List.map_id _)
    have hwithin := ofTextAt_within htoken
    rw [narrow, Span.wrap_of_lt (by omega) (by omega), id]

theorem ofText_eq {t : Text} (h : Text.size t < Offset.bound) : ofText t = ofTextAt 0 t :=
  (ofText_eq_iff t).2 h

end Token

namespace Block

theorem drop_closeIndex? {depth n : Nat} {ts : List Token} (h : closeIndex? depth ts = some n) :
    ∃ close rest, ts.drop n = close :: rest ∧ close.kind = .rightBrace := by
  fun_induction closeIndex? depth ts generalizing n with
  | case1 => exact absurd h (by simp)
  | case2 t ts hkind =>
    obtain rfl := Option.some.inj h
    exact ⟨t, ts, rfl, hkind⟩
  | case3 t ts hkind depth ih =>
    obtain ⟨m, hm, rfl⟩ := Option.map_eq_some_iff.1 h
    exact ih hm
  | case4 depth t ts hkind ih =>
    obtain ⟨m, hm, rfl⟩ := Option.map_eq_some_iff.1 h
    exact ih hm
  | case5 depth t ts hkind hleft hright ih =>
    obtain ⟨m, hm, rfl⟩ := Option.map_eq_some_iff.1 h
    exact ih hm

namespace Frame

/-- A frame is found where blanks and comments, a brace, some tokens and the brace that closes the
first one follow the keyword. -/
theorem after?_eq_some_iff {keyword : Token} {ts rest : List Token} {f : Frame} :
    after? keyword ts = some (f, rest) ↔
      ∃ trivia brace inner close, ts = trivia ++ brace :: (inner ++ close :: rest) ∧
        (∀ t ∈ trivia, t.kind.isTrivia = true) ∧ brace.kind = .leftBrace ∧
        closeIndex? 0 (inner ++ close :: rest) = some inner.length ∧
        f = ⟨keyword, brace, close⟩ := by
  constructor
  · intro h
    unfold after? at h
    split at h
    · exact absurd h (by simp)
    · rename_i brace inner hdrop
      split at h
      · rename_i hbrace
        split at h
        · exact absurd h (by simp)
        · rename_i n hindex
          obtain ⟨close, rest', hclose, hkind⟩ := drop_closeIndex? hindex
          rw [hclose] at h
          simp only [Option.some.injEq, Prod.mk.injEq] at h
          obtain ⟨rfl, rfl⟩ := h
          have hlt : n < inner.length := by
            have hlength := congrArg List.length hclose
            rw [List.length_drop, List.length_cons] at hlength
            omega
          refine ⟨ts.takeWhile (·.kind.isTrivia), brace, inner.take n, close, ?_,
            List.all_eq_true.1 List.all_takeWhile, hbrace, ?_, rfl⟩
          · rw [← hclose, List.take_append_drop, ← hdrop, List.takeWhile_append_dropWhile]
          · rw [← hclose, List.take_append_drop, hindex, List.length_take_of_le (Nat.le_of_lt hlt)]
      · exact absurd h (by simp)
  · rintro ⟨trivia, brace, inner, close, rfl, htrivia, hbrace, hindex, rfl⟩
    have hdrop : (trivia ++ brace :: (inner ++ close :: rest)).dropWhile (·.kind.isTrivia) =
        brace :: (inner ++ close :: rest) := by
      rw [List.dropWhile_append_of_pos htrivia, List.dropWhile_cons_of_neg]
      simp [hbrace, Token.Kind.isTrivia]
    simp only [after?, hdrop, hbrace, if_true, hindex, List.drop_left]

/-- The tokens of a block and the three among them that delimit it. -/
theorem after?_cases {keyword : Token} {ts rest : List Token} {f : Frame}
    (h : after? keyword ts = some (f, rest)) :
    ∃ trivia brace inner close, ts = trivia ++ brace :: (inner ++ close :: rest) ∧
      brace.kind = .leftBrace ∧ close.kind = .rightBrace ∧
      closeIndex? 0 (inner ++ close :: rest) = some inner.length ∧
      f = ⟨keyword, brace, close⟩ := by
  obtain ⟨trivia, brace, inner, close, hsplit, -, hbrace, hindex, hf⟩ := after?_eq_some_iff.1 h
  obtain ⟨close', rest', hdrop, hkind⟩ := drop_closeIndex? hindex
  rw [List.drop_left] at hdrop
  obtain ⟨rfl, -⟩ := List.cons.inj hdrop
  exact ⟨trivia, brace, inner, close, hsplit, hbrace, hkind, hindex, hf⟩

/-- The block of a frame has the texts of the tokens between its braces. -/
theorem block_eq {t front back : Text} (keyword : Token) {brace close : Token} {inner : List Token}
    (hText : t = front ++ inner.flatMap (·.text) ++ back)
    (hOpening : brace.span.start + 1 = Text.size front)
    (hClosing : close.span.start = Text.size (front ++ inner.flatMap (·.text))) :
    block t ⟨keyword, brace, close⟩ =
      .ok ⟨keyword.span.start, brace.span.start, close.span.stop, inner.flatMap (·.text)⟩ := by
  have hslice : Text.slice t (brace.span.start + 1) close.span.start =
      .ok (inner.flatMap (·.text)) := by
    rw [hText, hOpening, hClosing, Text.size_append]
    exact Text.slice_append _ _ _
  simp only [block, hslice]
  rfl

end Frame

/-- The blocks stand one after the other in a text that starts at `offset`. -/
inductive Laid : Nat → List Block → Text → Prop
  | rest (offset : Nat) (t : Text) : Laid offset [] t
  | block {offset : Nat} {b : Block} {bs : List Block} {before middle t : Text} :
      b.start = offset + Text.size before →
      b.opening = b.start + Text.size (['g', 'e', 'n'] ++ middle) →
      b.stop = b.opening + 1 + Text.size b.content + 1 →
      Laid b.stop bs t →
      Laid offset (b :: bs)
        (before ++ (['g', 'e', 'n'] ++ middle ++ ['{'] ++ b.content ++ ['}']) ++ t)

theorem Laid.keep {offset start : Nat} {bs : List Block} {t : Text} (h : Laid offset bs t)
    (front : Text) (hStart : offset = start + Text.size front) : Laid start bs (front ++ t) := by
  cases h with
  | rest => exact .rest start (front ++ t)
  | @block _ b bs before middle t hbegin hopening hstop h =>
    have hbegin' : b.start = start + Text.size (front ++ before) := by
      rw [Text.size_append]
      omega
    simpa only [List.append_assoc] using Laid.block hbegin' hopening hstop h

/-- Each block stands in the text with its keyword, its braces and its content. -/
theorem Laid.exists_split {offset : Nat} {bs : List Block} {t : Text} (h : Laid offset bs t)
    {b : Block} (hb : b ∈ bs) :
    ∃ front middle back,
      t = front ++ (['g', 'e', 'n'] ++ middle ++ ['{'] ++ b.content ++ ['}']) ++ back ∧
      b.start = offset + Text.size front ∧
      b.opening = b.start + Text.size (['g', 'e', 'n'] ++ middle) ∧
      b.stop = b.opening + 1 + Text.size b.content + 1 := by
  induction h with
  | rest => exact absurd hb (by simp)
  | @block offset c bs before middle t hbegin hopening hstop _ ih =>
    rcases List.mem_cons.1 hb with rfl | hb
    · exact ⟨before, middle, t, rfl, hbegin, hopening, hstop⟩
    · obtain ⟨front, middle', back, hsplit, hbegin', hopening', hstop'⟩ := ih hb
      refine ⟨before ++ (['g', 'e', 'n'] ++ middle ++ ['{'] ++ c.content ++ ['}']) ++ front,
        middle', back, by rw [hsplit]; simp only [List.append_assoc], ?_, hopening', hstop'⟩
      have hbrace : Text.size ['{'] = 1 := rfl
      have hbrace' : Text.size ['}'] = 1 := rfl
      rw [hbegin', hstop, hopening, hbegin]
      simp only [Text.size_append, hbrace, hbrace']
      omega

/-- In a text whose offsets have 32 bits the inside of a block has its ends. -/
theorem Laid.checkedInside_eq {bs : List Block} {t : Text} (h : Laid 0 bs t)
    (hFits : Text.size t < Offset.bound) {b : Block} (hb : b ∈ bs) :
    b.checkedInside = .ok b.inside ∧ b.opening + 1 + Text.size b.content < Offset.bound := by
  obtain ⟨front, middle, back, hsplit, hstart, hopening, hstop⟩ := h.exists_split hb
  have hsize := congrArg Text.size hsplit
  have hbrace : Text.size ['{'] = 1 := rfl
  simp only [Text.size_append] at hsize hopening
  refine ⟨?_, by omega⟩
  rw [checkedInside, Offset.add_eq_ok (by omega), Offset.sub_eq_ok (by omega)]
  rfl

/-- The frames of tokens that fill a text behind `front` delimit blocks that stand in it. -/
theorem ofTokens_laid {source : Text} (front : Text) {ts : List Token}
    (hSource : source = front ++ ts.flatMap (·.text))
    (hTiled : Token.Tiled (Text.size front) ts) (hSpelled : ∀ t ∈ ts, t.Spelled) :
    ∃ bs, (Frame.ofTokens ts).mapM (Frame.block source) = .ok bs ∧
      Laid (Text.size front) bs (ts.flatMap (·.text)) := by
  fun_induction Frame.ofTokens ts generalizing front with
  | case1 => exact ⟨[], rfl, .rest _ []⟩
  | case2 t ts hkind f rest hafter hshorter ih =>
    obtain ⟨trivia, brace, inner, close, rfl, hbrace, hclose, -, rfl⟩ := Frame.after?_cases hafter
    obtain ⟨htspan, htiled⟩ := hTiled
    rw [Token.tiled_append] at htiled
    obtain ⟨-, hbspan, htiled⟩ := htiled
    rw [Token.tiled_append] at htiled
    obtain ⟨-, hcspan, htiled⟩ := htiled
    have htext : t.text = ['g', 'e', 'n'] := (hSpelled t (by simp)).gen hkind
    have hbtext : brace.text = ['{'] := (hSpelled brace (by simp)).leftBrace hbrace
    have hctext : close.text = ['}'] := (hSpelled close (by simp)).rightBrace hclose
    simp only [htext, hbtext, hctext, ← Text.size_append] at htspan hbspan hcspan htiled
    simp only [List.flatMap_cons, List.flatMap_append, htext, hbtext, hctext,
      ← List.append_assoc] at hSource ⊢
    generalize trivia.flatMap (·.text) = middle at *
    obtain ⟨bs, hbs, hlaid⟩ := ih _ hSource htiled fun u hu => hSpelled u (by simp [hu])
    have hbegin : brace.span.start + 1 =
        Text.size (front ++ ['g', 'e', 'n'] ++ middle ++ ['{']) := by
      rw [hbspan, Text.size_append _ ['{']]
      rfl
    have hblock := Frame.block_eq t (hSource.trans (List.append_assoc _ _ _)) hbegin
      (congrArg Span.start hcspan)
    refine ⟨_ :: bs, by rw [List.mapM_cons, hblock, hbs]; rfl, ?_⟩
    have hopening : brace.span.start = t.span.start + Text.size (['g', 'e', 'n'] ++ middle) := by
      rw [hbspan, htspan, List.append_assoc, Text.size_append]
    have hstop : close.span.stop =
        brace.span.start + 1 + Text.size (inner.flatMap (·.text)) + 1 := by
      rw [hcspan, hbspan]
      simp only [Text.size_append _ ['}'], Text.size_append _ (inner.flatMap (·.text)),
        Text.size_append _ ['{']]
      rfl
    have hstart : t.span.start = Text.size front + Text.size [] := by rw [htspan]; rfl
    rw [show Text.size _ = close.span.stop by rw [hcspan]] at hlaid
    exact Laid.block
      (b := ⟨t.span.start, brace.span.start, close.span.stop, inner.flatMap (·.text)⟩)
      hstart hopening hstop hlaid
  | case3 t ts _ _ ih | case4 t ts _ ih =>
    obtain ⟨bs, hbs, hlaid⟩ := ih (front ++ t.text)
      (by rw [hSource, List.flatMap_cons, List.append_assoc])
      (by rw [Text.size_append]; exact hTiled.2) fun u hu => hSpelled u (List.mem_cons_of_mem t hu)
    exact ⟨bs, hbs, hlaid.keep t.text (Text.size_append _ _)⟩

/-- The blocks of a text whose offsets have 32 bits stand in it. -/
theorem ofText_laid {t : Text} (hFits : Text.size t < Offset.bound) :
    ∃ bs, ofText t = .ok bs ∧ Laid 0 bs t := by
  obtain ⟨htiled, htext⟩ := Token.ofTextAt_tiled 0 t
  have hlaid := ofTokens_laid [] (List.nil_append _).symm htiled
    fun _ => Token.ofTextAt_spelled
  rwa [htext, ← Token.ofText_eq hFits] at hlaid

end Block

end BindBlocks
