import BindBlocks.Proofs.Substitution

/-! The tokens of a content and those of its expansion. A line with a binding is only made plain
where its first visible character starts a token. From there on the tokens of the target and the
arrow are known, and in front of it nothing changes. `Reading` says where a reader of the lines
stands, and `Agrees` what the plain code of the lines has to do with their tokens. Line by line this
gives the lexemes of the expansion, which are those of the content after `substitute`. -/

namespace BindBlocks

/-- The last character of a text belongs to what it adds to a shorter text. -/
theorem Text.mem_of_last {a k front : Text} {w : Char} (h : front ++ [w] = a ++ k)
    (hLonger : Text.size a < Text.size (front ++ [w])) : w ∈ k := by
  rcases List.eq_nil_or_concat k with rfl | ⟨k, d, rfl⟩
  · rw [h, List.append_nil] at hLonger
    exact absurd hLonger (Nat.lt_irrefl _)
  · rw [List.concat_eq_append, ← List.append_assoc] at h
    rw [(List.cons.inj (List.append_inj' h rfl).2).1]
    simp

/-- A piece of a text that starts before a cut and ends behind it holds the characters on both sides
of the cut. -/
theorem Text.mem_of_straddle {a m b front back : Text} {w x : Char}
    (h : a ++ m ++ b = front ++ [w] ++ x :: back)
    (hStart : Text.size a < Text.size (front ++ [w]))
    (hStop : Text.size (front ++ [w]) < Text.size a + Text.size m) : w ∈ m ∧ x ∈ m := by
  rw [List.append_assoc] at h
  obtain ⟨k, hk, hrest⟩ := Text.exists_middle h (Nat.le_of_lt hStart)
  have hsize : Text.size (front ++ [w]) = Text.size a + Text.size k := by
    rw [hk, Text.size_append]
  obtain ⟨l, rfl, hback⟩ := Text.exists_middle hrest.symm (by omega)
  have hw : w ∈ k := Text.mem_of_last hk hStart
  have hx : x ∈ l := by
    cases l with
    | nil =>
      rw [List.append_nil] at hStop
      omega
    | cons d l =>
      rw [(List.cons.inj hback).1]
      exact List.mem_cons_self
  exact ⟨List.mem_append_left l hw, List.mem_append_right k hx⟩

/-- Every line but the last one ends with a line feed. -/
theorem Text.feed_of_mem_lines {t line : Text} (h : line ∈ (Text.lines t).dropLast) :
    ∃ u, line = u ++ ['\n'] := by
  induction t generalizing line with
  | nil => exact absurd h (by simp [Text.lines])
  | cons c t ih =>
    rw [Text.lines] at h
    split at h
    · rename_i hc
      cases hlines : Text.lines t with
      | nil => exact absurd h (by simp [hlines])
      | cons l ls =>
        rw [hlines, List.dropLast_cons_of_ne_nil (List.cons_ne_nil l ls)] at h
        rcases List.mem_cons.1 h with rfl | h
        · exact ⟨[], by rw [hc]; rfl⟩
        · exact ih (by rwa [hlines])
    · split at h
      · exact absurd h (by simp)
      · rename_i l ls hlines
        cases ls with
        | nil => exact absurd h (by simp)
        | cons m ls =>
          rw [hlines] at ih
          rw [List.dropLast_cons_of_ne_nil (List.cons_ne_nil m ls)] at h ih
          rcases List.mem_cons.1 h with rfl | h
          · obtain ⟨u, hu⟩ := ih List.mem_cons_self
            exact ⟨c :: u, by rw [hu, List.cons_append]⟩
          · exact ih (List.mem_cons_of_mem l h)

namespace Content

open Token

namespace Progress

/-- The tokens that have been followed all start before `bound`. -/
structure Follows (p : Progress) (ts done : List Token) (bound : Nat) : Prop where
  split : ts = done ++ p.ahead
  last : p.last = done.getLast?
  before : ∀ t ∈ done, t.span.start < bound

theorem following_spec (offset : Nat) (scope : Scope) (last : Option Token) (ts : List Token) :
    ∃ done, ts = done ++ (following offset scope last ts).ahead ∧
      (following offset scope last ts).last = done.getLast?.or last ∧
      (∀ t ∈ done, t.span.start < offset) ∧
      ∀ t us, (following offset scope last ts).ahead = t :: us → offset ≤ t.span.start := by
  induction ts generalizing scope last with
  | nil => exact ⟨[], rfl, rfl, by simp, by simp [following]⟩
  | cons t ts ih =>
    rw [following]
    split
    · rename_i hlt
      obtain ⟨done, hsplit, hlast, hbefore, hahead⟩ := ih (scope.next t.kind) (some t)
      refine ⟨t :: done, by rw [List.cons_append, ← hsplit], ?_, ?_, hahead⟩
      · rw [hlast]
        cases done with
        | nil => rfl
        | cons u done =>
          rw [List.getLast?_cons_cons, List.getLast?_eq_some_getLast (List.cons_ne_nil u done)]
          rfl
      · intro u hu
        rcases List.mem_cons.1 hu with rfl | hu
        · exact hlt
        · exact hbefore u hu
    · rename_i hge
      refine ⟨[], rfl, rfl, by simp, fun u us heq => ?_⟩
      obtain ⟨rfl, -⟩ := List.cons.inj heq
      omega

/-- Advancing follows the tokens that start before an offset, and no others. -/
theorem Follows.advance {p : Progress} {ts done : List Token} {bound offset : Nat}
    (h : p.Follows ts done bound) (hle : bound ≤ offset) :
    ∃ done', (p.advance offset).Follows ts done' offset ∧
      ∀ t us, (p.advance offset).ahead = t :: us → offset ≤ t.span.start := by
  obtain ⟨more, hsplit, hlast, hbefore, hahead⟩ := following_spec offset p.scope p.last p.ahead
  refine ⟨done ++ more, ⟨?_, ?_, ?_⟩, hahead⟩
  · rw [h.split, List.append_assoc]
    exact congrArg (done ++ ·) hsplit
  · rw [List.getLast?_append, ← h.last]
    exact hlast
  · intro t ht
    rcases List.mem_append.1 ht with ht | ht
    · exact Nat.lt_of_lt_of_le (h.before t ht) hle
    · exact hbefore t ht

theorem Follows.mono {p : Progress} {ts done : List Token} {bound bound' : Nat}
    (h : p.Follows ts done bound) (hle : bound ≤ bound') : p.Follows ts done bound' :=
  ⟨h.split, h.last, fun t ht => Nat.lt_of_lt_of_le (h.before t ht) hle⟩

end Progress

/-- In open code, a visible character behind a blank starts a token. -/
theorem flatMap_text_of_isOpen {p : Progress} {done : List Token} {front v : Text} {w x : Char}
    (h : p.Follows (ofTextAt 0 (front ++ [w] ++ x :: v)) done (Text.size (front ++ [w])))
    (hAhead : ∀ t us, p.ahead = t :: us → Text.size (front ++ [w]) ≤ t.span.start)
    (hOpen : p.isOpen (Text.size (front ++ [w])) = true) (hw : Text.isBlank w = true)
    (hx : Text.isBlank x = false) : done.flatMap (·.text) = front ++ [w] := by
  obtain ⟨htiled, htext⟩ := ofTextAt_tiled 0 (front ++ [w] ++ x :: v)
  have hpos : 0 < Text.size (front ++ [w]) := by
    have := w.utf8Size_pos
    simp only [Text.size_append, Text.size_cons]
    omega
  rw [h.split, tiled_append] at htiled
  rw [h.split, List.flatMap_append] at htext
  have hreach : Text.size (front ++ [w]) ≤ Text.size (done.flatMap (·.text)) := by
    cases hahead : p.ahead with
    | nil =>
      rw [hahead, List.flatMap_nil, List.append_nil] at htext
      rw [htext, Text.size_append _ (x :: v)]
      omega
    | cons a us =>
      have hspan := htiled.2
      rw [hahead] at hspan
      have hstart : a.span.start = 0 + Text.size (done.flatMap (·.text)) := by rw [hspan.1]
      have := hAhead a us hahead
      omega
  rcases List.eq_nil_or_concat done with rfl | ⟨init, t, rfl⟩
  · exact absurd hreach (by simpa using Nat.ne_of_gt hpos)
  · rw [List.concat_eq_append] at *
    rw [List.flatMap_append, List.flatMap_singleton] at hreach htext ⊢
    have hspan := (tiled_append.1 htiled.1).2.1
    rw [Nat.zero_add] at hspan
    rcases Nat.lt_or_eq_of_le hreach with hlong | hsize
    · exfalso
      rw [Text.size_append (init.flatMap _)] at hlong
      have hstart : Text.size (init.flatMap (·.text)) < Text.size (front ++ [w]) := by
        have hbefore := h.before t (by simp)
        rwa [hspan] at hbefore
      have hcode : t.kind.isVerbatim = false := by
        have hlast : p.last = some t := by rw [h.last, List.getLast?_concat]
        simp only [Progress.isOpen, hlast, Option.any_some, hspan, hlong, decide_true,
          Bool.true_and, Bool.and_eq_true, Bool.not_eq_true'] at hOpen
        exact hOpen.1
      obtain ⟨hwmem, hxmem⟩ := Text.mem_of_straddle htext hstart hlong
      have hmem : t ∈ ofTextAt 0 (front ++ [w] ++ x :: v) := by
        rw [h.split]
        simp
      rw [isBlank_of_mem_text hmem hcode hwmem hw hxmem] at hx
      exact absurd hx (by decide)
    · exact (Text.append_inj_of_size htext hsize.symm).1

/-- A reader who has come to a line. The text in front of the line is cut where a token starts, and
the part behind the cut, `pending`, ends with a line feed if there is anything in it. -/
structure Reading (content : Text) (p : Progress) (front pending : Text) (texts : List Text) :
    Prop where
  content_eq : content = front ++ (pending ++ texts.flatten)
  cut : ∃ ts, ofTextAt 0 content = ts ++ ofTextAt (Text.size front) (pending ++ texts.flatten)
  feed : texts ≠ [] → pending = [] ∨ ∃ u, pending = u ++ ['\n']
  feeds : ∀ text ∈ texts.dropLast, ∃ u, text = u ++ ['\n']
  follows : ∃ done, p.Follows (ofTextAt 0 content) done (Text.size (front ++ pending))

namespace Reading

variable {content front pending text : Text} {p q : Progress} {texts : List Text}

theorem text_feed (h : Reading content p front pending (text :: texts)) (hNext : texts ≠ []) :
    ∃ u, text = u ++ ['\n'] := by
  apply h.feeds
  rw [List.dropLast_cons_of_ne_nil hNext]
  exact List.mem_cons_self

theorem feeds_tail (h : Reading content p front pending (text :: texts)) :
    ∀ next ∈ texts.dropLast, ∃ u, next = u ++ ['\n'] := by
  intro next hnext
  apply h.feeds
  cases texts with
  | nil => exact absurd hnext (by simp)
  | cons t ts =>
    rw [List.dropLast_cons_of_ne_nil (List.cons_ne_nil t ts)]
    exact List.mem_cons_of_mem text hnext

/-- A line that is left alone is added to the pending text. -/
theorem skip (h : Reading content p front pending (text :: texts)) {done : List Token}
    (hFollows : q.Follows (ofTextAt 0 content) done (Text.size (front ++ (pending ++ text)))) :
    Reading content q front (pending ++ text) texts where
  content_eq := by rw [h.content_eq, List.flatten_cons, List.append_assoc]
  cut := by
    obtain ⟨ts, hcut⟩ := h.cut
    exact ⟨ts, by rw [hcut, List.flatten_cons, List.append_assoc]⟩
  feed := by
    intro hnext
    obtain ⟨u, rfl⟩ := h.text_feed hnext
    exact .inr ⟨pending ++ u, by rw [List.append_assoc]⟩
  feeds := h.feeds_tail
  follows := ⟨done, hFollows⟩

/-- What stands directly in front of a binding, if anything does, is a blank. -/
theorem isBlank_of_concat (h : Reading content p front pending (text :: texts)) {b : Binding}
    (hShaped : b.Shaped) {u : Text} {w : Char} (hConcat : pending ++ b.indent = u ++ [w]) :
    Text.isBlank w = true := by
  rcases List.eq_nil_or_concat b.indent with hindent | ⟨indent, g, hindent⟩
  · rw [hindent, List.append_nil] at hConcat
    rcases h.feed (List.cons_ne_nil _ _) with hpending | ⟨u', hpending⟩
    · exact absurd (hpending.symm.trans hConcat) (by simp)
    · obtain ⟨-, hw⟩ := List.append_inj' (hpending.symm.trans hConcat) rfl
      rw [← (List.cons.inj hw).1]
      decide
  · rw [hindent, List.concat_eq_append, ← List.append_assoc] at hConcat
    obtain ⟨-, hw⟩ := List.append_inj' hConcat rfl
    rw [← (List.cons.inj hw).1]
    exact Binding.isBlank_of_isGap (hShaped.indent g (by simp [hindent]))

/-- Where a binding is open to the reader, the tokens in front of it and in it are known. -/
theorem exists_cut (h : Reading content p front pending (text :: texts)) {b : Binding}
    {back : Text} (hText : text = b.indent ++ (b.code ++ back)) (hShaped : b.Shaped) {offset : Nat}
    (hOffset : offset = Text.size (front ++ pending) + b.targetStart)
    (hOpen : (p.advance offset).isOpen offset = true) :
    ∃ blanks target gap, Cut front pending b blanks target gap := by
  obtain ⟨target, gap, hfront⟩ :=
    hShaped.exists_front (Text.size front + Text.size (pending ++ b.indent))
  suffices hfill : ∃ blanks, ∀ y v, Text.isBlank y = false →
      Fill (Text.size front) (pending ++ b.indent) (y :: v) blanks by
    obtain ⟨blanks, hblanks⟩ := hfill
    exact ⟨blanks, target, gap, hShaped, hblanks, hfront⟩
  obtain ⟨x, v, hcode, hspace⟩ := hShaped.exists_visible
  have hx := Binding.not_isBlank hspace
  have hline : pending ++ (text :: texts).flatten =
      pending ++ b.indent ++ x :: (v ++ back ++ texts.flatten) := by
    rw [List.flatten_cons, hText, hcode]
    simp only [List.append_assoc, List.cons_append]
  have hsize : offset = Text.size (front ++ (pending ++ b.indent)) := by
    rw [hOffset, ← List.append_assoc, Text.size_append _ b.indent]
    rfl
  rcases List.eq_nil_or_concat (pending ++ b.indent) with hnil | ⟨u, w, hconcat⟩
  · rw [hnil]
    exact ⟨[], fun y v _ => .nil _ _⟩
  · rw [List.concat_eq_append] at hconcat
    have hw := h.isBlank_of_concat hShaped hconcat
    obtain ⟨done, hfollows⟩ := h.follows
    obtain ⟨done', hdone, hahead⟩ := hfollows.advance (hOffset ▸ Nat.le_add_right _ _)
    obtain ⟨ts, hcut⟩ := h.cut
    have hsplit := hdone.split
    rw [h.content_eq, hline, hconcat] at hcut hdone hsplit
    rw [hsize, hconcat, ← List.append_assoc] at hdone hahead hOpen
    rw [← List.append_assoc, ← List.append_assoc] at hdone
    have htext := flatMap_text_of_isOpen hdone hahead hOpen hw hx
    rw [hconcat]
    obtain ⟨vs, hfill⟩ := Fill.of_cuts (List.cons_ne_nil _ _) hcut hsplit
      (htext.trans (List.append_assoc _ _ _))
    exact ⟨vs, fun y v hy => hfill.congr_of_isBlank hw hx hy⟩

/-- A line with a binding is cut behind its arrow. -/
theorem pass (h : Reading content p front pending (text :: texts)) {b : Binding} {back : Text}
    (hText : text = b.indent ++ (b.code ++ back))
    {blanks target gap done : List Token} (hCut : Cut front pending b blanks target gap)
    (hFollows : q.Follows (ofTextAt 0 content) done (Text.size (front ++ (pending ++ text)))) :
    Reading content q (front ++ (pending ++ b.indent ++ b.code)) back texts where
  content_eq := by
    rw [h.content_eq, List.flatten_cons, hText]
    simp only [List.append_assoc]
  cut := by
    obtain ⟨ts, hcut⟩ := h.cut
    exact ⟨_, by rw [hcut, hCut.ofTextAt_eq hText, ← List.append_assoc ts]⟩
  feed := by
    intro hnext
    obtain ⟨u, hu⟩ := h.text_feed hnext
    rcases List.eq_nil_or_concat back with hnil | ⟨back', c, hconcat⟩
    · exact .inl hnil
    · rw [hText, hconcat, List.concat_eq_append, ← List.append_assoc, ← List.append_assoc] at hu
      obtain ⟨-, hc⟩ := List.append_inj' hu rfl
      exact .inr ⟨back', by rw [hconcat, List.concat_eq_append, hc]⟩
  feeds := h.feeds_tail
  follows := ⟨done, by
    rw [hText] at hFollows
    simpa only [List.append_assoc] using hFollows⟩

end Reading

/-- The lexemes of the pending text with the plain lines behind it, and the tokens that their
bindings stand on. -/
structure Agrees (front pending : Text) (texts : List Text) (ls : List Line) : Prop where
  lexemes_eq : lexemes (pending ++ ls.flatMap Line.plain) =
    substitute ls (ofTextAt (Text.size front) (pending ++ texts.flatten))
  marked : ∀ l ∈ ls, l.Marked (ofTextAt (Text.size front) (pending ++ texts.flatten))

namespace Agrees

variable {front pending text : Text} {texts : List Text} {ls : List Line}

theorem nil (front pending : Text) : Agrees front pending [] [] where
  lexemes_eq := by
    rw [substitute_eq_visible (by simp), visible_ofTextAt]
    rfl
  marked := by simp

theorem skip (h : Agrees front (pending ++ text) texts ls) (offset : Nat) :
    Agrees front pending (text :: texts) (⟨offset, text, none⟩ :: ls) where
  lexemes_eq := by
    have hskip : ∀ ts, substitute (⟨offset, text, none⟩ :: ls) ts = substitute ls ts :=
      fun ts => substitute_skip fun t _ => rfl
    have hlexemes := h.lexemes_eq
    rw [List.append_assoc, List.append_assoc] at hlexemes
    rw [hskip, List.flatten_cons, ← hlexemes]
    rfl
  marked := by
    intro l hl
    rcases List.mem_cons.1 hl with rfl | hl
    · exact fun b hb => absurd hb (by simp)
    · have hmarked := h.marked l hl
      rwa [List.append_assoc] at hmarked

/-- A line with a binding agrees with its tokens, if what stands behind its arrow does. -/
theorem pass {l : Line} {b : Binding} {rest : Text} {blanks target gap : List Token}
    (hBinding : l.binding = some b) (hTarget : ∀ target, b.target = some target → target ≠ [])
    (hOffset : l.offset = Text.size (front ++ pending))
    (hText : l.text = b.indent ++ (b.code ++ (b.lead ++ rest)))
    (hPlain : l.plain = b.indent ++ (b.plainCode ++ (b.lead ++ rest)))
    (hCut : Cut front pending b blanks target gap)
    (hLater : ∀ m ∈ ls, l.offset + Text.size l.text ≤ m.offset)
    (h : Agrees (front ++ (pending ++ b.indent ++ b.code)) (b.lead ++ rest) texts ls) :
    Agrees front pending (l.text :: texts) (l :: ls) := by
  have hstop : Text.size (front ++ (pending ++ b.indent ++ b.code)) = l.offset + b.arrowStop := by
    simp only [hOffset, b.arrowStop_eq, Binding.targetStart, Text.size_append]
    omega
  have hlater : ∀ m ∈ ls, l.offset + b.arrowStart < m.offset := by
    intro m hm
    have hle := hLater m hm
    have hlt := b.arrowStart_bounds.2
    rw [b.arrowStop_eq, Binding.targetStart] at hlt
    simp only [hText, Text.size_append] at hle
    omega
  have htokens := hCut.ofTextAt_eq hText texts
  have hlexemes := h.lexemes_eq
  rw [hstop] at htokens hlexemes
  refine ⟨?_, fun m hm => ?_⟩
  · rw [htokens, hCut.substitute_eq hBinding hTarget hOffset hlater, ← hlexemes,
      List.append_assoc b.lead, ← hCut.lexemes_plain, List.flatMap_cons, hPlain]
    simp only [List.append_assoc]
  · rw [htokens]
    rcases List.mem_cons.1 hm with rfl | hm
    · obtain ⟨hstart, hfront⟩ := hCut.front_line hOffset
      rw [hstart]
      apply (Line.marked_of_front hBinding hfront).mono
      intro t ht
      simp only [List.mem_append] at ht ⊢
      exact .inl (.inr ht)
    · have hmarked := h.marked m hm
      rw [hstop] at hmarked
      exact hmarked.mono (List.subset_append_right _ _)

end Agrees

/-- What stands behind the arrow of a line is the same in plain code. -/
theorem Line.exists_rest {l : Line} {b : Binding} (hBinding : l.binding = some b) (h : l.Read) :
    ∃ rest, l.text = b.indent ++ (b.code ++ (b.lead ++ rest)) ∧
      l.plain = b.indent ++ (b.plainCode ++ (b.lead ++ rest)) := by
  refine ⟨b.expression ++ b.tail ++ l.ending, ?_, ?_⟩
  · rw [← l.body_append_ending, ← (Binding.toText_of_parse? (h b hBinding)).1,
      Binding.toText_eq_code]
    simp only [List.append_assoc]
  · rw [Line.plain, hBinding, Option.elim_some, Binding.plain_eq_plainCode]
    simp only [List.append_assoc]

theorem size_lineBody_le (text : Text) : Text.size (lineBody text) ≤ Text.size text := by
  obtain ⟨back, hback⟩ := Text.exists_append_trimEnd Text.isLineEnd text
  have hsize := congrArg Text.size hback
  rw [Text.size_append] at hsize
  exact Nat.le.intro hsize.symm

/-- Line by line, the plain code agrees with the tokens of the content. -/
theorem agrees_linesFrom {content front pending : Text} {p : Progress} {texts : List Text}
    (h : Reading content p front pending texts) :
    Agrees front pending texts (linesFrom p (Text.size (front ++ pending)) texts) := by
  induction texts generalizing p front pending with
  | nil => exact .nil front pending
  | cons text texts ih =>
    have hnext : Text.size (front ++ pending) + Text.size text =
        Text.size (front ++ (pending ++ text)) := by
      simp only [Text.size_append]
      omega
    obtain ⟨done, hfollows⟩ := h.follows
    rw [linesFrom]
    simp only
    split
    · rw [hnext]
      exact (ih (h.skip (hfollows.mono (by omega)))).skip _
    · generalize hfirst : Text.size (front ++ pending) + (Text.size (lineBody text) -
        Text.size ((lineBody text).dropWhile Text.isWhiteSpace)) = first
      have hbody := size_lineBody_le text
      have hle : Text.size (front ++ pending) ≤ first := by omega
      have hlt : first ≤ Text.size (front ++ (pending ++ text)) := by omega
      obtain ⟨done', hdone, -⟩ := hfollows.advance hle
      cases hbinding : (if (p.advance first).isOpen first then Binding.parse? (lineBody text)
          else none) with
      | none =>
        rw [hnext]
        exact (ih (h.skip (hdone.mono hlt))).skip _
      | some b =>
        split at hbinding
        · rename_i hopen
          obtain ⟨rest, htext, hplain⟩ :=
            Line.exists_rest (l := ⟨Text.size (front ++ pending), text, some b⟩) rfl fun b' hb' =>
              hbinding.trans hb'
          have hstart : first = Text.size (front ++ pending) + b.targetStart := by
            rw [← hfirst, Binding.size_sub_visible hbinding]
          obtain ⟨blanks, target, gap, hcut⟩ :=
            h.exists_cut htext (Binding.shaped_of_parse? hbinding) hstart hopen
          have hagrees := ih (h.pass htext hcut (hdone.mono hlt))
          have hsize : Text.size (front ++ (pending ++ b.indent ++ b.code) ++ (b.lead ++ rest)) =
              Text.size (front ++ pending) + Text.size text := by
            simp only at htext
            rw [htext]
            simp only [Text.size_append]
            omega
          rw [hsize] at hagrees
          exact hagrees.pass rfl (Binding.toText_of_parse? hbinding).2 rfl htext hplain hcut
            (linesFrom_lined _ _ _).1.offset_le
        · exact absurd hbinding (by simp)

theorem Reading.start (content : Text) :
    Reading content (Progress.start (ofTextAt 0 content)) [] [] (Text.lines content) where
  content_eq := (Text.flatten_lines content).symm
  cut := ⟨[], by rw [List.nil_append, List.nil_append, Text.flatten_lines]; rfl⟩
  feed := fun _ => .inl rfl
  feeds := fun _ => Text.feed_of_mem_lines
  follows := ⟨[], rfl, rfl, by simp⟩

theorem agrees_lines {content : Text} (hFits : Text.size content < Offset.bound) :
    Agrees [] [] (Text.lines content) (lines content) := by
  rw [lines, ofText_eq hFits]
  exact agrees_linesFrom (.start content)

end Content

end BindBlocks
