import BindBlocks.LineTable
import BindBlocks.Proofs.Boundary

/-! The line of an offset: its number, its start and its stop. All that later proofs use of a line
table is that these three grow with the offset, that an offset is its line's start and its column,
and that a line of a text stops at a line feed. -/

namespace BindBlocks

namespace LineTable

/-- The line starts rise, and none lies beyond the end of the text. -/
structure Proper (table : LineTable) : Prop where
  rising : table.starts.Pairwise (· < ·)
  inside : ∀ start ∈ table.starts, start ≤ table.size

/-- The breaks stand after the line feeds. -/
theorem mem_breaksFrom {t : Text} {offset b : Nat} :
    b ∈ breaksFrom offset t ↔
      ∃ front back, t = front ++ '\n' :: back ∧ b = offset + Text.size front + 1 := by
  induction t generalizing offset with
  | nil => simp [breaksFrom]
  | cons c t ih =>
    have htail : b ∈ breaksFrom (offset + c.utf8Size) t ↔
        ∃ front back, t = front ++ '\n' :: back ∧ b = offset + Text.size (c :: front) + 1 := by
      rw [ih]
      simp only [Text.size_cons, Nat.add_assoc]
    rw [breaksFrom]
    by_cases hc : c = '\n'
    · subst hc
      simp only [if_true, List.mem_cons, htail]
      constructor
      · rintro (rfl | ⟨front, back, rfl, rfl⟩)
        · exact ⟨[], t, rfl, rfl⟩
        · exact ⟨'\n' :: front, back, rfl, rfl⟩
      · rintro ⟨front, back, hsplit, rfl⟩
        cases front with
        | nil => exact .inl rfl
        | cons d front =>
          obtain ⟨rfl, rfl⟩ := List.cons.inj hsplit
          exact .inr ⟨front, back, rfl, rfl⟩
    · simp only [hc, if_false, htail]
      constructor
      · rintro ⟨front, back, rfl, rfl⟩
        exact ⟨c :: front, back, rfl, rfl⟩
      · rintro ⟨front, back, hsplit, rfl⟩
        cases front with
        | nil => exact absurd (List.cons.inj hsplit).1 hc
        | cons d front =>
          obtain ⟨rfl, rfl⟩ := List.cons.inj hsplit
          exact ⟨front, back, rfl, rfl⟩

theorem breaksFrom_rising (offset : Nat) (t : Text) : (breaksFrom offset t).Pairwise (· < ·) := by
  induction t generalizing offset with
  | nil => simp [breaksFrom]
  | cons c t ih =>
    rw [breaksFrom]
    by_cases hc : c = '\n'
    · simp only [hc, if_true]
      refine List.Pairwise.cons ?_ (ih _)
      intro b hb
      obtain ⟨front, back, -, rfl⟩ := mem_breaksFrom.1 hb
      omega
    · simp only [hc, if_false]
      exact ih _

/-- The line starts of a text are its beginning and the offsets after its line feeds. -/
theorem mem_starts_ofText {t : Text} {start : Nat} :
    start ∈ (ofText t).starts ↔
      start = 0 ∨ ∃ front back, t = front ++ '\n' :: back ∧ start = Text.size front + 1 := by
  simp only [starts, ofText, List.mem_cons, mem_breaksFrom, Nat.zero_add]

theorem ofText_proper (t : Text) : (ofText t).Proper where
  rising := by
    refine List.Pairwise.cons ?_ (breaksFrom_rising 0 t)
    intro b hb
    obtain ⟨front, back, -, rfl⟩ := mem_breaksFrom.1 hb
    omega
  inside := by
    intro start hstart
    rcases mem_starts_ofText.1 hstart with rfl | ⟨front, back, rfl, rfl⟩
    · exact Nat.zero_le _
    · have := Char.utf8Size_pos '\n'
      simp only [ofText, Text.size_append, Text.size_cons]
      omega

/-- The number of the line of an offset, counted from zero. -/
def lineAt (table : LineTable) (offset : Nat) : Nat := (table.position offset).line

/-- Where the line of an offset starts. -/
def startAt (table : LineTable) (offset : Nat) : Nat := offset - (table.position offset).column

/-- Where the line of an offset stops, before its line feed. -/
def stopAt (table : LineTable) (offset : Nat) : Nat :=
  (table.stop? (table.lineAt offset)).getD table.size

/-- The line of an offset is empty. -/
def IsBlankAt (table : LineTable) (offset : Nat) : Prop :=
  table.startAt offset = offset ∧ table.stopAt offset = offset

instance (table : LineTable) (offset : Nat) : Decidable (table.IsBlankAt offset) :=
  inferInstanceAs (Decidable (_ ∧ _))

theorem locate_eq (line : Nat) {offset start : Nat} {rest : List Nat}
    (hRising : (start :: rest).Pairwise (· < ·)) (hStart : start ≤ offset) :
    ∃ i s, (start :: rest)[i]? = some s ∧ s ≤ offset ∧
      (∀ next, (start :: rest)[i + 1]? = some next → offset < next) ∧
      locate offset line start rest = ⟨line + i, offset - s⟩ := by
  induction rest generalizing line start with
  | nil => exact ⟨0, start, rfl, hStart, by simp, rfl⟩
  | cons next rest ih =>
    rw [locate]
    by_cases hnext : next ≤ offset
    · obtain ⟨i, s, hs, hle, hlt, heq⟩ := ih (line + 1) hRising.tail hnext
      refine ⟨i + 1, s, hs, hle, hlt, ?_⟩
      rw [if_pos hnext, heq]
      simp only [Position.mk.injEq, and_true]
      omega
    · refine ⟨0, start, rfl, hStart, ?_, by rw [if_neg hnext]; rfl⟩
      rintro n hn
      obtain rfl : next = n := by simpa using hn
      omega

namespace Proper

variable {table : LineTable} {offset offset' line line' start start' : Nat}

/-- The defining property of the line of an offset: it starts at or before the offset, and the next
line starts after it. -/
theorem spec (h : table.Proper) (offset : Nat) :
    table.start? (table.lineAt offset) = some (table.startAt offset) ∧
      table.startAt offset ≤ offset ∧
      ∀ next, table.start? (table.lineAt offset + 1) = some next → offset < next := by
  obtain ⟨i, s, hs, hle, hlt, heq⟩ := locate_eq 0 h.rising (Nat.zero_le offset)
  have hline : table.lineAt offset = i := by rw [lineAt, position, heq, Nat.zero_add]
  have hstart : table.startAt offset = s := by
    rw [startAt, position, heq]
    simp only
    omega
  rw [hline, hstart]
  exact ⟨hs, hle, hlt⟩

theorem startAt_le (h : table.Proper) (offset : Nat) : table.startAt offset ≤ offset :=
  (h.spec offset).2.1

theorem position_eq (h : table.Proper) (offset : Nat) :
    table.position offset = ⟨table.lineAt offset, offset - table.startAt offset⟩ := by
  have hcolumn : (table.position offset).column = offset - table.startAt offset := by
    obtain ⟨i, s, -, hle, -, heq⟩ := locate_eq 0 h.rising (Nat.zero_le offset)
    rw [startAt, position, heq]
    simp only
    omega
  rw [← hcolumn]
  rfl

theorem start?_lt (h : table.Proper) (hs : table.start? line = some start)
    (hs' : table.start? line' = some start') (hlt : line < line') : start < start' := by
  obtain ⟨hl, rfl⟩ := List.getElem?_eq_some_iff.1 hs
  obtain ⟨hl', rfl⟩ := List.getElem?_eq_some_iff.1 hs'
  exact List.pairwise_iff_getElem.1 h.rising line line' hl hl' hlt

theorem start?_le (h : table.Proper) (hs : table.start? line = some start)
    (hs' : table.start? line' = some start') (hle : line ≤ line') : start ≤ start' := by
  rcases Nat.lt_or_eq_of_le hle with hlt | rfl
  · exact Nat.le_of_lt (h.start?_lt hs hs' hlt)
  · rw [hs] at hs'
    exact Nat.le_of_eq (Option.some.inj hs')

/-- A line that is followed by another one has a next start. -/
theorem exists_next (hs : table.start? line' = some start) (hlt : line < line') :
    ∃ next, table.start? (line + 1) = some next := by
  obtain ⟨hl, -⟩ := List.getElem?_eq_some_iff.1 hs
  exact ⟨_, List.getElem?_eq_getElem (show line + 1 < table.starts.length by omega)⟩

/-- A line that starts at or before an offset is not after the line of the offset. -/
theorem le_lineAt (h : table.Proper) (hs : table.start? line = some start) (hle : start ≤ offset) :
    line ≤ table.lineAt offset := by
  rcases Nat.lt_or_ge (table.lineAt offset) line with hlt | hge
  · obtain ⟨next, hnext⟩ := exists_next hs hlt
    have := (h.spec offset).2.2 next hnext
    have := h.start?_le hnext hs hlt
    omega
  · exact hge

theorem lineAt_start (h : table.Proper) (hs : table.start? line = some start) :
    table.lineAt start = line := by
  refine Nat.le_antisymm (Nat.not_lt.1 fun hlt => ?_) (h.le_lineAt hs (Nat.le_refl start))
  have := h.start?_lt hs (h.spec start).1 hlt
  have := h.startAt_le start
  omega

theorem lineAt_mono (h : table.Proper) (hle : offset ≤ offset') :
    table.lineAt offset ≤ table.lineAt offset' :=
  h.le_lineAt (h.spec offset).1 (Nat.le_trans (h.startAt_le offset) hle)

theorem startAt_congr (h : table.Proper) (heq : table.lineAt offset = table.lineAt offset') :
    table.startAt offset = table.startAt offset' := by
  have hs := (h.spec offset).1
  rw [heq, (h.spec offset').1] at hs
  exact (Option.some.inj hs).symm

theorem stopAt_congr (heq : table.lineAt offset = table.lineAt offset') :
    table.stopAt offset = table.stopAt offset' := by
  rw [stopAt, stopAt, heq]

/-- An offset at or after a line start lies at or after it on its own line too. -/
theorem le_startAt (h : table.Proper) (hmem : start ∈ table.starts) (hle : start ≤ offset) :
    start ≤ table.startAt offset := by
  obtain ⟨line, hs⟩ := List.mem_iff_getElem?.1 hmem
  exact h.start?_le hs (h.spec offset).1 (h.le_lineAt hs hle)

theorem startAt_mem (h : table.Proper) (offset : Nat) : table.startAt offset ∈ table.starts :=
  List.mem_iff_getElem?.2 ⟨_, (h.spec offset).1⟩

theorem lt_count (h : table.Proper) (offset : Nat) : table.lineAt offset < table.count :=
  (List.getElem?_eq_some_iff.1 (h.spec offset).1).1

theorem stop?_lineAt (h : table.Proper) (offset : Nat) :
    table.stop? (table.lineAt offset) = some (table.stopAt offset) := by
  rw [stopAt, stop?, if_pos (h.lt_count offset)]
  split <;> rfl

/-- The stop of a line before another one, and of the last line. -/
theorem stopAt_cases (h : table.Proper) (offset : Nat) :
    (∃ next, table.start? (table.lineAt offset + 1) = some next ∧
      table.stopAt offset + 1 = next) ∨
    (table.start? (table.lineAt offset + 1) = none ∧ table.stopAt offset = table.size) := by
  have hstop := h.stop?_lineAt offset
  rw [stop?, if_pos (h.lt_count offset)] at hstop
  split at hstop
  · rename_i next hnext
    have := (h.spec offset).2.2 next hnext
    simp only [Option.some.injEq] at hstop
    exact .inl ⟨next, hnext, by omega⟩
  · rename_i hnone
    exact .inr ⟨hnone, (Option.some.inj hstop).symm⟩

theorem le_stopAt (h : table.Proper) (hsize : offset ≤ table.size) :
    offset ≤ table.stopAt offset := by
  rcases h.stopAt_cases offset with ⟨next, hnext, hstop⟩ | ⟨-, hstop⟩
  · have := (h.spec offset).2.2 next hnext
    omega
  · omega

theorem stopAt_le_size (h : table.Proper) (offset : Nat) : table.stopAt offset ≤ table.size := by
  rcases h.stopAt_cases offset with ⟨next, hnext, hstop⟩ | ⟨-, hstop⟩
  · have := h.inside next (List.mem_iff_getElem?.2 ⟨_, hnext⟩)
    omega
  · omega

/-- A line stops before a later line starts. -/
theorem stopAt_lt_startAt (h : table.Proper) (hlt : table.lineAt offset < table.lineAt offset') :
    table.stopAt offset < table.startAt offset' := by
  obtain ⟨next, hnext⟩ := exists_next (h.spec offset').1 hlt
  have := h.start?_le hnext (h.spec offset').1 hlt
  rcases h.stopAt_cases offset with ⟨n, hn, hstop⟩ | ⟨hnone, -⟩
  · rw [hnext] at hn
    obtain rfl := Option.some.inj hn
    omega
  · rw [hnext] at hnone
    exact absurd hnone (by simp)

/-- The offsets up to the stop of a line lie on it. -/
theorem lineAt_eq_of_le_stopAt (h : table.Proper) (hle : offset ≤ offset')
    (hstop : offset' ≤ table.stopAt offset) : table.lineAt offset' = table.lineAt offset := by
  have hmono := h.lineAt_mono hle
  rcases Nat.lt_or_eq_of_le hmono with hlt | heq
  · have := h.stopAt_lt_startAt hlt
    have := h.startAt_le offset'
    omega
  · exact heq.symm

/-- Offsets with the same position are equal. -/
theorem position_inj (h : table.Proper) (heq : table.position offset = table.position offset') :
    offset = offset' := by
  rw [h.position_eq, h.position_eq, Position.mk.injEq] at heq
  have hstart := h.startAt_congr heq.1
  have := h.startAt_le offset
  have := h.startAt_le offset'
  omega

/-- Positions are in the order of their offsets. -/
theorem position_le (h : table.Proper) (hle : offset ≤ offset') :
    (table.position offset).numbered.le (table.position offset').numbered = true := by
  rw [h.position_eq, h.position_eq]
  have hmono := h.lineAt_mono hle
  simp only [Position.le, Position.numbered, Bool.or_eq_true, Bool.and_eq_true, beq_iff_eq]
  rcases Nat.lt_or_eq_of_le hmono with hlt | heq
  · exact .inl (decide_eq_true (by omega))
  · have := h.startAt_congr heq
    exact .inr ⟨by omega, decide_eq_true (by omega)⟩

theorem offsetWithin_eq (h : table.Proper) (offset column : Nat)
    (hfits : table.startAt offset + column < Offset.bound) :
    table.offsetWithin ⟨table.lineAt offset, column⟩ =
      .ok (min (table.startAt offset + column) table.size) := by
  rw [offsetWithin, offset?, (h.spec offset).1]
  simp only [Offset.add_eq_ok hfits]
  rfl

/-- Lines are at least one byte long, so there are no more of them before an offset than bytes. -/
theorem line_le_start (h : table.Proper) (hs : table.start? line = some start) : line ≤ start := by
  induction line generalizing start with
  | zero => exact Nat.zero_le _
  | succ line ih =>
    obtain ⟨previous, hprevious⟩ : ∃ previous, table.start? line = some previous := by
      obtain ⟨hl, -⟩ := List.getElem?_eq_some_iff.1 hs
      exact ⟨_, List.getElem?_eq_getElem (show line < table.starts.length by omega)⟩
    have := ih hprevious
    have := h.start?_lt hprevious hs (Nat.lt_add_one line)
    omega

theorem position_zero (h : table.Proper) : table.position 0 = ⟨0, 0⟩ := by
  have := h.startAt_le 0
  have := h.line_le_start (h.spec 0).1
  rw [h.position_eq, Position.mk.injEq]
  omega

end Proper

variable {t front back : Text} {offset offset' : Nat}

/-- A line does not run past a line feed. -/
theorem stopAt_le_feed (ht : t = front ++ '\n' :: back) (hle : offset ≤ Text.size front) :
    (ofText t).stopAt offset ≤ Text.size front := by
  have h := ofText_proper t
  have hmem : Text.size front + 1 ∈ (ofText t).starts :=
    mem_starts_ofText.2 (.inr ⟨front, back, ht, rfl⟩)
  obtain ⟨line, hline⟩ := List.mem_iff_getElem?.1 hmem
  have hlt : (ofText t).lineAt offset < line := by
    rcases Nat.lt_or_ge ((ofText t).lineAt offset) line with hlt | hge
    · exact hlt
    · have := h.start?_le hline (h.spec offset).1 hge
      have := h.startAt_le offset
      omega
  obtain ⟨next, hnext⟩ := Proper.exists_next hline hlt
  have hle := h.start?_le hnext hline hlt
  rcases h.stopAt_cases offset with ⟨n, hn, hstop⟩ | ⟨hnone, -⟩
  · rw [hnext] at hn
    obtain rfl := Option.some.inj hn
    omega
  · rw [hnext] at hnone
    exact absurd hnone (by simp)

/-- The offsets on the two sides of a line feed lie on different lines. -/
theorem lineAt_lt_of_feed (ht : t = front ++ '\n' :: back) (hle : offset ≤ Text.size front)
    (hlt : Text.size front < offset') : (ofText t).lineAt offset < (ofText t).lineAt offset' := by
  have h := ofText_proper t
  have hmem : Text.size front + 1 ∈ (ofText t).starts :=
    mem_starts_ofText.2 (.inr ⟨front, back, ht, rfl⟩)
  have hstart := h.le_startAt hmem (show Text.size front + 1 ≤ offset' from hlt)
  have hmono := h.lineAt_mono (show offset ≤ offset' by omega)
  rcases Nat.lt_or_eq_of_le hmono with hline | hline
  · exact hline
  · have := h.startAt_congr hline
    have := h.startAt_le offset
    omega

theorem startAt_after_feed (ht : t = front ++ '\n' :: back) :
    (ofText t).startAt (Text.size front + 1) = Text.size front + 1 := by
  have h := ofText_proper t
  have hmem : Text.size front + 1 ∈ (ofText t).starts :=
    mem_starts_ofText.2 (.inr ⟨front, back, ht, rfl⟩)
  exact Nat.le_antisymm (h.startAt_le _) (h.le_startAt hmem (Nat.le_refl _))

/-- A line before another one stops at a line feed. -/
theorem exists_feed (hlt : (ofText t).lineAt offset < (ofText t).lineAt offset') :
    ∃ front back, t = front ++ '\n' :: back ∧ Text.size front = (ofText t).stopAt offset ∧
      offset ≤ Text.size front ∧ Text.size front < offset' := by
  have h := ofText_proper t
  have hstop := h.stopAt_lt_startAt hlt
  have hstart := h.startAt_le offset'
  rcases h.stopAt_cases offset with ⟨next, hnext, heq⟩ | ⟨hnone, -⟩
  · have hpast := (h.spec offset).2.2 next hnext
    rcases mem_starts_ofText.1 (List.mem_iff_getElem?.2 ⟨_, hnext⟩) with
      hzero | ⟨front, back, ht, hfront⟩
    · omega
    · exact ⟨front, back, ht, by omega, by omega, by omega⟩
  · obtain ⟨next, hnext⟩ := Proper.exists_next (h.spec offset').1 hlt
    rw [hnext] at hnone
    exact absurd hnone (by simp)

/-- A line starts at the beginning of the text or after a line feed. -/
theorem startAt_cases (t : Text) (offset : Nat) :
    (ofText t).startAt offset = 0 ∨ ∃ front back, t = front ++ '\n' :: back ∧
      (ofText t).startAt offset = Text.size front + 1 :=
  mem_starts_ofText.1 ((ofText_proper t).startAt_mem offset)

/-- A character other than a line feed stays on its line. -/
theorem lineAt_after_char {c : Char} (ht : t = front ++ c :: back) (hc : c ≠ '\n') :
    (ofText t).lineAt (Text.size front + c.utf8Size) = (ofText t).lineAt (Text.size front) := by
  have h := ofText_proper t
  have hmono := h.lineAt_mono (Nat.le_add_right (Text.size front) c.utf8Size)
  rcases Nat.lt_or_eq_of_le hmono with hlt | heq
  · obtain ⟨u, v, hfeed, -, hle, hlt⟩ := exists_feed hlt
    obtain ⟨m, rfl, hback⟩ := Text.exists_middle (ht.symm.trans hfeed) hle
    cases m with
    | nil => exact absurd (List.cons.inj hback).1 hc
    | cons d m =>
      obtain ⟨rfl, -⟩ := List.cons.inj hback
      simp only [Text.size_append, Text.size_cons] at hlt
      omega
  · exact heq.symm

/-- The position after a character follows from the position before it. -/
theorem position_after {c : Char} (ht : t = front ++ c :: back) :
    (ofText t).position (Text.size front + c.utf8Size) =
      ((ofText t).position (Text.size front)).after c := by
  have h := ofText_proper t
  have hstart := h.startAt_le (Text.size front)
  rw [h.position_eq, h.position_eq, Position.after]
  by_cases hc : c = '\n'
  · subst hc
    have hfeed : '\n'.utf8Size = 1 := rfl
    rw [if_pos rfl, hfeed]
    have hlt := lineAt_lt_of_feed ht (Nat.le_refl _) (Nat.lt_add_one (Text.size front))
    have hmem : Text.size front + 1 ∈ (ofText t).starts :=
      mem_starts_ofText.2 (.inr ⟨front, back, ht, rfl⟩)
    have hline := h.le_startAt hmem (Nat.le_refl _)
    have hle := h.startAt_le (Text.size front + 1)
    obtain ⟨next, hnext⟩ := Proper.exists_next (h.spec (Text.size front + 1)).1 hlt
    have hbefore := (h.spec (Text.size front)).2.2 next hnext
    have hsame : (ofText t).lineAt (Text.size front + 1) ≤
        (ofText t).lineAt (Text.size front) + 1 := by
      rcases Nat.lt_or_ge ((ofText t).lineAt (Text.size front) + 1)
          ((ofText t).lineAt (Text.size front + 1)) with hlt' | hge
      · have := h.start?_lt hnext (h.spec (Text.size front + 1)).1 hlt'
        omega
      · exact hge
    simp only [Position.mk.injEq]
    omega
  · have hline := lineAt_after_char ht hc
    have := h.startAt_congr hline
    simp only [if_neg hc, Position.mk.injEq]
    omega

end LineTable

end BindBlocks
