import BindBlocks.Proofs.MeasuredLookups

/-! Positions count the line feeds among the bytes of a text. The number of the line of an offset is
the number of line feeds before the offset, so no byte of a line is one, and between the offsets of
a text and the positions on its lines each conversion undoes the other. -/

namespace BindBlocks

namespace Text

/-- The bytes of a text. -/
def bytes (t : Text) : List UInt8 := t.flatMap String.utf8EncodeChar

theorem toByteArray_bytes (t : Text) : (bytes t).toByteArray = (String.ofList t).toByteArray := rfl

theorem bytes_cons (c : Char) (t : Text) : bytes (c :: t) = String.utf8EncodeChar c ++ bytes t :=
  List.flatMap_cons

@[simp]
theorem length_bytes (t : Text) : (bytes t).length = size t := by
  induction t with
  | nil => rfl
  | cons c t ih => rw [bytes_cons, List.length_append, String.length_utf8EncodeChar, ih, size_cons]

theorem utf8EncodeChar_of_lt {c : Char} (h : c.toNat < 128) :
    String.utf8EncodeChar c = [UInt8.ofNat c.toNat] := by
  simp only [String.utf8EncodeChar]
  rw [if_pos (show c.val.toNat ≤ 127 from Nat.le_of_lt_succ h)]
  rfl

/-- All bytes of a longer character are high. -/
theorem high_of_mem_utf8EncodeChar {c : Char} {b : UInt8} (hHigh : ¬ c.toNat < 128)
    (hb : b ∈ String.utf8EncodeChar c) : ¬ b.toNat < 128 := by
  have hbyte : ∀ n, 128 ≤ n → n < 256 → b = UInt8.ofNat n → ¬ b.toNat < 128 := by
    rintro n hlow hhigh rfl
    rw [UInt8.toNat_ofNat']
    omega
  have hval : ¬ c.val.toNat ≤ 127 := fun h => hHigh (Nat.lt_succ_of_le h)
  simp only [String.utf8EncodeChar, if_neg hval] at hb
  split at hb
  · simp only [List.mem_cons, List.not_mem_nil, or_false] at hb
    rcases hb with hb | hb <;> exact hbyte _ (by omega) (by omega) hb
  · split at hb
    · simp only [List.mem_cons, List.not_mem_nil, or_false] at hb
      rcases hb with hb | hb | hb <;> exact hbyte _ (by omega) (by omega) hb
    · simp only [List.mem_cons, List.not_mem_nil, or_false] at hb
      rcases hb with hb | hb | hb | hb <;> exact hbyte _ (by omega) (by omega) hb

/-- The byte of a line feed stands in no other character. -/
theorem feed_not_mem_utf8EncodeChar {c : Char} (h : c ≠ '\n') :
    '\n'.toUInt8 ∉ String.utf8EncodeChar c := by
  intro hmem
  by_cases hc : c.toNat < 128
  · rw [utf8EncodeChar_of_lt hc, List.mem_singleton] at hmem
    have hbyte := congrArg UInt8.toNat hmem
    rw [UInt8.toNat_ofNat', Nat.mod_eq_of_lt (by omega)] at hbyte
    exact h (Char.ext (UInt32.toNat_inj.1 hbyte.symm))
  · exact high_of_mem_utf8EncodeChar hc hmem (by decide)

end Text

theorem Position.numbered_le (p q : Position) : p.numbered.le q.numbered = p.le q := by
  rw [Bool.eq_iff_iff]
  simp only [le, Bool.or_eq_true, Bool.and_eq_true, beq_iff_eq, decide_eq_true_eq]
  simp only [numbered]
  omega

namespace LineTable

/-- The walk along the breaks counts the line feeds before the offset. -/
theorem line_locate (offset line start base : Nat) (t : Text) :
    (locate offset line start (breaksFrom base t)).line =
      line + ((Text.bytes t).take (offset - base)).count '\n'.toUInt8 := by
  induction t generalizing line start base with
  | nil => simp [breaksFrom, locate, Text.bytes]
  | cons c t ih =>
    rw [breaksFrom, Text.bytes_cons]
    by_cases hc : c = '\n'
    · subst hc
      have hfeed : '\n'.utf8Size = 1 := rfl
      have hbytes : String.utf8EncodeChar '\n' = ['\n'.toUInt8] := rfl
      simp only [if_true, locate, hfeed, hbytes, List.singleton_append]
      by_cases hle : base + 1 ≤ offset
      · have hsucc : offset - base = offset - (base + 1) + 1 := by omega
        rw [if_pos hle, ih, hsucc, List.take_succ_cons, List.count_cons_self]
        omega
      · have hzero : offset - base = 0 := by omega
        rw [if_neg hle, hzero, List.take_zero, List.count_nil, Nat.add_zero]
    · have hnone : ((String.utf8EncodeChar c).take (offset - base)).count '\n'.toUInt8 = 0 :=
        List.count_eq_zero.2 fun hmem =>
          Text.feed_not_mem_utf8EncodeChar hc (List.mem_of_mem_take hmem)
      simp only [hc, if_false]
      rw [ih, List.take_append, List.count_append, hnone, String.length_utf8EncodeChar,
        Nat.zero_add, Nat.sub_sub]

theorem lineAt_eq_count (t : Text) (offset : Nat) :
    (ofText t).lineAt offset = ((Text.bytes t).take offset).count '\n'.toUInt8 := by
  have hline := line_locate offset 0 0 0 t
  rwa [Nat.zero_add, Nat.sub_zero] at hline

/-- The line after the byte of a line feed is another one. -/
theorem lineAt_lt_succ {t : Text} {i : Nat} (h : (Text.bytes t)[i]? = some '\n'.toUInt8) :
    (ofText t).lineAt i < (ofText t).lineAt (i + 1) := by
  rw [lineAt_eq_count, lineAt_eq_count, List.take_add_one, h, Option.toList_some, List.count_append,
    List.count_singleton_self]
  exact Nat.lt_add_one _

namespace Proper

variable {table : LineTable} {offset line start stop : Nat}

/-- An offset is found again from its position. -/
theorem offset?_position (h : table.Proper) (hFits : offset < Offset.bound) :
    table.offset? (table.position offset) = .ok (some offset) := by
  have hle := h.startAt_le offset
  have hsum : table.startAt offset + (offset - table.startAt offset) = offset := by omega
  rw [h.position_eq, offset?, (h.spec offset).1]
  simp only [Offset.add, hsum, hFits, if_true]
  rfl

/-- The offsets from the start of a line to its stop lie on it. -/
theorem position_of_line (h : table.Proper) (hStart : table.start? line = some start)
    (hStop : table.stop? line = some stop) (hLow : start ≤ offset) (hHigh : offset ≤ stop) :
    table.position offset = ⟨line, offset - start⟩ := by
  have hline := h.lineAt_start hStart
  have hstart := (h.spec start).1
  have hstop := h.stop?_lineAt start
  rw [hline, hStart, Option.some.injEq] at hstart
  rw [hline, hStop, Option.some.injEq] at hstop
  have hon := h.lineAt_eq_of_le_stopAt hLow (hstop ▸ hHigh)
  rw [h.position_eq, hon, h.startAt_congr hon, hline, ← hstart]

end Proper

/-- A text and its lines: the line of an offset is counted by the line feeds among the bytes before
it, an offset is found again from its position, and positions are in the order of their offsets;
each line has a start and a stop, the positions between them are found again from their offsets, and
no byte between them is a line feed. -/
theorem positions_inverse (t : Text) (hFits : Text.size t < Offset.bound) :
    (∀ n < Offset.bound,
      ((ofText t).position n).line =
        ((Text.bytes t).take (min n (Text.size t))).count '\n'.toUInt8 ∧
      (ofText t).offset? ((ofText t).position n) = .ok (some n) ∧
      ∀ m, n ≤ m → ((ofText t).position n).le ((ofText t).position m) = true) ∧
    ∀ line < (ofText t).count, ∃ start stop,
      (ofText t).start? line = some start ∧ (ofText t).stop? line = some stop ∧
      (∀ column, start + column ≤ stop →
        (ofText t).offset? ⟨line, column⟩ = .ok (some (start + column)) ∧
        (ofText t).position (start + column) = ⟨line, column⟩) ∧
      ∀ i, start ≤ i → i < stop → ∃ b, (Text.bytes t)[i]? = some b ∧ b ≠ '\n'.toUInt8 := by
  have h := ofText_proper t
  constructor
  · intro n hn
    refine ⟨?_, h.offset?_position hn, fun m hle => ?_⟩
    · rw [← Text.length_bytes, ← List.take_eq_take_min]
      exact lineAt_eq_count t n
    · rw [← Position.numbered_le]
      exact h.position_le hle
  · intro line hline
    obtain ⟨start, stop, hstart, hstop, hle, hsize⟩ := h.exists_line hline
    have hsize : stop ≤ Text.size t := hsize
    refine ⟨start, stop, hstart, hstop, fun column hcolumn => ?_, fun i hlow hhigh => ?_⟩
    · have hposition := h.position_of_line hstart hstop (Nat.le_add_right start column) hcolumn
      rw [Nat.add_sub_cancel_left] at hposition
      have hfits : start + column < Offset.bound := by omega
      have hoffset := h.offset?_position hfits
      rw [hposition] at hoffset
      exact ⟨hoffset, hposition⟩
    · have hlength : i < (Text.bytes t).length := by
        rw [Text.length_bytes]
        omega
      refine ⟨_, List.getElem?_eq_getElem hlength, fun hfeed => ?_⟩
      have hlt := lineAt_lt_succ (hfeed ▸ List.getElem?_eq_getElem hlength)
      rw [lineAt, lineAt, h.position_of_line hstart hstop hlow (Nat.le_of_lt hhigh),
        h.position_of_line hstart hstop (Nat.le_succ_of_le hlow) hhigh] at hlt
      exact Nat.lt_irrefl line hlt

/-- An offset past the end of a text lies on its last line, behind two line feeds and a character of
two bytes. -/
theorem positions_inverse_past_end :
    Text.size ['é', '\n', '\n', 'x'] < Offset.bound ∧
    (ofText ['é', '\n', '\n', 'x']).offset? ⟨2, 5⟩ = .ok (some 9) ∧
    ((Text.bytes ['é', '\n', '\n', 'x']).take (min 9 (Text.size ['é', '\n', '\n', 'x']))).count
      '\n'.toUInt8 = 2 := by
  have hfits : Text.size ['é', '\n', '\n', 'x'] < Offset.bound := by decide
  have hposition : (ofText ['é', '\n', '\n', 'x']).position 9 = ⟨2, 5⟩ := by decide
  obtain ⟨hline, hoffset, -⟩ := (positions_inverse ['é', '\n', '\n', 'x'] hfits).1 9 (by decide)
  rw [hposition] at hline hoffset
  exact ⟨hfits, hoffset, hline.symm⟩

end LineTable

end BindBlocks
