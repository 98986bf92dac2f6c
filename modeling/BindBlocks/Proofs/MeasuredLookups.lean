import BindBlocks.Proofs.Lookups

/-! What a lookup answers. The pins can stand in any order and name any line and any column. An
offset is measured from the last of the rightmost pins at or before it on its line, without these
from the last pin of the nearest line above that has any, and without pins it stays as it is. The
answer does not leave the line that the pin leads to, and is the end of the text if there is no such
line. -/

namespace BindBlocks

namespace LineTable

/-- A line stops at its start or behind it, and within the text. -/
theorem Proper.exists_line {table : LineTable} (h : table.Proper) {line : Nat}
    (hLine : line < table.count) :
    ∃ start stop, table.start? line = some start ∧ table.stop? line = some stop ∧
      start ≤ stop ∧ stop ≤ table.size := by
  obtain ⟨start, hstart⟩ : ∃ start, table.start? line = some start :=
    ⟨_, List.getElem?_eq_getElem hLine⟩
  have hstop := h.stop?_lineAt start
  rw [h.lineAt_start hstart] at hstop
  exact ⟨start, table.stopAt start, hstart, hstop,
    h.le_stopAt (h.inside start (List.mem_of_getElem? hstart)), h.stopAt_le_size start⟩

end LineTable

namespace Pin

/-- The last of the pins with the greatest key among those that satisfy `p`. -/
def LastGreatest (key : Pin → Nat) (p : Pin → Bool) (pins : List Pin) (a : Pin) : Prop :=
  ∃ front back, pins = front ++ a :: back ∧ p a = true ∧
    (∀ b ∈ front, p b = true → key b ≤ key a) ∧ ∀ b ∈ back, p b = true → key b < key a

theorem chosen_iff_lastGreatest {key : Pin → Nat} {p : Pin → Bool} {pins : List Pin} {a : Pin} :
    Chosen p (fun b a => key a < key b) pins a ↔ LastGreatest key p pins a := by
  simp only [Chosen, LastGreatest, Nat.not_lt]

theorem find?_eq_none_iff {pins : List Pin} {line column : Nat} :
    find? pins line column = none ↔
      (∀ a ∈ pins, reaches line column a = false) ∧ ∀ a ∈ pins, line ≤ a.place.line := by
  have habove : lastBefore? pins line = none ↔ ∀ a ∈ pins, line ≤ a.place.line := by
    rw [lastBefore?, lowermost_choice.foldl_eq_none_iff]
    simp only [decide_eq_false_iff_not, Nat.not_lt]
  rw [← nearest?_eq_none_iff, ← habove, find?]
  cases nearest? pins line column <;> simp

/-- Where a pin leads from a column: as far along its target line as the distance is carried, but
not past the stop of the line, and to the end of the text if there is no such line. A target on line
zero is one on the first line. -/
def Leads (a : Pin) (next : Option Pin) (column : Nat) (there : LineTable) (answer : Nat) : Prop :=
  if a.target.line - 1 < there.count then
    ∃ start stop, there.start? (a.target.line - 1) = some start ∧
      there.stop? (a.target.line - 1) = some stop ∧ start ≤ answer ∧ answer ≤ stop ∧
      answer = min (start + (a.land next column).column) stop
  else answer = there.size

end Pin

namespace Locator

/-- The answer to a lookup of an offset that stands on a line, counted from one, at a column. -/
inductive Finds (pins : List Pin) (line column : Nat) (there : LineTable) (offset : Nat) :
    Nat → Prop
  | onLine {a : Pin} {next : Option Pin} {answer : Nat} :
      Pin.LastGreatest (·.place.column) (Pin.reaches line column) pins a →
      Pin.Limited pins line column next → a.Leads next column there answer →
      Finds pins line column there offset answer
  | above {a : Pin} {answer : Nat} :
      (∀ b ∈ pins, Pin.reaches line column b = false) →
      Pin.LastGreatest (·.place.line) (·.place.line < line) pins a →
      a.Leads none column there answer → Finds pins line column there offset answer
  | unpinned :
      (∀ b ∈ pins, Pin.reaches line column b = false) → (∀ b ∈ pins, line ≤ b.place.line) →
      Finds pins line column there offset offset

/-- A lookup that is measured from a pin and does not overflow goes where the pin leads. -/
theorem carry_leads {pins : List Pin} {here there : LineTable} {offset : Nat} {a : Pin}
    {next : Option Pin} (hThere : there.Proper)
    (hFind : Pin.find? pins ((here.position offset).line + 1) (here.position offset).column =
      some (a, next))
    (hFits : carry pins here there offset ≠ .error .addOverflow) :
    ∃ n, carry pins here there offset = .ok n ∧
      a.Leads next (here.position offset).column there n := by
  simp only [carry, hFind] at hFits ⊢
  generalize htarget : a.land next (here.position offset).column = target at hFits ⊢
  have hline : a.target.line - 1 = target.line := by rw [← htarget]; rfl
  simp only [Pin.Leads, htarget, hline]
  by_cases hexists : target.line < there.count
  · obtain ⟨start, stop, hstart, hstop, hle, hsize⟩ := hThere.exists_line hexists
    rcases there.offsetWithin_cases target with ⟨hnone, -⟩ |
      ⟨start', hstart', ⟨-, hlanded⟩ | ⟨-, hlanded⟩⟩
    · exact absurd (hnone.symm.trans hstart) (by simp)
    · obtain rfl := Option.some.inj (hstart.symm.trans hstart')
      refine ⟨min (min (start + target.column) there.size) stop, by rw [hlanded, hstop]; rfl, ?_⟩
      rw [if_pos hexists]
      exact ⟨start, stop, hstart, hstop, by omega, by omega, by omega⟩
    · rw [hlanded] at hFits
      exact absurd rfl hFits
  · have hstart : there.start? target.line = none := List.getElem?_eq_none (Nat.not_lt.1 hexists)
    have hstop : there.stop? target.line = none := if_neg hexists
    refine ⟨there.size, ?_, by rw [if_neg hexists]⟩
    rw [LineTable.offsetWithin, LineTable.offset?, hstart, hstop]
    rfl

/-- A lookup that does not overflow is answered from the pin that it is measured from, and without
such a pin it gives the offset back. -/
theorem carry_finds (pins : List Pin) (here : LineTable) {there : LineTable} (offset : Nat)
    (hThere : there.Proper) (hFits : carry pins here there offset ≠ .error .addOverflow) :
    ∃ n, carry pins here there offset = .ok n ∧
      Finds pins ((here.position offset).line + 1) (here.position offset).column there offset
        n := by
  cases hfind : Pin.find? pins ((here.position offset).line + 1) (here.position offset).column with
  | none =>
    obtain ⟨hreach, habove⟩ := Pin.find?_eq_none_iff.1 hfind
    exact ⟨offset, by simp only [carry, hfind], .unpinned hreach habove⟩
  | some found =>
    obtain ⟨a, next⟩ := found
    obtain ⟨n, hn, hleads⟩ := carry_leads hThere hfind hFits
    refine ⟨n, hn, ?_⟩
    cases Pin.find?_eq_some_iff.1 hfind with
    | onLine hchosen hlimited =>
      exact .onLine (Pin.chosen_iff_lastGreatest.1 hchosen) hlimited hleads
    | above hreach hchosen => exact .above hreach (Pin.chosen_iff_lastGreatest.1 hchosen) hleads

/-- Along pins in any order a lookup that does not overflow is answered from the right pin, and on
the line that this pin leads to. -/
theorem lookups_measured (source generated : Text) (entries : List MapEntry) (offset : Nat) :
    let l := ofEntries source generated entries
    let p := l.source.position offset
    let q := l.generated.position offset
    (l.toGenerated offset ≠ .error .addOverflow → ∃ n, l.toGenerated offset = .ok n ∧
        Finds l.fromSource (p.line + 1) p.column l.generated offset n) ∧
      (l.toSource offset ≠ .error .addOverflow → ∃ n, l.toSource offset = .ok n ∧
        Finds l.fromGenerated (q.line + 1) q.column l.source offset n) :=
  ⟨carry_finds _ _ offset (LineTable.ofText_proper generated),
    carry_finds _ _ offset (LineTable.ofText_proper source)⟩

/-- Of two pins at one column the last one counts, although the other leads beyond the text; and it
counts for the next line too, where the only pin stands behind the offset. -/
theorem lookups_measured_tie :
    let entries : List MapEntry :=
      [⟨⟨0, 0⟩, ⟨2, 5⟩, some 0, none⟩, ⟨⟨1, 1⟩, ⟨1, 0⟩, some 0, none⟩,
        ⟨⟨9, 9⟩, ⟨1, 1⟩, some 0, none⟩, ⟨⟨2, 0⟩, ⟨1, 1⟩, some 0, none⟩]
    let l := ofEntries "ab\ncd".toList "xy\nzw".toList entries
    (l.toGenerated 4 = .ok 3 ∧ Finds l.fromSource 2 1 l.generated 4 3) ∧
      (l.toSource 4 = .ok 2 ∧ Finds l.fromGenerated 2 1 l.source 4 2) := by
  intro entries l
  have hgenerated : l.toGenerated 4 = .ok 3 := rfl
  have hsource : l.toSource 4 = .ok 2 := rfl
  obtain ⟨hforth, hback⟩ := lookups_measured "ab\ncd".toList "xy\nzw".toList entries 4
  obtain ⟨n, hn, hfinds⟩ := hforth fun h => absurd (hgenerated.symm.trans h) (by simp)
  obtain ⟨m, hm, hfinds'⟩ := hback fun h => absurd (hsource.symm.trans h) (by simp)
  obtain rfl := Except.ok.inj (hn.symm.trans hgenerated)
  obtain rfl := Except.ok.inj (hm.symm.trans hsource)
  exact ⟨⟨hn, hfinds⟩, ⟨hm, hfinds'⟩⟩

end Locator

end BindBlocks
