import BindBlocks.Proofs.Anchors

/-! Looking up offsets through the document that ships with a revision. Text that no edit touches is
found exactly, in both directions. The lookups keep the order of offsets as long as every line feed
that an edit takes away leaves a blank line behind, and so in particular if the edits take away no
line feed. -/

namespace BindBlocks

namespace Revision

open Edit

variable {r : Revision} {es : List Edit} {p q o : Nat} {x : Nat × Nat}

theorem mem_forward (h : r.IsWeave es) (hText : r.text.Addressable) :
    x ∈ (h.forward hText).anchors ↔ x.1 ∈ r.anchors ∧ x.2 = r.place x.1 := by
  constructor
  · intro hx
    obtain ⟨o, ho, rfl⟩ := List.mem_map.1 hx
    exact ⟨ho, rfl⟩
  · rintro ⟨hmem, hplace⟩
    exact List.mem_map.2 ⟨x.1, hmem, Prod.ext rfl hplace.symm⟩

/-- Some offset at or before a boundary goes to the same place and is an anchor. -/
theorem IsWeave.exists_anchor (h : r.IsWeave es) (hFits : Text.size r.text < Offset.bound)
    (ho : o ∈ Text.boundaries r.source) : ∃ a ∈ r.anchors, a ≤ o ∧ r.place a = r.place o := by
  induction o using Nat.strong_induction_on with
  | _ o ih =>
    by_cases hanchor : o ∈ r.anchors
    · exact ⟨o, hanchor, Nat.le_refl o, rfl⟩
    · rw [mem_anchors] at hanchor
      push Not at hanchor
      obtain ⟨o', ho', hlt, hplace⟩ := hanchor ho
      obtain ⟨a, ha, hle, heq⟩ := ih o' hlt ho'
      have hmono := h.place_mono hFits (Text.le_size_of_mem_boundaries ho) (Nat.le_of_lt hlt)
      exact ⟨a, ha, by omega, by omega⟩

theorem IsWeave.exists_nearest (h : r.IsWeave es) (hText : r.text.Addressable) (p : Nat) :
    ∃ x, (h.forward hText).Nearest p x := by
  have hzero : 0 ∈ r.anchors := by
    rw [mem_anchors, Text.mem_boundaries]
    exact ⟨⟨[], r.source, rfl, rfl⟩, fun o' _ hlt => absurd hlt (Nat.not_lt_zero o')⟩
  exact Rail.Nearest.exists_of_mem (x := (0, r.place 0)) ((mem_forward h hText).2 ⟨hzero, rfl⟩)
    (Nat.zero_le p)

/-- Between an offset and the anchor that it is measured from, everything goes to one place. -/
theorem IsWeave.place_of_nearest (h : r.IsWeave es) (hText : r.text.Addressable)
    (hx : (h.forward hText).Nearest p x) (ho : o ∈ Text.boundaries r.source) (hxo : x.1 ≤ o)
    (hop : o ≤ p) : r.place o = x.2 := by
  obtain ⟨hmem, hplace⟩ := (mem_forward h hText).1 hx.mem
  obtain ⟨a, ha, hao, hsame⟩ := h.exists_anchor hText.size ho
  have hax : a ≤ x.1 :=
    hx.last (a, r.place a) ((mem_forward h hText).2 ⟨ha, rfl⟩) (Nat.le_trans hao hop)
  have hsize := Text.le_size_of_mem_boundaries ho
  have hle := h.place_mono hText.size (Nat.le_trans hxo hsize) hax
  have hge := h.place_mono hText.size hsize hxo
  omega

theorem IsWeave.place_lt_of_free (h : r.IsWeave es) (hFits : Text.size r.text < Offset.bound)
    (hlt : o < p) (hp : p ≤ Text.size r.source) (hFree : ∀ e ∈ es, ¬ e.Covers o) :
    r.place o < r.place p := by
  rw [h.place_eq hFits hp, h.place_eq hFits (by omega)]
  exact landing_lt_of_free h.woven.inOrder (Nat.zero_le o) hlt hFree

/-- If what follows an offset goes to the same place, an edit takes the offset away. -/
theorem IsWeave.covered_of_place_eq (h : r.IsWeave es) (hFits : Text.size r.text < Offset.bound)
    (hlt : o < p) (hp : p ≤ Text.size r.source) (hSame : r.place p = r.place o) :
    ∃ e ∈ es, e.Covers o := by
  by_contra hfree
  push Not at hfree
  have := h.place_lt_of_free hFits hlt hp hfree
  omega

/-- A character that no edit takes away stands at its place. -/
theorem IsWeave.survives (h : r.IsWeave es) (hFits : Text.size r.text < Offset.bound)
    {front back : Text} {c : Char} (hSource : r.source = front ++ c :: back)
    (hFree : ∀ e ∈ es, ¬ e.Covers (Text.size front)) :
    ∃ before after, r.text = before ++ c :: after ∧
      Text.size before = r.place (Text.size front) := by
  obtain ⟨before, after, hresult, hsize⟩ :=
    h.woven.survives hSource (Nat.zero_add _).symm hFree
  refine ⟨before, after, hresult, ?_⟩
  rw [hsize, h.place_eq hFits]
  rw [hSource, Text.size_append]
  omega

/-- A boundary is an anchor if every replacement puts something in its place and none takes away the
text around the boundary. -/
theorem IsWeave.mem_anchors_of_outside (h : r.IsWeave es) (hFits : Text.size r.text < Offset.bound)
    (ho : o ∈ Text.boundaries r.source) (hText : ∀ e ∈ es, e.isReplace = true → e.text ≠ [])
    (hOutside : ∀ e ∈ es, ¬ (e.start < o ∧ o < e.stop)) : o ∈ r.anchors := by
  have hsize := Text.le_size_of_mem_boundaries ho
  refine mem_anchors.2 ⟨ho, fun o' _ hlt => ?_⟩
  rw [h.place_eq hFits hsize, h.place_eq hFits (by omega)]
  exact landing_lt_of_outside h.woven.inOrder (Nat.zero_le o') hlt hText hOutside

/-- An anchor is found exactly, in both directions. -/
theorem IsWeave.locate_anchor (h : r.IsWeave es) (hSource : r.source.Addressable)
    (hText : r.text.Addressable) (header : MapHeader) (ho : o ∈ r.anchors) :
    (Locator.ofDocument r.source r.text (r.document header)).toGenerated o = .ok (r.place o) ∧
      (Locator.ofDocument r.source r.text (r.document header)).toSource (r.place o) = .ok o := by
  have hforward : (o, r.place o) ∈ (h.forward hText).anchors := List.mem_map.2 ⟨o, ho, rfl⟩
  have hbackward : (r.place o, o) ∈ (backward hSource).anchors := List.mem_map.2 ⟨o, ho, rfl⟩
  rw [h.toGenerated_eq hSource hText, h.toSource_eq hSource hText]
  exact ⟨Rail.carry_anchor hforward, Rail.carry_anchor hbackward⟩

/-- A lookup returns an offset if there is room for the offset that it measures. -/
theorem IsWeave.toGenerated_returns (h : r.IsWeave es) (hSource : r.source.Addressable)
    (hText : r.text.Addressable) (header : MapHeader)
    (hRoom : p + Text.size r.text < Offset.bound) :
    ∃ n, (Locator.ofDocument r.source r.text (r.document header)).toGenerated p = .ok n := by
  obtain ⟨x, hx⟩ := h.exists_nearest hText p
  have htarget := Rail.target_le (h.forward hText) p x
  have hinside : x.2 ≤ Text.size r.text := (h.forward hText).inside x hx.mem
  rw [h.toGenerated_eq hSource hText]
  exact ⟨_, Rail.carry_eq hx (by omega)⟩

/-- Every line feed that an edit takes away goes to a blank line. -/
def BlankFeeds (r : Revision) (es : List Edit) : Prop :=
  ∀ front back, r.source = front ++ '\n' :: back → (∃ e ∈ es, e.Covers (Text.size front)) →
    (LineTable.ofText r.text).IsBlankAt (r.place (Text.size front))

/-- An offset that is measured from an earlier line goes to a blank line. -/
theorem IsWeave.blank_of_gap (h : r.IsWeave es) (hText : r.text.Addressable)
    (hBlank : r.BlankFeeds es) (hx : (h.forward hText).Nearest p x)
    (hLine : (LineTable.ofText r.source).lineAt x.1 ≠ (LineTable.ofText r.source).lineAt p) :
    (LineTable.ofText r.text).IsBlankAt x.2 := by
  have hmono := (LineTable.ofText_proper r.source).lineAt_mono hx.le
  obtain ⟨front, back, hfeed, -, hxm, hmp⟩ :=
    LineTable.exists_feed (Nat.lt_of_le_of_ne hmono hLine)
  obtain ⟨hbefore, hafter⟩ := Text.mem_boundaries_feed hfeed
  have hplace := h.place_of_nearest hText hx hbefore hxm (by omega)
  have hplace' := h.place_of_nearest hText hx hafter (by omega) hmp
  rw [← hplace]
  apply hBlank front back hfeed
  exact h.covered_of_place_eq hText.size (Nat.lt_add_one _) (Text.le_size_of_mem_boundaries hafter)
    (hplace'.trans hplace.symm)

/-- The line that an offset goes to ends before the anchors of later lines. -/
theorem IsWeave.stopAt_le_anchor (h : r.IsWeave es) (hText : r.text.Addressable)
    (hBlank : r.BlankFeeds es) (hx : (h.forward hText).Nearest p x) {y : Nat × Nat}
    (hy : y ∈ (h.forward hText).anchors) (hlt : p < y.1)
    (hLine : (LineTable.ofText r.source).lineAt y.1 ≠ (LineTable.ofText r.source).lineAt p) :
    (LineTable.ofText r.text).stopAt x.2 ≤ y.2 := by
  have hproper := LineTable.ofText_proper r.text
  obtain ⟨hymem, hyplace⟩ := (mem_forward h hText).1 hy
  obtain ⟨-, hxplace⟩ := (mem_forward h hText).1 hx.mem
  have hmono := (LineTable.ofText_proper r.source).lineAt_mono (Nat.le_of_lt hlt)
  obtain ⟨front, back, hfeed, -, hpm, hmy⟩ :=
    LineTable.exists_feed (Nat.lt_of_le_of_ne hmono (Ne.symm hLine))
  have hysize := Text.le_size_of_mem_boundaries (mem_anchors.1 hymem).1
  have hxle := hx.le
  have hxfeed := h.place_mono hText.size (show Text.size front ≤ _ by omega)
    (show x.1 ≤ Text.size front by omega)
  have hfeedy := h.place_mono hText.size hysize (Nat.le_of_lt hmy)
  rw [← hxplace] at hxfeed
  rw [← hyplace] at hfeedy
  by_cases htaken : ∃ e ∈ es, e.Covers (Text.size front)
  · obtain ⟨hstart, hstop⟩ := hBlank front back hfeed htaken
    rcases Nat.lt_or_eq_of_le (hproper.lineAt_mono hxfeed) with hbelow | hsame
    · have := hproper.stopAt_lt_startAt hbelow
      omega
    · have := LineTable.Proper.stopAt_congr hsame
      omega
  · push Not at htaken
    obtain ⟨before, after, hresult, hsize⟩ := h.survives hText.size hfeed htaken
    have := LineTable.stopAt_le_feed hresult (show x.2 ≤ Text.size before by omega)
    omega

/-- The order of offsets is kept if every line feed that an edit takes away goes to a blank line. -/
theorem IsWeave.toGenerated_mono (h : r.IsWeave es) (hSource : r.source.Addressable)
    (hText : r.text.Addressable) (header : MapHeader) (hBlank : r.BlankFeeds es) (hle : p ≤ q)
    {m n : Nat}
    (hm : (Locator.ofDocument r.source r.text (r.document header)).toGenerated p = .ok m)
    (hn : (Locator.ofDocument r.source r.text (r.document header)).toGenerated q = .ok n) :
    m ≤ n := by
  rw [h.toGenerated_eq hSource hText] at hm hn
  obtain ⟨x, hx⟩ := h.exists_nearest hText p
  apply Rail.carry_mono _ _ hx hle hm hn
  · intro p x hx hline
    exact h.blank_of_gap hText hBlank hx hline
  · intro p x y hx hy hlt hline
    exact h.stopAt_le_anchor hText hBlank hx hy hlt hline

end Revision

namespace Draft

open Edit

/-- Orderly edits with nothing empty put in place of a span can be made. In the document of the
result, every boundary that lies inside no replaced span is found at its place and found again from
there. -/
theorem commit_places_exact (source : Text) (edits : List Edit) (header : MapHeader)
    (hOrderly : Orderly (edits.map (clamp source)))
    (hFilled : ∀ e ∈ edits.map (clamp source), e.isReplace = true → e.text ≠ [])
    (hSource : source.Addressable) :
    ∃ r, ((ofText source).pushAll edits).commit = .ok r ∧
      (r.text.Addressable → ∀ o, Text.isBoundary source o = true →
        (∀ e ∈ edits.map (clamp source), ¬ (e.start < o ∧ o < e.stop)) →
        (Locator.ofDocument source r.text (r.document header)).toGenerated o = .ok (r.place o) ∧
        (Locator.ofDocument source r.text (r.document header)).toSource (r.place o) = .ok o) := by
  obtain ⟨r, es, hcommit, rfl, hperm, h⟩ := commit_orderly hOrderly
  refine ⟨r, hcommit, fun hText o ho hOutside => h.locate_anchor hSource hText header ?_⟩
  apply h.mem_anchors_of_outside hText.size
  · obtain ⟨front, back, hsplit, hsize⟩ := Text.isBoundary_iff.1 ho
    exact Text.mem_boundaries.2 ⟨front, back, hsplit, hsize.symm⟩
  · exact fun e he => hFilled e (hperm.mem_iff.1 he)
  · exact fun e he => hOutside e (hperm.mem_iff.1 he)

/-- The offset after a replacement that adds a line and before an insertion of two bytes. -/
theorem commit_places_exact_between :
    ∃ r, ((ofText "ab\ncd".toList).pushAll
        [.replace ⟨1, 2⟩ "x\ny".toList, .insertLeft 4 "é".toList]).commit = .ok r ∧
      (Locator.ofDocument "ab\ncd".toList r.text (r.document ⟨none, none, false⟩)).toGenerated 3 =
        .ok (r.place 3) ∧
      (Locator.ofDocument "ab\ncd".toList r.text (r.document ⟨none, none, false⟩)).toSource
        (r.place 3) = .ok 3 := by
  have horderly : Orderly ([replace ⟨1, 2⟩ "x\ny".toList, insertLeft 4 "é".toList].map
      (clamp "ab\ncd".toList)) := by decide
  obtain ⟨r, hcommit, hplaces⟩ := commit_places_exact "ab\ncd".toList
    [.replace ⟨1, 2⟩ "x\ny".toList, .insertLeft 4 "é".toList] ⟨none, none, false⟩
    horderly (by decide) (Text.addressable_of_size (by decide))
  have hsize : Text.size r.text = 9 := Int.natCast_inj.1 (size_commit horderly hcommit)
  have hText : r.text.Addressable := Text.addressable_of_size (by rw [hsize]; decide)
  exact ⟨r, hcommit, hplaces hText 3 (by decide) (by decide)⟩

/-- Orderly edits that take away no line feed can be made, and the lookups from the source through
the document of the result keep the order of offsets. -/
theorem commit_lookups_mono (source : Text) (edits : List Edit) (header : MapHeader)
    (hOrderly : Orderly (edits.map (clamp source)))
    (hLines : ∀ e ∈ edits.map (clamp source), ∀ front back, source = front ++ '\n' :: back →
      ¬ e.Covers (Text.size front))
    (hSource : source.Addressable) :
    ∃ r, ((ofText source).pushAll edits).commit = .ok r ∧
      (r.text.Addressable →
        (∀ p, p + Text.size r.text < Offset.bound →
          ∃ m, (Locator.ofDocument source r.text (r.document header)).toGenerated p = .ok m) ∧
        ∀ p q m n, p ≤ q →
          (Locator.ofDocument source r.text (r.document header)).toGenerated p = .ok m →
          (Locator.ofDocument source r.text (r.document header)).toGenerated q = .ok n →
          m ≤ n) := by
  obtain ⟨r, es, hcommit, rfl, hperm, h⟩ := commit_orderly hOrderly
  refine ⟨r, hcommit, fun hText => ⟨fun p => h.toGenerated_returns hSource hText header, ?_⟩⟩
  intro p q m n hle hm hn
  refine h.toGenerated_mono hSource hText header ?_ hle hm hn
  rintro front back hfeed ⟨e, he, hcovers⟩
  exact absurd hcovers (hLines e (hperm.mem_iff.1 he) front back hfeed)

/-- A line loses its text, and the next one becomes two lines. The first offset is inside the text
that is lost, and the second one inside the last character. -/
theorem commit_lookups_mono_inside :
    ∃ r, ((ofText "ab\ncé".toList).pushAll
        [.replace ⟨0, 2⟩ [], .replace ⟨3, 4⟩ "x\ny".toList]).commit = .ok r ∧
      ∃ m n, m ≤ n ∧
        (Locator.ofDocument "ab\ncé".toList r.text (r.document ⟨none, none, false⟩)).toGenerated 1 =
          .ok m ∧
        (Locator.ofDocument "ab\ncé".toList r.text (r.document ⟨none, none, false⟩)).toGenerated 5 =
          .ok n := by
  have horderly : Orderly ([replace ⟨0, 2⟩ [], replace ⟨3, 4⟩ "x\ny".toList].map
      (clamp "ab\ncé".toList)) := by decide
  have hlines : ∀ e ∈ [replace ⟨0, 2⟩ [], replace ⟨3, 4⟩ "x\ny".toList].map
      (clamp "ab\ncé".toList), ∀ front back, "ab\ncé".toList = front ++ '\n' :: back →
      ¬ e.Covers (Text.size front) := by
    intro e he front back hfeed
    have hstart : Text.size front + 1 ∈ (LineTable.ofText "ab\ncé".toList).starts :=
      LineTable.mem_starts_ofText.2 (.inr ⟨front, back, hfeed, rfl⟩)
    have hstarts : (LineTable.ofText "ab\ncé".toList).starts = [0, 3] := by decide
    have hsize : Text.size front = 2 := by
      simp only [hstarts, List.mem_cons, List.not_mem_nil, or_false] at hstart
      omega
    rw [hsize]
    revert e
    decide
  obtain ⟨r, hcommit, hlookups⟩ := commit_lookups_mono "ab\ncé".toList
    [.replace ⟨0, 2⟩ [], .replace ⟨3, 4⟩ "x\ny".toList] ⟨none, none, false⟩
    horderly hlines (Text.addressable_of_size (by decide))
  have hsize : Text.size r.text = 6 := Int.natCast_inj.1 (size_commit horderly hcommit)
  have hText : r.text.Addressable := Text.addressable_of_size (by rw [hsize]; decide)
  obtain ⟨m, hm⟩ := (hlookups hText).1 1 (by rw [hsize]; decide)
  obtain ⟨n, hn⟩ := (hlookups hText).1 5 (by rw [hsize]; decide)
  exact ⟨r, hcommit, m, n, (hlookups hText).2 1 5 m n (by decide) hm hn, hm, hn⟩

end Draft

end BindBlocks
