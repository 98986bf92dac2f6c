import BindBlocks.Proofs.Blockwise
import BindBlocks.Proofs.Places

/-! When the lookups into the code of an expansion keep the order of offsets. An edit that takes
away a line feed leaves the start of the next line without an anchor. An offset there is measured by
its column alone, so it can go to a place before that of the line feed. If no edit takes away a line
feed at its ends, the order is kept exactly if all of them go to blank lines. In an expansion these
are the line feeds between the keyword and the brace of a wrapped block. -/

namespace BindBlocks

/-- No edit takes away a line feed at one of its ends. -/
def Edit.FeedsInside (source : Text) (es : List Edit) : Prop :=
  ∀ e ∈ es, ∀ front back, source = front ++ '\n' :: back → e.Covers (Text.size front) →
    e.start < Text.size front ∧ Text.size front + 1 < e.stop

/-- The offsets up to a size can be looked up, and the results are in their order. -/
def Locator.KeepsOrder (lookup : Nat → Except Fault Nat) (size : Nat) : Prop :=
  ∀ p q, p ≤ q → q ≤ size → ∃ m n, lookup p = .ok m ∧ lookup q = .ok n ∧ m ≤ n

namespace Revision

open Edit

variable {r : Revision} {es : List Edit} {a o p : Nat}

theorem IsWeave.start_mem_boundaries (h : r.IsWeave es) {e : Edit} (he : e ∈ es) :
    e.start ∈ Text.boundaries r.source := by
  obtain ⟨front, back, hsplit, hstart⟩ := (h.woven.ends e he).1
  rw [Nat.zero_add] at hstart
  exact Text.mem_boundaries.2 ⟨front, back, hsplit, hstart⟩

/-- An edit starts at every anchor whose text it takes away. -/
theorem IsWeave.start_eq_anchor (h : r.IsWeave es) (hFits : Text.size r.text < Offset.bound)
    (ha : a ∈ r.anchors) {e : Edit} (he : e ∈ es) (hCovers : e.Covers a) : e.start = a := by
  obtain ⟨hmem, hfirst⟩ := mem_anchors.1 ha
  have hsame := h.place_of_covers hFits he hCovers (Text.le_size_of_mem_boundaries hmem)
  rcases Nat.lt_or_eq_of_le hCovers.1 with hlt | heq
  · have := hfirst e.start (h.start_mem_boundaries he) hlt
    omega
  · exact heq

/-- Up to the next anchor, boundaries are measured from the last one. -/
theorem IsWeave.nearest_of_place_eq (h : r.IsWeave es) (hText : r.text.Addressable)
    (ha : a ∈ r.anchors) (hle : a ≤ o) (ho : o ≤ Text.size r.source)
    (hSame : r.place o = r.place a) : (h.forward hText).Nearest o (a, r.place a) := by
  refine ⟨(mem_forward h hText).2 ⟨ha, rfl⟩, hle, fun y hy hyo => ?_⟩
  obtain ⟨hymem, -⟩ := (mem_forward h hText).1 hy
  rcases Nat.lt_or_ge a y.1 with hlt | hge
  · have := (mem_anchors.1 hymem).2 a (mem_anchors.1 ha).1 hlt
    have := h.place_mono hText.size ho hyo
    omega
  · exact hge

/-- If an edit starts at an anchor that starts a line of the source, the anchor starts a line of the
edited text. -/
theorem IsWeave.startAt_place (h : r.IsWeave es) (hFits : Text.size r.text < Offset.bound)
    (hRising : es.Pairwise fun e f => e.start < f.start) (hInside : FeedsInside r.source es)
    (ha : a ∈ r.anchors) {e : Edit} (he : e ∈ es) (hCovers : e.Covers a)
    (hLine : (LineTable.ofText r.source).startAt a = a) :
    (LineTable.ofText r.text).startAt (r.place a) = r.place a := by
  have hsize := Text.le_size_of_mem_boundaries (mem_anchors.1 ha).1
  have hstart := h.start_eq_anchor hFits ha he hCovers
  have hproper := LineTable.ofText_proper r.text
  have hlt := hCovers.2
  rcases LineTable.startAt_cases r.source a with hzero | ⟨front, back, hfeed, hafter⟩
  · have hnone : ∀ f ∈ es, f.stop ≠ 0 := by
      intro f hf hstop
      have hle := (h.woven.inOrder.fair f hf).start_le_stop
      obtain rfl := eq_of_start_eq hRising hf he (by omega)
      omega
    have hplace : r.place a = 0 := by
      rw [h.place_eq hFits hsize, show a = 0 by omega]
      exact landing_zero hnone
    have := hproper.startAt_le 0
    rw [hplace]
    omega
  · rw [hLine] at hafter
    have hfree : ∀ f ∈ es, ¬ f.Covers (Text.size front) := by
      intro f hf hfeedCovers
      obtain ⟨hbefore, hbehind⟩ := hInside f hf front back hfeed hfeedCovers
      have := h.start_eq_anchor hFits ha hf ⟨by omega, by omega⟩
      omega
    have hnone : ∀ f ∈ es, f.isReplace = false → f.start ≠ Text.size front + 1 := by
      intro f hf hinsert heq
      obtain rfl := eq_of_start_eq hRising hf he (by omega)
      have := stop_eq_start hinsert
      omega
    have hsucc := landing_succ h.woven.inOrder (Nat.zero_le _) hfree hnone
    obtain ⟨before, after, hresult, hbefore⟩ := h.survives hFits hfeed hfree
    rw [h.place_eq hFits (by omega)] at hbefore
    rw [h.place_eq hFits hsize, hafter, hsucc, ← hbefore]
    exact LineTable.startAt_after_feed hresult

/-- What an edit takes away goes to the place of an anchor at or before the edit. -/
theorem IsWeave.exists_anchor_of_mem (h : r.IsWeave es) (hFits : Text.size r.text < Offset.bound)
    {e : Edit} (he : e ∈ es) :
    ∃ a ∈ r.anchors, a ≤ e.start ∧
      ∀ o, a ≤ o → o < e.stop → o ≤ Text.size r.source → r.place o = r.place a := by
  have hstart := h.start_mem_boundaries he
  have hsize := Text.le_size_of_mem_boundaries hstart
  obtain ⟨a, ha, hle, hplace⟩ := h.exists_anchor hFits hstart
  refine ⟨a, ha, hle, fun o hao hstop ho => ?_⟩
  rcases Nat.lt_or_ge o e.start with hlt | hge
  · have := h.place_mono hFits ho hao
    have := h.place_mono hFits hsize (Nat.le_of_lt hlt)
    omega
  · rw [h.place_of_covers hFits he ⟨hge, hstop⟩ ho, hplace]

/-- If the order is kept, a line feed that is taken away goes to a blank line. -/
theorem IsWeave.blank_of_keepsOrder (h : r.IsWeave es) (hSource : r.source.Addressable)
    (hText : r.text.Addressable) (header : MapHeader)
    (hRising : es.Pairwise fun e f => e.start < f.start) (hInside : FeedsInside r.source es)
    (hOrder : Locator.KeepsOrder
      (Locator.ofDocument r.source r.text (r.document header)).toGenerated (Text.size r.source))
    {front back : Text} (hfeed : r.source = front ++ '\n' :: back) {e : Edit} (he : e ∈ es)
    (hCovers : e.Covers (Text.size front)) :
    (LineTable.ofText r.text).IsBlankAt (r.place (Text.size front)) := by
  have hproper := LineTable.ofText_proper r.source
  have hsize := Text.le_size_of_mem_boundaries (Text.mem_boundaries_feed hfeed).2
  obtain ⟨hbefore, hbehind⟩ := hInside e he front back hfeed hCovers
  obtain ⟨a, ha, hle, hplace⟩ := h.exists_anchor_of_mem hText.size he
  obtain ⟨first, rest, hfirst, hend, hafirst, hlast⟩ := LineTable.exists_feed
    (LineTable.lineAt_lt_of_feed hfeed (show a ≤ Text.size front by omega) (Nat.lt_add_one _))
  have hline := hproper.lineAt_eq_of_le_stopAt hafirst (Nat.le_of_eq hend)
  have hfirstPlace := hplace (Text.size first) hafirst (by omega) (by omega)
  have hnextPlace := hplace (Text.size first + 1) (by omega) (by omega) (by omega)
  have hlt : a < Text.size first := by
    obtain ⟨f, hf, hfCovers⟩ := h.covered_of_place_eq hText.size (Nat.lt_add_one _) (by omega)
      (hnextPlace.trans hfirstPlace.symm)
    have hfstart := hInside f hf first rest hfirst hfCovers
    rcases Nat.lt_or_eq_of_le hafirst with hlt | heq
    · exact hlt
    · have := h.start_eq_anchor hText.size ha hf (heq ▸ hfCovers)
      omega
  obtain ⟨f, hf, hfCovers⟩ := h.covered_of_place_eq hText.size hlt (by omega) hfirstPlace
  obtain ⟨m, n, hm, hn, hmn⟩ := hOrder (Text.size first) (Text.size first + 1) (by omega) (by omega)
  rw [h.toGenerated_eq hSource hText] at hm hn
  obtain ⟨hstop, hends⟩ := Rail.ends_of_carry_le
    (h.nearest_of_place_eq hText ha hafirst (by omega) hfirstPlace)
    (h.nearest_of_place_eq hText ha (by omega) (by omega) hnextPlace) hlt hline.symm
    (LineTable.lineAt_lt_of_feed hfirst (Nat.le_refl _) (Nat.lt_add_one _))
    (LineTable.startAt_after_feed hfirst) hm hn hmn
  rw [hplace (Text.size front) (by omega) hCovers.2 (by omega)]
  refine ⟨?_, hstop⟩
  rcases hends with hthere | hhere
  · exact hthere
  · exact h.startAt_place hText.size hRising hInside ha hf hfCovers hhere

/-- The order is kept exactly if all line feeds that are taken away go to blank lines. -/
theorem IsWeave.keepsOrder_iff (h : r.IsWeave es) (hSource : r.source.Addressable)
    (hText : r.text.Addressable) (header : MapHeader)
    (hRoom : Text.size r.source + Text.size r.text < Offset.bound)
    (hRising : es.Pairwise fun e f => e.start < f.start) (hInside : FeedsInside r.source es) :
    Locator.KeepsOrder (Locator.ofDocument r.source r.text (r.document header)).toGenerated
      (Text.size r.source) ↔ r.BlankFeeds es := by
  constructor
  · rintro hOrder front back hfeed ⟨e, he, hCovers⟩
    exact h.blank_of_keepsOrder hSource hText header hRising hInside hOrder hfeed he hCovers
  · intro hBlank p q hle hq
    obtain ⟨m, hm⟩ := h.toGenerated_returns hSource hText header (show p + _ < _ by omega)
    obtain ⟨n, hn⟩ := h.toGenerated_returns hSource hText header (show q + _ < _ by omega)
    exact ⟨m, n, hm, hn, h.toGenerated_mono hSource hText header hBlank hle hm hn⟩

end Revision

namespace Expansion

open Edit

namespace Revised

variable {source : Text} {wrapping : Option Wrapping} {bs : List Block} {r : Revision} {e : Edit}

/-- Only the edit for the keyword and the opening brace of a block can take a line feed away. -/
theorem keepsLines_or_opening (h : Revised source wrapping bs r)
    (he : e ∈ editsInOrder bs wrapping) :
    e.KeepsLines 0 source ∨ ∃ b ∈ bs, ∃ w, wrapping = some w ∧
      e = .replace ⟨b.start, b.opening + 1⟩ w.opening.toList := by
  obtain ⟨b, hb, he⟩ := List.mem_flatMap.1 he
  obtain ⟨front, middle, back, hsplit, hstart, hopening, hstop⟩ := h.laid.exists_split hb
  have hhead : b.opening + 1 =
      0 + Text.size (front ++ (['g', 'e', 'n'] ++ middle ++ ['{'])) := by
    have hbrace : Text.size ['{'] = 1 := rfl
    simp only [Text.size_append] at hopening ⊢
    omega
  have hinner : ∀ f ∈ b.innerEdits, f.KeepsLines 0 source := by
    intro f hf
    obtain ⟨g, hg, rfl⟩ := List.mem_map.1 hf
    have hmoved := ((Content.edits_spaced (h.content_lt hb)).2 g hg).move (b.opening + 1)
    rw [Nat.zero_add] at hmoved
    have hwhole := (hmoved.append_right (['}'] ++ back)).append_left hhead
    rw [hsplit]
    simpa only [List.append_assoc] using hwhole
  cases wrapping with
  | none => exact .inl (hinner e he)
  | some w =>
    rw [Block.editsInOrder, List.mem_append, List.mem_append, List.mem_singleton,
      List.mem_singleton] at he
    rcases he with (rfl | he) | rfl
    · exact .inr ⟨b, hb, w, rfl, rfl⟩
    · exact .inl (hinner e he)
    · refine .inl ⟨front ++ (['g', 'e', 'n'] ++ middle ++ ['{']) ++ b.content, ['}'], back, ?_, ?_,
        ?_, by decide⟩
      · rw [hsplit]
        simp only [List.append_assoc]
      · rw [Text.size_append _ b.content]
        simp only [start, Block.closing]
        omega
      · have hbrace : Text.size ['}'] = 1 := rfl
        simp only [start, stop, Block.closing]
        omega

theorem feedsInside (h : Revised source wrapping bs r) :
    FeedsInside source (editsInOrder bs wrapping) := by
  intro e he before after hfeed hCovers
  rcases h.keepsLines_or_opening he with hkeeps | ⟨b, hb, w, -, rfl⟩
  · exact absurd hCovers (hkeeps.not_covers hfeed (Nat.zero_add _).symm)
  · obtain ⟨front, middle, back, hsplit, hstart, hopening, -⟩ := h.laid.exists_split hb
    obtain ⟨hle, hlt⟩ := hCovers
    simp only [start, stop] at hle hlt ⊢
    have hfirst : b.start ≠ Text.size before := by
      intro heq
      have hsplit' : source =
          front ++ ('g' :: (['e', 'n'] ++ middle ++ ['{'] ++ b.content ++ ['}'] ++ back)) := by
        rw [hsplit]
        simp
      obtain ⟨-, hchar⟩ := Text.append_inj_of_size (hsplit'.symm.trans hfeed) (by omega)
      exact absurd (List.cons.inj hchar).1 (by decide)
    have hlast : b.opening ≠ Text.size before := by
      intro heq
      have hsplit' : source =
          front ++ (['g', 'e', 'n'] ++ middle) ++ ('{' :: (b.content ++ ['}'] ++ back)) := by
        rw [hsplit]
        simp
      obtain ⟨-, hchar⟩ := Text.append_inj_of_size (hsplit'.symm.trans hfeed)
        (by rw [Text.size_append]; omega)
      exact absurd (List.cons.inj hchar).1 (by decide)
    omega

/-- The line feeds that the edits take away, seen from the blocks. -/
theorem blankFeeds_iff (h : Revised source wrapping bs r)
    (hFits : Text.size r.text < Offset.bound) :
    r.BlankFeeds (editsInOrder bs wrapping) ↔
      ∀ w, wrapping = some w → ∀ b ∈ bs, ∀ head,
        Text.slice source b.start (b.opening + 1) = .ok head → '\n' ∈ head →
        (LineTable.ofText r.text).IsBlankAt (r.place b.start) := by
  obtain rfl := h.source_eq
  constructor
  · rintro hBlank w rfl b hb head hslice hmem
    obtain ⟨front, back, hsplit, hfront, hhead⟩ := Text.slice_eq_ok_iff.1 hslice
    obtain ⟨first, last, rfl⟩ := List.append_of_mem hmem
    have hfeed : r.source = (front ++ first) ++ '\n' :: (last ++ back) := by
      rw [hsplit]
      simp
    have he : Edit.replace ⟨b.start, b.opening + 1⟩ w.opening.toList ∈
        editsInOrder bs (some w) :=
      List.mem_flatMap.2 ⟨b, hb, by simp [Block.editsInOrder]⟩
    have hCovers : (Edit.replace ⟨b.start, b.opening + 1⟩ w.opening.toList).Covers
        (Text.size (front ++ first)) := by
      have hchar : Text.size ('\n' :: last) = 1 + Text.size last := rfl
      rw [Text.size_append first, hchar] at hhead
      rw [Text.size_append, Covers]
      simp only [start, stop]
      omega
    have hsize := Text.le_size_of_mem_boundaries (Text.mem_boundaries_feed hfeed).1
    have hplace := h.isWeave.place_of_covers hFits he hCovers hsize
    have hblank := hBlank _ _ hfeed ⟨_, he, hCovers⟩
    rwa [hplace] at hblank
  · rintro hBlocks front back hfeed ⟨e, he, hCovers⟩
    have hsize := Text.le_size_of_mem_boundaries (Text.mem_boundaries_feed hfeed).1
    rw [h.isWeave.place_of_covers hFits he hCovers hsize]
    have hnot : ¬ e.KeepsLines 0 r.source := fun hkeeps =>
      hkeeps.not_covers hfeed (Nat.zero_add _).symm hCovers
    rcases h.keepsLines_or_opening he with hkeeps | ⟨b, hb, w, rfl, rfl⟩
    · exact absurd hkeeps hnot
    · obtain ⟨before, middle, after, hsplit, hstart, hopening, -⟩ := h.laid.exists_split hb
      have hhead : b.opening + 1 = b.start + Text.size (['g', 'e', 'n'] ++ middle ++ ['{']) := by
        rw [hopening, Text.size_append _ ['{'], Nat.add_assoc]
        rfl
      have hsplit' : r.source = before ++ (['g', 'e', 'n'] ++ middle ++ ['{']) ++
          (b.content ++ ['}'] ++ after) := by
        rw [hsplit]
        simp only [List.append_assoc]
      refine hBlocks w rfl b hb (['g', 'e', 'n'] ++ middle ++ ['{'])
        (Text.slice_eq_ok_iff.2 ⟨before, _, hsplit', by omega, hhead.symm⟩) ?_
      by_contra hmem
      exact hnot ⟨before, _, _, hsplit', hstart, hhead, hmem⟩

end Revised

/-- The lookups into the code of an expansion keep the order of offsets exactly if every wrapped
block with a line feed between its keyword and its brace goes to a blank line of the code. -/
theorem lookups_keepOrder_iff (source : Text) (settings : Settings)
    (hMapped : settings.mapped = true) (hSource : Text.size source < 2 ^ 31) :
    ∃ x r, ofText source settings = .ok x ∧ revision source settings.wrapping = .ok r ∧
      x.code = r.text ∧
      (Text.size x.code < 2 ^ 31 →
        (Locator.KeepsOrder (Locator.ofDocument source x.code x.map).toGenerated
            (Text.size source) ↔
          ∀ w, settings.wrapping = some w → ∀ b ∈ x.blocks, ∀ head,
            Text.slice source b.start (b.opening + 1) = .ok head → '\n' ∈ head →
            (LineTable.ofText x.code).IsBlankAt (r.place b.start))) := by
  have hbound : Offset.bound = 2 ^ 31 + 2 ^ 31 := by decide
  obtain ⟨bs, r, hrevised⟩ :=
    exists_revised settings.wrapping (show Text.size source < Offset.bound by omega)
  obtain rfl := hrevised.source_eq
  refine ⟨_, r, hrevised.ofText_eq settings, hrevised.revision_eq, rfl, fun hCode => ?_⟩
  simp only [hMapped, if_true] at hCode ⊢
  rw [← hrevised.blankFeeds_iff (by omega)]
  exact hrevised.isWeave.keepsOrder_iff (Text.addressable_of_size (by omega))
    (Text.addressable_of_size (by omega)) settings.header (by omega) hrevised.spaced.rising
    hrevised.feedsInside

/-- A keyword and a brace on two lines: the wrapped code has one line, which is not blank. -/
theorem lookups_keepOrder_iff_two_lines :
    ∃ x, ofText "gen\n\x7b x \x7d".toList { wrapping := some ⟨"(", ")"⟩ } = .ok x ∧
      ¬ Locator.KeepsOrder
        (Locator.ofDocument "gen\n\x7b x \x7d".toList x.code x.map).toGenerated 9 := by
  obtain ⟨x, r, hx, hr, hcode, hiff⟩ := lookups_keepOrder_iff "gen\n\x7b x \x7d".toList
    { wrapping := some ⟨"(", ")"⟩ } rfl (by decide)
  have hshape : blocksOf "gen\n\x7b x \x7d".toList = .ok [⟨0, 4, 9, " x ".toList⟩] := by
    decide +kernel
  obtain ⟨bs, r', hrevised⟩ := exists_revised (some ⟨"(", ")"⟩)
    (show Text.size "gen\n\x7b x \x7d".toList < Offset.bound by decide)
  obtain rfl := Except.ok.inj (hrevised.blocks_eq.symm.trans hshape)
  obtain rfl := Except.ok.inj (hr.symm.trans hrevised.revision_eq)
  have hblocks : x.blocks = [⟨0, 4, 9, " x ".toList⟩] := by
    have hexpansion := Revised.ofText_eq { wrapping := some ⟨"(", ")"⟩ } hrevised
    rw [← Except.ok.inj (hexpansion.symm.trans hx)]
  have htext : r.text = "( x )".toList := by
    have hmade := hrevised.spaced.woven.foldlM_reverse [] rfl
    have hresult : (editsInOrder [⟨0, 4, 9, " x ".toList⟩] (some ⟨"(", ")"⟩)).reverse.foldlM apply
        "gen\n\x7b x \x7d".toList = .ok "( x )".toList := by decide +kernel
    exact (Except.ok.inj (hresult.symm.trans hmade)).symm
  have hplace : r.place 0 = 0 := by
    rw [hrevised.isWeave.place_eq (by rw [htext]; decide) (Nat.zero_le _)]
    decide +kernel
  refine ⟨x, hx, fun hOrder => ?_⟩
  have hblank := (hiff (by rw [hcode, htext]; decide)).1 hOrder _ rfl ⟨0, 4, 9, " x ".toList⟩
    (by rw [hblocks]; exact List.mem_singleton_self _) "gen\n\x7b".toList (by rfl) (by decide)
  rw [hcode, htext, hplace] at hblank
  exact absurd hblank (by decide)

end Expansion

end BindBlocks
