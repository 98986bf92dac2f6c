import BindBlocks.Proofs.Untouched

/-! When the lookups from the code of an expansion back into its source keep the order of offsets.
Text that is inserted has no anchor of its own and is measured from the anchor in front of it. At
the start of a line that anchor is the line feed of the line before, and only the column is carried
over: the inserted text goes back along the line before. If the edits keep the lines of a text
apart, the order is kept exactly if all lines that begin with inserted text follow a blank line. In
an expansion without a wrapping these are the lines that begin with the target of a binding. -/

namespace BindBlocks

/-- The edits neither add nor take away a line feed, they all bring in some text, and none of them
stands at the start of the source. -/
structure Edit.LineByLine (source : Text) (es : List Edit) : Prop where
  kept : ∀ e ∈ es, ∀ front back, source = front ++ '\n' :: back → ¬ e.Covers (Text.size front)
  added : ∀ e ∈ es, '\n' ∉ e.text
  filled : ∀ e ∈ es, e.text ≠ []
  behind : ∀ e ∈ es, e.stop ≠ 0

namespace Revision

open Edit

variable {r : Revision} {es : List Edit} {p : Nat} {x y : Nat × Nat} {front back : Text}

theorem mem_backward (hSource : r.source.Addressable) :
    x ∈ (backward hSource).anchors ↔ x.2 ∈ r.anchors ∧ x.1 = r.place x.2 := by
  constructor
  · intro hx
    obtain ⟨o, ho, rfl⟩ := List.mem_map.1 hx
    exact ⟨ho, rfl⟩
  · rintro ⟨hmem, hplace⟩
    exact List.mem_map.2 ⟨x.2, hmem, Prod.ext hplace.symm rfl⟩

/-- The text in front of a line feed and the text behind it start at anchors. -/
theorem IsWeave.feed_mem_anchors (h : r.IsWeave es) (hFits : Text.size r.text < Offset.bound)
    (hLines : LineByLine r.source es) (hfeed : r.source = front ++ '\n' :: back) :
    Text.size front ∈ r.anchors ∧ Text.size front + 1 ∈ r.anchors := by
  obtain ⟨hbefore, hafter⟩ := Text.mem_boundaries_feed hfeed
  have hkept := fun e he => hLines.kept e he front back hfeed
  constructor
  · apply h.mem_anchors_of_outside hFits hbefore fun e he _ => hLines.filled e he
    exact fun e he hinside => hkept e he ⟨Nat.le_of_lt hinside.1, hinside.2⟩
  · apply h.mem_anchors_of_outside hFits hafter fun e he _ => hLines.filled e he
    exact fun e he hinside => hkept e he ⟨Nat.le_of_lt_succ hinside.1, by omega⟩

/-- Every line feed of the edited text is one of the source. -/
theorem IsWeave.feed_origin (h : r.IsWeave es) (hFits : Text.size r.text < Offset.bound)
    (hLines : LineByLine r.source es) {before after : Text}
    (hfeed : r.text = before ++ '\n' :: after) :
    ∃ front back, r.source = front ++ '\n' :: back ∧
      r.place (Text.size front) = Text.size before := by
  obtain ⟨front, back, hsplit, hlanding, -⟩ := h.woven.origin hfeed hLines.added
  refine ⟨front, back, hsplit, ?_⟩
  rw [h.place_eq hFits (Text.le_size_of_mem_boundaries (Text.mem_boundaries_feed hsplit).1)]
  rwa [Nat.zero_add] at hlanding

theorem IsWeave.place_zero (h : r.IsWeave es) (hFits : Text.size r.text < Offset.bound)
    (hLines : LineByLine r.source es) : r.place 0 = 0 := by
  rw [h.place_eq hFits (Nat.zero_le _)]
  exact landing_zero hLines.behind

theorem IsWeave.exists_nearest_back (h : r.IsWeave es) (hSource : r.source.Addressable)
    (hFits : Text.size r.text < Offset.bound) (hLines : LineByLine r.source es) (p : Nat) :
    ∃ x, (backward hSource).Nearest p x := by
  have hzero : 0 ∈ r.anchors := by
    rw [mem_anchors, Text.mem_boundaries]
    exact ⟨⟨[], r.source, rfl, rfl⟩, fun o' _ hlt => absurd hlt (Nat.not_lt_zero o')⟩
  have hmem : (0, 0) ∈ (backward hSource).anchors :=
    (mem_backward hSource).2 ⟨hzero, (h.place_zero hFits hLines).symm⟩
  exact Rail.Nearest.exists_of_mem hmem (Nat.zero_le p)

/-- An offset that is measured from an earlier line is measured from a line feed with an insertion
behind it. -/
theorem IsWeave.insertion_of_gap (h : r.IsWeave es) (hSource : r.source.Addressable)
    (hFits : Text.size r.text < Offset.bound) (hLines : LineByLine r.source es)
    (hx : (backward hSource).Nearest p x)
    (hLine : (LineTable.ofText r.text).lineAt x.1 ≠ (LineTable.ofText r.text).lineAt p) :
    ∃ front back, r.source = front ++ '\n' :: back ∧ x.2 = Text.size front ∧
      ∃ e ∈ es, e.isReplace = false ∧ e.start = Text.size front + 1 := by
  have hmono := (LineTable.ofText_proper r.text).lineAt_mono hx.le
  obtain ⟨before, after, hfeed, -, hle, hlt⟩ :=
    LineTable.exists_feed (Nat.lt_of_le_of_ne hmono hLine)
  obtain ⟨front, back, hsplit, hplace⟩ := h.feed_origin hFits hLines hfeed
  obtain ⟨hfirst, hnext⟩ := h.feed_mem_anchors hFits hLines hsplit
  have hsize := Text.le_size_of_mem_boundaries (mem_anchors.1 hnext).1
  have hfeedMem : (Text.size before, Text.size front) ∈ (backward hSource).anchors :=
    (mem_backward hSource).2 ⟨hfirst, hplace.symm⟩
  have hnextMem : (r.place (Text.size front + 1), Text.size front + 1) ∈
      (backward hSource).anchors := (mem_backward hSource).2 ⟨hnext, rfl⟩
  have hxeq : x.1 = Text.size before :=
    Nat.le_antisymm hle (hx.last _ hfeedMem (Nat.le_of_lt hlt))
  have hsnd : x.2 = Text.size front :=
    Nat.le_antisymm ((backward hSource).snd_le_of_fst_le hx.mem hfeedMem (Nat.le_of_eq hxeq))
      ((backward hSource).snd_le_of_fst_le hfeedMem hx.mem (Nat.le_of_eq hxeq.symm))
  refine ⟨front, back, hsplit, hsnd, ?_⟩
  by_contra hnone
  have hsucc : r.place (Text.size front + 1) = r.place (Text.size front) + 1 := by
    rw [h.place_eq hFits hsize, h.place_eq hFits (Nat.le_of_succ_le hsize)]
    apply landing_succ h.woven.inOrder (Nat.zero_le _)
    · exact fun e he => hLines.kept e he front back hsplit
    · exact fun e he hinsert hstart => hnone ⟨e, he, hinsert, hstart⟩
  have hlast := hx.last _ hnextMem (show r.place (Text.size front + 1) ≤ p by omega)
  have : r.place (Text.size front + 1) ≤ x.1 := hlast
  omega

/-- The line that an offset goes back to ends before the anchors of later lines. -/
theorem IsWeave.stopAt_le_anchor_back (h : r.IsWeave es) (hSource : r.source.Addressable)
    (hFits : Text.size r.text < Offset.bound) (hLines : LineByLine r.source es)
    (hx : (backward hSource).Nearest p x) (hy : y ∈ (backward hSource).anchors) (hlt : p < y.1)
    (hLine : (LineTable.ofText r.text).lineAt y.1 ≠ (LineTable.ofText r.text).lineAt p) :
    (LineTable.ofText r.source).stopAt x.2 ≤ y.2 := by
  have hmono := (LineTable.ofText_proper r.text).lineAt_mono (Nat.le_of_lt hlt)
  obtain ⟨before, after, hfeed, -, hpfeed, hfeedy⟩ :=
    LineTable.exists_feed (Nat.lt_of_le_of_ne hmono (Ne.symm hLine))
  obtain ⟨front, back, hsplit, hplace⟩ := h.feed_origin hFits hLines hfeed
  have hfeedMem : (Text.size before, Text.size front) ∈ (backward hSource).anchors :=
    (mem_backward hSource).2 ⟨(h.feed_mem_anchors hFits hLines hsplit).1, hplace.symm⟩
  have hbehind := (backward hSource).snd_le_of_fst_le hx.mem hfeedMem (Nat.le_trans hx.le hpfeed)
  calc (LineTable.ofText r.source).stopAt x.2
      ≤ Text.size front := LineTable.stopAt_le_feed hsplit hbehind
    _ ≤ y.2 := Nat.le_of_lt ((backward hSource).snd_lt_of_fst_lt hfeedMem hy hfeedy)

/-- Every line that begins with inserted text follows a blank line. -/
def BlankBefore (source : Text) (es : List Edit) : Prop :=
  ∀ front back, source = front ++ '\n' :: back →
    (∃ e ∈ es, e.isReplace = false ∧ e.start = Text.size front + 1) →
    (LineTable.ofText source).IsBlankAt (Text.size front)

/-- If a line feed goes to the start of a line, its own line starts there too, and is empty. -/
theorem IsWeave.startAt_of_place (h : r.IsWeave es) (hFits : Text.size r.text < Offset.bound)
    (hLines : LineByLine r.source es) (hfeed : r.source = front ++ '\n' :: back)
    (hStart : (LineTable.ofText r.text).startAt (r.place (Text.size front)) =
      r.place (Text.size front)) :
    (LineTable.ofText r.source).startAt (Text.size front) = Text.size front := by
  have hproper := LineTable.ofText_proper r.source
  obtain ⟨hmem, hfirst⟩ := mem_anchors.1 (h.feed_mem_anchors hFits hLines hfeed).1
  have hsize := Text.le_size_of_mem_boundaries hmem
  rcases Nat.lt_or_eq_of_le (hproper.startAt_le (Text.size front)) with hlt | heq
  · exfalso
    have hstart : (LineTable.ofText r.source).startAt (Text.size front) ∈
        Text.boundaries r.source := by
      rcases LineTable.startAt_cases r.source (Text.size front) with hzero | ⟨u, v, huv, hafter⟩
      · exact hzero ▸ Text.mem_boundaries.2 ⟨[], r.source, rfl, rfl⟩
      · exact hafter ▸ (Text.mem_boundaries_feed huv).2
    have hbefore := hfirst _ hstart hlt
    rcases LineTable.startAt_cases r.text (r.place (Text.size front)) with hzero | hbreak
    · omega
    · obtain ⟨before, after, hsplit, hafter⟩ := hbreak
      obtain ⟨u, v, huv, hplace⟩ := h.feed_origin hFits hLines hsplit
      obtain ⟨humem, -⟩ := Text.mem_boundaries_feed huv
      have hu : Text.size u < Text.size front := by
        by_contra hge
        have := h.place_mono hFits (Text.le_size_of_mem_boundaries humem) (Nat.le_of_not_lt hge)
        omega
      have hbegin := hproper.le_startAt
        (LineTable.mem_starts_ofText.2 (.inr ⟨u, v, huv, rfl⟩)) (Nat.succ_le_of_lt hu)
      have := h.place_lt_of_free hFits (Nat.lt_of_succ_le hbegin) (by omega)
        fun e he => hLines.kept e he u v huv
      omega
  · exact heq

/-- If the order is kept, a line that begins with inserted text follows a blank line. -/
theorem IsWeave.blankBefore_of_keepsOrder (h : r.IsWeave es) (hSource : r.source.Addressable)
    (hText : r.text.Addressable) (header : MapHeader) (hLines : LineByLine r.source es)
    (hOrder : Locator.KeepsOrder
      (Locator.ofDocument r.source r.text (r.document header)).toSource (Text.size r.text)) :
    BlankBefore r.source es := by
  rintro front back hfeed ⟨e, he, hinsert, hstart⟩
  have hproper := LineTable.ofText_proper r.source
  have hfree := fun f hf => hLines.kept f hf front back hfeed
  obtain ⟨hfirst, hnext⟩ := h.feed_mem_anchors hText.size hLines hfeed
  have hsize := Text.le_size_of_mem_boundaries (mem_anchors.1 hnext).1
  obtain ⟨before, after, hresult, hplace⟩ := h.survives hText.size hfeed hfree
  have hmem : (r.place (Text.size front), Text.size front) ∈ (backward hSource).anchors :=
    (mem_backward hSource).2 ⟨hfirst, rfl⟩
  have hinserted : r.place (Text.size front) + 1 < r.place (Text.size front + 1) := by
    have hlanding := landing_add_le_of_insertion h.woven.inOrder (Nat.zero_le _) hfree he hinsert
      hstart
    have := mt Text.size_eq_zero.1 (hLines.filled e he)
    rw [h.place_eq hText.size hsize, h.place_eq hText.size (Nat.le_of_succ_le hsize)]
    omega
  have hnearest : (backward hSource).Nearest (r.place (Text.size front) + 1)
      (r.place (Text.size front), Text.size front) := by
    refine ⟨hmem, Nat.le_succ _, fun y hy hle => ?_⟩
    by_contra hgt
    obtain ⟨hymem, hyplace⟩ := (mem_backward hSource).1 hy
    have hlt := (backward hSource).snd_lt_of_fst_lt hmem hy (Nat.lt_of_not_le hgt)
    have hmono : r.place (Text.size front + 1) ≤ r.place y.2 :=
      h.place_mono hText.size (Text.le_size_of_mem_boundaries (mem_anchors.1 hymem).1) hlt
    omega
  obtain ⟨m, n, hm, hn, hmn⟩ := hOrder (r.place (Text.size front))
    (r.place (Text.size front) + 1) (Nat.le_succ _) (by
      rw [hresult, ← hplace, Text.size_append]
      exact Nat.add_le_add_left (Nat.le_add_right 1 _) _)
  rw [h.toSource_eq hSource hText] at hm hn
  rw [Rail.carry_anchor hmem] at hm
  obtain rfl := Except.ok.inj hm
  have hline := LineTable.lineAt_lt_of_feed hresult (Nat.le_refl _) (Nat.lt_add_one _)
  have hbegin := LineTable.startAt_after_feed hresult
  rw [hplace] at hline hbegin
  have hblank : (LineTable.ofText r.source).startAt (Text.size front) = Text.size front := by
    rcases Rail.starts_of_le_carry hnearest (Nat.ne_of_lt hline) hbegin hn hmn with hthere | hhere
    · exact hthere
    · exact h.startAt_of_place hText.size hLines hfeed hhere
  exact ⟨hblank, Nat.le_antisymm (LineTable.stopAt_le_feed hfeed (Nat.le_refl _))
    (hproper.le_stopAt (Nat.le_of_succ_le hsize))⟩

/-- The order is kept exactly if all lines that begin with inserted text follow a blank line. -/
theorem IsWeave.keepsOrderBack_iff (h : r.IsWeave es) (hSource : r.source.Addressable)
    (hText : r.text.Addressable) (header : MapHeader) (hLines : LineByLine r.source es)
    (hRoom : Text.size r.source + Text.size r.text < Offset.bound) :
    Locator.KeepsOrder (Locator.ofDocument r.source r.text (r.document header)).toSource
      (Text.size r.text) ↔ BlankBefore r.source es := by
  constructor
  · exact h.blankBefore_of_keepsOrder hSource hText header hLines
  · intro hBlank p q hle hq
    have hreturns : ∀ p, p ≤ Text.size r.text → ∃ n, (backward hSource).carry p = .ok n := by
      intro p hp
      obtain ⟨x, hx⟩ := h.exists_nearest_back hSource hText.size hLines p
      have htarget := Rail.target_le (backward hSource) p x
      have hinside : x.2 ≤ Text.size r.source := (backward hSource).inside x hx.mem
      exact ⟨_, Rail.carry_eq hx (by omega)⟩
    obtain ⟨m, hm⟩ := hreturns p (Nat.le_trans hle hq)
    obtain ⟨n, hn⟩ := hreturns q hq
    obtain ⟨x, hx⟩ := h.exists_nearest_back hSource hText.size hLines p
    refine ⟨m, n, by rw [h.toSource_eq hSource hText, hm], by rw [h.toSource_eq hSource hText, hn],
      Rail.carry_mono ?_ ?_ hx hle hm hn⟩
    · intro p x hx hline
      obtain ⟨front, back, hfeed, hfirst, hinsertion⟩ :=
        h.insertion_of_gap hSource hText.size hLines hx hline
      rw [hfirst]
      exact hBlank front back hfeed hinsertion
    · intro p x y hx hy hlt hline
      exact h.stopAt_le_anchor_back hSource hText.size hLines hx hy hlt hline

end Revision

namespace Expansion

open Edit

/-- The edits of an expansion without a wrapping keep the lines of the source apart. -/
theorem Revised.lineByLine {source : Text} {bs : List Block} {r : Revision}
    (h : Revised source none bs r) : LineByLine source (editsInOrder bs none) := by
  have hinner : ∀ e ∈ editsInOrder bs none, ∃ b ∈ bs, e ∈ b.innerEdits := by
    intro e he
    obtain ⟨b, hb, hmem | ⟨w, hw, -⟩⟩ := mem_editsInOrder.1 he
    · exact ⟨b, hb, hmem⟩
    · exact absurd hw (by simp)
  refine ⟨fun e he front back hfeed => ?_, fun e he => ?_, fun e he => ?_, fun e he => ?_⟩
  · rcases h.keepsLines_or_opening he with hkeeps | ⟨-, -, w, hw, -⟩
    · exact hkeeps.not_covers hfeed (Nat.zero_add _).symm
    · exact absurd hw (by simp)
  · obtain ⟨b, hb, hmem⟩ := hinner e he
    rcases Block.mem_innerEdits_cases (h.content_lt hb) hmem with
      ⟨o, -, rfl⟩ | ⟨s, -, new, -, hline, rfl⟩
    · show '\n' ∉ Binding.declaration
      decide
    · exact hline
  · obtain ⟨b, hb, hmem⟩ := hinner e he
    rcases Block.mem_innerEdits_cases (h.content_lt hb) hmem with
      ⟨o, -, rfl⟩ | ⟨s, -, new, hne, -, rfl⟩
    · show Binding.declaration ≠ []
      decide
    · exact hne
  · obtain ⟨b, -, hmem⟩ := hinner e he
    obtain ⟨f, -, rfl⟩ := List.mem_map.1 hmem
    rw [stop_move]
    omega

/-- A file can be expanded without a wrapping. The lookups from the code back into the source keep
the order of offsets exactly if every line that begins with a declared target follows a blank
line. -/
theorem lookups_keepOrderBack_iff (source : Text) (settings : Settings)
    (hMapped : settings.mapped = true) (hPlain : settings.wrapping = none)
    (hSource : Text.size source < 2 ^ 31) :
    ∃ x, ofText source settings = .ok x ∧
      (Text.size x.code < 2 ^ 31 →
        (Locator.KeepsOrder (Locator.ofDocument source x.code x.map).toSource
            (Text.size x.code) ↔
          ∀ front back, source = front ++ '\n' :: back → Declared x.blocks (Text.size front + 1) →
            (LineTable.ofText source).IsBlankAt (Text.size front))) := by
  have hbound : Offset.bound = 2 ^ 31 + 2 ^ 31 := by decide
  obtain ⟨bs, r, hrevised⟩ :=
    exists_revised settings.wrapping (show Text.size source < Offset.bound by omega)
  obtain rfl := hrevised.source_eq
  refine ⟨_, hrevised.ofText_eq settings, fun hCode => ?_⟩
  simp only [hMapped, if_true] at hCode ⊢
  rw [hPlain] at hrevised
  apply (hrevised.isWeave.keepsOrderBack_iff (Text.addressable_of_size (by omega))
    (Text.addressable_of_size (by omega)) settings.header hrevised.lineByLine (by omega)).trans
  simp only [Revision.BlankBefore, hrevised.insertion_mem_iff]

/-- A target at the start of a line, and a line in front of it that is not blank. -/
theorem lookups_keepOrderBack_iff_first_column :
    ∃ x, ofText "gen \x7b\nx <- f()\n\x7d".toList {} = .ok x ∧
      x.code = "gen \x7b\nconst x = yield* f()\n\x7d".toList ∧
      ¬ Locator.KeepsOrder
        (Locator.ofDocument "gen \x7b\nx <- f()\n\x7d".toList x.code x.map).toSource 28 := by
  obtain ⟨x, hx, hiff⟩ := lookups_keepOrderBack_iff "gen \x7b\nx <- f()\n\x7d".toList {} rfl rfl
    (by decide)
  have hshape : blocksOf "gen \x7b\nx <- f()\n\x7d".toList =
      .ok [⟨0, 4, 16, "\nx <- f()\n".toList⟩] := by decide +kernel
  have hmade : (editsInOrder [⟨0, 4, 16, "\nx <- f()\n".toList⟩] none).reverse.foldlM apply
      "gen \x7b\nx <- f()\n\x7d".toList =
        .ok "gen \x7b\nconst x = yield* f()\n\x7d".toList := by decide +kernel
  obtain ⟨hcode, hblocks⟩ := code_eq_of_foldlM (by decide) hx hshape hmade
  have hdeclared : Declared [⟨0, 4, 16, "\nx <- f()\n".toList⟩] 6 := by decide +kernel
  refine ⟨x, hx, hcode, fun hOrder => ?_⟩
  rw [hcode] at hiff hOrder
  have hblank := (hiff (by decide)).1 hOrder "gen \x7b".toList "x <- f()\n\x7d".toList rfl
    (by rw [hblocks]; exact hdeclared)
  exact absurd hblank (by decide)

end Expansion

end BindBlocks
