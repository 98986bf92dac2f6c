import BindBlocks.Proofs.LineOrder

/-! Where the untouched characters of a file go. What gives way to other text are the arrows of
bindings and, if blocks are wrapped, the keywords and braces of the blocks. All other characters
stand in the code between what becomes of the text in front of them and what becomes of the text
behind them. They are found there and found again from there, apart from those that follow a
keyword or a brace which gives way to nothing: these share their place with it, and the table keeps
the first mapping of each place. -/

namespace BindBlocks

namespace Revision

open Edit

variable {r : Revision} {es : List Edit} {o : Nat}

/-- A boundary that no edit takes away is an anchor unless a replacement that ends there puts
nothing in its place and nothing is inserted there. -/
theorem IsWeave.mem_anchors_iff (h : r.IsWeave es) (hFits : Text.size r.text < Offset.bound)
    (ho : o ∈ Text.boundaries r.source) (hInserted : ∀ e ∈ es, e.isReplace = false → e.text ≠ [])
    (hFree : ∀ e ∈ es, ¬ e.Covers o) :
    o ∈ r.anchors ↔ ∀ e ∈ es, e.isReplace = true → e.stop = o → e.text = [] →
      ∃ f ∈ es, f.isReplace = false ∧ f.start = o := by
  have hsize := Text.le_size_of_mem_boundaries ho
  constructor
  · intro ha e he hreplace hstop htext
    by_contra hnone
    have hfair := h.woven.inOrder.fair e he hreplace
    have hplace : r.place o = r.place e.start := by
      rw [h.place_eq hFits hsize, h.place_eq hFits (by omega), ← hstop,
        landing_stop h.woven.inOrder he hreplace, htext, Text.size_nil, Nat.add_zero]
      exact fun f hf hinsert hstart => hnone ⟨f, hf, hinsert, hstart.trans hstop⟩
    have := (mem_anchors.1 ha).2 e.start (h.start_mem_boundaries he) (by omega)
    omega
  · intro hFilled
    refine mem_anchors.2 ⟨ho, fun o' _ hlt => ?_⟩
    rw [h.place_eq hFits hsize, h.place_eq hFits (by omega)]
    apply landing_lt_of_filled h.woven.inOrder (Nat.zero_le o') hlt
    · rintro e he ⟨hstart, hstop⟩
      exact hFree e he ⟨Nat.le_of_lt hstart, hstop⟩
    · intro e he hreplace hstop htext
      obtain ⟨f, hf, hinsert, hstart⟩ := hFilled e he hreplace hstop htext
      exact ⟨f, hf, hinsert, hstart, hInserted f hf hinsert⟩

/-- A boundary is found at its place and found again from there exactly if it is an anchor. -/
theorem IsWeave.located_iff (h : r.IsWeave es) (hSource : r.source.Addressable)
    (hText : r.text.Addressable) (header : MapHeader) (ho : o ∈ Text.boundaries r.source) :
    ((Locator.ofDocument r.source r.text (r.document header)).toGenerated o = .ok (r.place o) ∧
      (Locator.ofDocument r.source r.text (r.document header)).toSource (r.place o) = .ok o) ↔
      o ∈ r.anchors := by
  constructor
  · rintro ⟨-, hback⟩
    obtain ⟨a, ha, -, hplace⟩ := h.exists_anchor hText.size ho
    have hanchor := (h.locate_anchor hSource hText header ha).2
    rw [hplace, hback] at hanchor
    rwa [Except.ok.inj hanchor]
  · exact h.locate_anchor hSource hText header

end Revision

namespace Block

open Edit

/-- The arrows of the bindings in a block, as spans of the text around it. -/
def arrows (b : Block) : List Span :=
  (Content.arrows b.content).map fun s => ⟨s.start + b.inside.start, s.stop + b.inside.start⟩

/-- Where the targets of these bindings start in the text around the block. -/
def targets (b : Block) : List Nat := (Content.targets b.content).map (· + b.inside.start)

/-- The keyword with the opening brace, and the closing brace. -/
def delimiters (b : Block) : List Span := [⟨b.start, b.opening + 1⟩, ⟨b.closing, b.stop⟩]

theorem mem_innerEdits_cases {b : Block} (hFits : Text.size b.content < Offset.bound) {e : Edit}
    (he : e ∈ b.innerEdits) :
    (∃ o ∈ b.targets, e = .insertLeft o Binding.declaration) ∨
      ∃ s ∈ b.arrows, ∃ new, new ≠ [] ∧ '\n' ∉ new ∧ e = .replace s new := by
  obtain ⟨f, hf, rfl⟩ := List.mem_map.1 he
  rcases Content.mem_edits_cases hFits hf with ⟨o, ho, rfl⟩ | ⟨s, hs, new, hne, hline, rfl⟩
  · exact .inl ⟨_, List.mem_map.2 ⟨o, ho, rfl⟩, rfl⟩
  · exact .inr ⟨_, List.mem_map.2 ⟨s, hs, rfl⟩, new, hne, hline, rfl⟩

theorem declaration_mem_innerEdits {b : Block} (hFits : Text.size b.content < Offset.bound)
    {o : Nat} (ho : o ∈ b.targets) :
    .insertLeft o Binding.declaration ∈ b.innerEdits := by
  obtain ⟨p, hp, rfl⟩ := List.mem_map.1 ho
  exact List.mem_map.2 ⟨_, Content.declaration_mem_edits hFits hp, rfl⟩

theorem mem_editsInOrder {b : Block} {wrapping : Option Wrapping} {e : Edit} :
    e ∈ b.editsInOrder wrapping ↔
      e ∈ b.innerEdits ∨ ∃ w, wrapping = some w ∧ e ∈ b.wrappingEdits w := by
  rw [(b.editsInOrder_perm wrapping).mem_iff, List.mem_append]
  cases wrapping <;> simp

end Block

namespace Expansion

open Edit

/-- The offset lies in no arrow and in no delimiter that gives way to other text. -/
def Untouched (blocks : List Block) (wrapping : Option Wrapping) (o : Nat) : Prop :=
  ∀ b ∈ blocks, (∀ s ∈ b.arrows, s.contains o = false) ∧
    (wrapping.isSome = true → ∀ s ∈ b.delimiters, s.contains o = false)

/-- A target is declared at the offset. -/
def Declared (blocks : List Block) (o : Nat) : Prop := ∃ b ∈ blocks, o ∈ b.targets

/-- The offset follows a delimiter that gives way to nothing. -/
def FollowsErased (blocks : List Block) (wrapping : Option Wrapping) (o : Nat) : Prop :=
  ∃ w, wrapping = some w ∧ ∃ b ∈ blocks,
    (w.opening = "" ∧ o = b.opening + 1) ∨ (w.closing = "" ∧ o = b.stop)

/-- A character of the source between `front` and `back` stands in the code between `before` and
`after`: the edits of the file fall into those that make `before` of `front` and those that make
`after` of `back`. -/
structure Stands (source : Text) (blocks : List Block) (wrapping : Option Wrapping) (c : Char)
    (front back before after : Text) : Prop where
  source_eq : source = front ++ c :: back
  edits : ∃ es fs, editsInOrder blocks wrapping = es ++ fs ∧ Woven 0 es front before ∧
    Woven (Text.size front + c.utf8Size) fs back after

instance (blocks : List Block) (wrapping : Option Wrapping) (o : Nat) :
    Decidable (Untouched blocks wrapping o) :=
  inferInstanceAs (Decidable (∀ b ∈ blocks, (∀ s ∈ b.arrows, s.contains o = false) ∧
    (wrapping.isSome = true → ∀ s ∈ b.delimiters, s.contains o = false)))

instance (blocks : List Block) (o : Nat) : Decidable (Declared blocks o) :=
  inferInstanceAs (Decidable (∃ b ∈ blocks, o ∈ b.targets))

variable {source : Text} {wrapping : Option Wrapping} {bs : List Block} {r : Revision} {e : Edit}
  {o : Nat}

/-- The edits of a file, made from the last one on, give the code of its expansion. -/
theorem code_eq_of_foldlM {settings : Settings} {x : Expansion} {code : Text}
    (hSource : Text.size source < Offset.bound) (hx : ofText source settings = .ok x)
    (hBlocks : blocksOf source = .ok bs)
    (hCode : (editsInOrder bs settings.wrapping).reverse.foldlM apply source = .ok code) :
    x.code = code ∧ x.blocks = bs := by
  obtain ⟨bs', r, hrevised⟩ := exists_revised settings.wrapping hSource
  obtain rfl := Except.ok.inj (hBlocks.symm.trans hrevised.blocks_eq)
  obtain rfl := Except.ok.inj ((hrevised.ofText_eq settings).symm.trans hx)
  have hmade := hrevised.spaced.woven.foldlM_reverse [] rfl
  exact ⟨(Except.ok.inj (hCode.symm.trans hmade)).symm, rfl⟩

theorem mem_editsInOrder :
    e ∈ editsInOrder bs wrapping ↔ ∃ b ∈ bs,
      e ∈ b.innerEdits ∨ ∃ w, wrapping = some w ∧ e ∈ b.wrappingEdits w := by
  rw [editsInOrder, List.mem_flatMap]
  exact exists_congr fun b => and_congr_right fun _ => Block.mem_editsInOrder

namespace Revised

/-- Nothing but the declarations is inserted. -/
theorem insertion_mem_iff (h : Revised source wrapping bs r) :
    (∃ e ∈ editsInOrder bs wrapping, e.isReplace = false ∧ e.start = o) ↔ Declared bs o := by
  constructor
  · rintro ⟨e, he, hinsert, rfl⟩
    obtain ⟨b, hb, he | ⟨w, -, he⟩⟩ := mem_editsInOrder.1 he
    · rcases Block.mem_innerEdits_cases (h.content_lt hb) he with
        ⟨o, ho, rfl⟩ | ⟨s, -, new, -, -, rfl⟩
      · exact ⟨b, hb, ho⟩
      · exact absurd hinsert (by simp [isReplace])
    · simp only [Block.wrappingEdits, List.mem_cons, List.not_mem_nil, or_false] at he
      rcases he with rfl | rfl <;> exact absurd hinsert (by simp [isReplace])
  · rintro ⟨b, hb, ho⟩
    have hmem := Block.declaration_mem_innerEdits (h.content_lt hb) ho
    exact ⟨_, mem_editsInOrder.2 ⟨b, hb, .inl hmem⟩, rfl, rfl⟩

theorem declaration_of_insertion (h : Revised source wrapping bs r)
    (he : e ∈ editsInOrder bs wrapping) (hInsert : e.isReplace = false) :
    e.text = Binding.declaration := by
  obtain ⟨b, hb, he | ⟨w, -, he⟩⟩ := mem_editsInOrder.1 he
  · rcases Block.mem_innerEdits_cases (h.content_lt hb) he with
      ⟨o, -, rfl⟩ | ⟨s, -, new, -, -, rfl⟩
    · rfl
    · exact absurd hInsert (by simp [isReplace])
  · simp only [Block.wrappingEdits, List.mem_cons, List.not_mem_nil, or_false] at he
    rcases he with rfl | rfl <;> exact absurd hInsert (by simp [isReplace])

theorem not_covers (h : Revised source wrapping bs r) (hUntouched : Untouched bs wrapping o)
    (he : e ∈ editsInOrder bs wrapping) : ¬ e.Covers o := by
  have hspan : ∀ {s : Span}, s.contains o = false → ¬ (s.start ≤ o ∧ o < s.stop) := by
    intro s hs hin
    simp [Span.contains, hin] at hs
  obtain ⟨b, hb, hinner | ⟨w, rfl, hwrap⟩⟩ := mem_editsInOrder.1 he
  · rcases Block.mem_innerEdits_cases (h.content_lt hb) hinner with
      ⟨p, -, rfl⟩ | ⟨s, hs, new, -, -, rfl⟩
    · rintro ⟨hle, hlt⟩
      exact absurd hlt (Nat.not_lt.2 hle)
    · exact hspan ((hUntouched b hb).1 s hs)
  · simp only [Block.wrappingEdits, List.mem_cons, List.not_mem_nil, or_false] at hwrap
    have hdelimiters := (hUntouched b hb).2 rfl
    rcases hwrap with rfl | rfl <;> exact hspan (hdelimiters _ (by simp [Block.delimiters]))

/-- The replacements that put nothing in their place are those of delimiters. -/
theorem erased_mem_iff (h : Revised source wrapping bs r) :
    (∃ e ∈ editsInOrder bs wrapping, e.isReplace = true ∧ e.stop = o ∧ e.text = []) ↔
      FollowsErased bs wrapping o := by
  constructor
  · rintro ⟨e, he, hreplace, rfl, htext⟩
    obtain ⟨b, hb, hinner | ⟨w, rfl, hwrap⟩⟩ := mem_editsInOrder.1 he
    · rcases Block.mem_innerEdits_cases (h.content_lt hb) hinner with
        ⟨p, -, rfl⟩ | ⟨s, -, new, hne, -, rfl⟩
      · exact absurd hreplace (by simp [isReplace])
      · exact absurd htext hne
    · simp only [Block.wrappingEdits, List.mem_cons, List.not_mem_nil, or_false] at hwrap
      rcases hwrap with rfl | rfl
      · exact ⟨w, rfl, b, hb, .inl ⟨String.toList_eq_nil_iff.1 htext, rfl⟩⟩
      · exact ⟨w, rfl, b, hb, .inr ⟨String.toList_eq_nil_iff.1 htext, rfl⟩⟩
  · rintro ⟨w, rfl, b, hb, ⟨hempty, rfl⟩ | ⟨hempty, rfl⟩⟩
    · exact ⟨.replace ⟨b.start, b.opening + 1⟩ w.opening.toList,
        mem_editsInOrder.2 ⟨b, hb, .inr ⟨w, rfl, by simp [Block.wrappingEdits]⟩⟩, rfl, rfl,
        String.toList_eq_nil_iff.2 hempty⟩
    · exact ⟨.replace ⟨b.closing, b.stop⟩ w.closing.toList,
        mem_editsInOrder.2 ⟨b, hb, .inr ⟨w, rfl, by simp [Block.wrappingEdits]⟩⟩, rfl, rfl,
        String.toList_eq_nil_iff.2 hempty⟩

end Revised

/-- A file can be expanded. Each of its untouched characters stands in the code, and it is found
there and found again from there exactly if it does not follow an erased delimiter or is declared a
target. -/
theorem untouched_exact_iff (source : Text) (settings : Settings) (hMapped : settings.mapped = true)
    (hSource : Text.size source < 2 ^ 31) :
    ∃ x, ofText source settings = .ok x ∧
      (Text.size x.code < 2 ^ 31 → ∀ front c back, source = front ++ c :: back →
        Untouched x.blocks settings.wrapping (Text.size front) →
        ∃ before after, Stands source x.blocks settings.wrapping c front back before after ∧
          x.code = before ++ c :: after ∧
          (((Locator.ofDocument source x.code x.map).toGenerated (Text.size front) =
              .ok (Text.size before) ∧
            (Locator.ofDocument source x.code x.map).toSource (Text.size before) =
              .ok (Text.size front)) ↔
            (FollowsErased x.blocks settings.wrapping (Text.size front) →
              Declared x.blocks (Text.size front)))) := by
  have hbound : Offset.bound = 2 ^ 31 + 2 ^ 31 := by decide
  obtain ⟨bs, r, hrevised⟩ :=
    exists_revised settings.wrapping (show Text.size source < Offset.bound by omega)
  obtain rfl := hrevised.source_eq
  have hweave := hrevised.isWeave
  refine ⟨_, hrevised.ofText_eq settings, fun hCode front c back hsplit hUntouched => ?_⟩
  simp only [hMapped, if_true] at hCode ⊢
  have hfits : Text.size r.text < Offset.bound := by omega
  have hfree := fun e he => hrevised.not_covers (e := e) hUntouched he
  have hmem : Text.size front ∈ Text.boundaries r.source :=
    Text.mem_boundaries.2 ⟨front, _, hsplit, rfl⟩
  obtain ⟨es, fs, before, after, hedits, htext, hbefore, hafter, hsize⟩ :=
    hweave.woven.split hsplit (Nat.zero_add _).symm hfree
  refine ⟨before, after, ⟨hsplit, es, fs, hedits, hbefore, hafter⟩, htext, ?_⟩
  rw [hsize, ← hweave.place_eq hfits (Text.le_size_of_mem_boundaries hmem)]
  apply (hweave.located_iff (Text.addressable_of_size (by omega))
    (Text.addressable_of_size (by omega)) settings.header hmem).trans
  rw [hweave.mem_anchors_iff hfits hmem _ hfree, ← hrevised.erased_mem_iff,
    ← hrevised.insertion_mem_iff]
  · exact ⟨fun h ⟨e, he, hreplace, hstop, hnil⟩ => h e he hreplace hstop hnil,
      fun h e he hreplace hstop hnil => h ⟨e, he, hreplace, hstop, hnil⟩⟩
  · intro e he hinsert
    rw [hrevised.declaration_of_insertion he hinsert]
    decide

/-- Behind a keyword and a brace that give way to nothing a character loses its place. -/
theorem untouched_exact_iff_erased :
    ∃ x, ofText "gen\x7bx\x7d".toList { wrapping := some ⟨"", ")"⟩ } = .ok x ∧
      x.code = "x)".toList ∧
      ¬ ((Locator.ofDocument "gen\x7bx\x7d".toList x.code x.map).toGenerated 4 = .ok 0 ∧
        (Locator.ofDocument "gen\x7bx\x7d".toList x.code x.map).toSource 0 = .ok 4) := by
  obtain ⟨x, hx, hexact⟩ := untouched_exact_iff "gen\x7bx\x7d".toList
    { wrapping := some ⟨"", ")"⟩ } rfl (by decide)
  have hshape : blocksOf "gen\x7bx\x7d".toList = .ok [⟨0, 3, 6, "x".toList⟩] := by decide +kernel
  have hmade : (editsInOrder [⟨0, 3, 6, "x".toList⟩] (some ⟨"", ")"⟩)).reverse.foldlM apply
      "gen\x7bx\x7d".toList = .ok "x)".toList := by decide +kernel
  obtain ⟨hcode, hblocks⟩ := code_eq_of_foldlM (by decide) hx hshape hmade
  rw [hblocks] at hexact
  refine ⟨x, hx, hcode, fun hfound => ?_⟩
  obtain ⟨before, after, -, hsplit, hiff⟩ := hexact (by rw [hcode]; decide) "gen\x7b".toList 'x'
    "\x7d".toList rfl (by decide +kernel)
  obtain rfl : before = [] := by
    rw [hcode] at hsplit
    rcases before with _ | ⟨c, _ | ⟨d, rest⟩⟩ <;> simp_all
  have hdeclared := hiff.1 hfound ⟨_, rfl, _, List.mem_singleton_self _, .inl ⟨rfl, rfl⟩⟩
  exact absurd hdeclared (by decide +kernel)

end Expansion

end BindBlocks
