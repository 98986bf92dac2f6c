import BindBlocks.Proofs.Carry
import BindBlocks.Proofs.Codec
import BindBlocks.Proofs.Commit

/-! What the document of a revision pins. Its table has one mapping for each boundary of the source;
of the boundaries that go to one place only the first is written. These are the anchors, and the
locator of the document carries offsets along them in both directions. -/

namespace BindBlocks

namespace Edit

theorem isOver_mono {e : Edit} {o o' : Nat} (hle : o ≤ o') (h : e.isOver o = true) :
    e.isOver o' = true := by
  cases e with
  | replace span text =>
    simp only [isOver] at h ⊢
    split <;> simp_all <;> omega
  | insertLeft | insertRight =>
    simp only [isOver, decide_eq_true_eq] at h ⊢
    omega

end Edit

namespace Text

/-- Every offset and every line number of the text has 32 bits. -/
structure Addressable (t : Text) : Prop where
  size : Text.size t < Offset.bound
  lines : (LineTable.ofText t).count < Offset.bound

theorem length_breaksFrom (offset : Nat) (t : Text) :
    (LineTable.breaksFrom offset t).length = t.count '\n' := by
  induction t generalizing offset with
  | nil => rfl
  | cons c t ih =>
    rw [LineTable.breaksFrom]
    by_cases hc : c = '\n'
    · simp [hc, ih]
    · simp [hc, ih]

theorem count_ofText (t : Text) : (LineTable.ofText t).count = t.count '\n' + 1 := by
  rw [LineTable.count, LineTable.starts, LineTable.ofText, List.length_cons, length_breaksFrom]

/-- Among the texts whose size is an offset, a single one has too many lines. -/
theorem addressable_iff {t : Text} :
    t.Addressable ↔ size t < Offset.bound ∧ t ≠ List.replicate (Offset.bound - 1) '\n' := by
  have hpos : 0 < Offset.bound := by decide
  constructor
  · rintro ⟨hsize, hlines⟩
    refine ⟨hsize, fun ht => ?_⟩
    rw [count_ofText, ht, List.count_replicate_self] at hlines
    omega
  · rintro ⟨hsize, hne⟩
    refine ⟨hsize, ?_⟩
    have hcount := List.count_le_length (a := '\n') (l := t)
    have hlength := length_le_size t
    rw [count_ofText]
    by_contra hlines
    have hall := List.count_eq_length.1 (show t.count '\n' = t.length by omega)
    exact hne (List.eq_replicate_iff.2 ⟨by omega, fun c hc => (hall c hc).symm⟩)

theorem addressable_of_size {t : Text} (h : size t + 1 < Offset.bound) : t.Addressable := by
  have hcount := List.count_le_length (a := '\n') (l := t)
  have hlength := length_le_size t
  exact ⟨by omega, by rw [count_ofText]; omega⟩

theorem le_size_of_mem_boundaries {t : Text} {o : Nat} (h : o ∈ boundaries t) : o ≤ size t := by
  obtain ⟨front, back, rfl, rfl⟩ := mem_boundaries.1 h
  rw [size_append]
  omega

theorem mem_boundaries_feed {t front back : Text} (ht : t = front ++ '\n' :: back) :
    size front ∈ boundaries t ∧ size front + 1 ∈ boundaries t := by
  refine ⟨mem_boundaries.2 ⟨front, _, ht, rfl⟩, mem_boundaries.2 ⟨front ++ ['\n'], back, ?_, ?_⟩⟩
  · rw [ht, List.append_assoc]
    rfl
  · rw [size_append]
    rfl

theorem boundaries_rising (t : Text) : (boundaries t).Pairwise (· < ·) := boundariesFrom_sorted 0 t

end Text

namespace Drift

/-- A drift that has passed an offset can still be advanced to a later one. -/
theorem advance_advance (d : Drift) {o o' : Nat} (hle : o ≤ o') :
    (d.advance o).advance o' = d.advance o' := by
  have hpassing : ∀ (es : List Edit) (growth : Int),
      passing o' (passing o growth es).growth (passing o growth es).ahead =
        passing o' growth es := by
    intro es
    induction es with
    | nil => intro growth; rfl
    | cons e es ih =>
      intro growth
      rw [passing]
      by_cases hover : e.isOver o = true
      · rw [if_pos hover, ih, passing, if_pos (Edit.isOver_mono hle hover)]
      · rw [if_neg hover]
  exact hpassing d.ahead d.growth

end Drift

namespace Revision

/-- The mapping of an offset of the source. -/
def mappingAt (r : Revision) (o : Nat) : Mapping :=
  ⟨((LineTable.ofText r.text).position (r.place o)).numbered,
    ((LineTable.ofText r.source).position o).numbered⟩

theorem tableFrom_eq (r : Revision) {d : Drift} {p : Position} {front t : Text}
    (hSource : r.source = front ++ t)
    (hDrift : ∀ o, Text.size front ≤ o → d.advance o = r.drift.advance o)
    (hPosition : p = (LineTable.ofText r.source).position (Text.size front)) :
    tableFrom (LineTable.ofText r.text) d (Text.size front) p t =
      (Text.boundariesFrom (Text.size front) t).map r.mappingAt := by
  have hfirst : (⟨((LineTable.ofText r.text).position
      ((d.advance (Text.size front)).place (Text.size front))).numbered, p.numbered⟩ : Mapping) =
      r.mappingAt (Text.size front) := by
    rw [hDrift _ (Nat.le_refl _), hPosition, mappingAt, place]
  induction t generalizing d p front with
  | nil => rw [tableFrom, Text.boundariesFrom, List.map_cons, List.map_nil, ← hfirst]
  | cons c t ih =>
    have hsize : Text.size (front ++ [c]) = Text.size front + c.utf8Size := by simp
    have hdrift : ∀ o, Text.size (front ++ [c]) ≤ o →
        (d.advance (Text.size front)).advance o = r.drift.advance o := by
      intro o ho
      rw [d.advance_advance (by omega), hDrift o (by omega)]
    have hposition : p.after c =
        (LineTable.ofText r.source).position (Text.size (front ++ [c])) := by
      rw [hsize, LineTable.position_after hSource, hPosition]
    rw [tableFrom, Text.boundariesFrom, List.map_cons, ← hfirst, ← hsize]
    congr 1
    apply ih (by rw [hSource]; simp) hdrift hposition
    rw [hdrift _ (Nat.le_refl _), hposition, mappingAt, place]

theorem table_eq (r : Revision) : r.table = (Text.boundaries r.source).map r.mappingAt :=
  tableFrom_eq r (show r.source = [] ++ r.source from rfl) (fun _ _ => rfl)
    (LineTable.ofText_proper r.source).position_zero.symm

/-- The boundaries of the source that go behind all earlier ones. -/
def anchors (r : Revision) : List Nat :=
  (Text.boundaries r.source).filter fun o =>
    ∀ o' ∈ Text.boundaries r.source, o' < o → r.place o' < r.place o

theorem mem_anchors {r : Revision} {o : Nat} :
    o ∈ r.anchors ↔ o ∈ Text.boundaries r.source ∧
      ∀ o' ∈ Text.boundaries r.source, o' < o → r.place o' < r.place o := by
  rw [anchors, List.mem_filter, decide_eq_true_eq]

/-- Of a run of offsets that go to one place, the first one is kept. -/
theorem dedupeAfter_map {f : Nat → Nat} {g : Nat → Mapping} {all before rest : List Nat}
    (hAll : all = before ++ rest) (hRising : all.Pairwise (· < ·))
    (hMono : ∀ o ∈ all, ∀ o' ∈ all, o ≤ o' → f o ≤ f o')
    (hSame : ∀ o o', (g o).generated = (g o').generated ↔ f o = f o') :
    Mapping.dedupeAfter (before.getLast?.map fun o => (g o).generated) (rest.map g) =
      (rest.filter fun o => ∀ o' ∈ all, o' < o → f o' < f o).map g := by
  induction rest generalizing before with
  | nil => rfl
  | cons o rest ih =>
    have hnext := ih (show all = (before ++ [o]) ++ rest by rw [hAll]; simp)
    rw [List.getLast?_concat, Option.map_some] at hnext
    have ho : o ∈ all := by rw [hAll]; simp
    rw [List.map_cons, Mapping.dedupeAfter, List.filter_cons]
    have hbefore : ∀ o' ∈ all, o' < o → o' ∈ before := by
      intro o' ho' hlt
      rw [hAll] at ho' hRising
      rcases List.mem_append.1 ho' with hmem | hmem
      · exact hmem
      · rcases List.mem_cons.1 hmem with rfl | hmem
        · omega
        · have := List.rel_of_pairwise_cons (List.pairwise_append.1 hRising).2.1 hmem
          omega
    rcases List.eq_nil_or_concat before with rfl | ⟨front, last, rfl⟩
    · have hfirst : ∀ o' ∈ all, o' < o → f o' < f o := fun o' ho' hlt =>
        absurd (hbefore o' ho' hlt) (by simp)
      rw [if_neg (by simp), if_pos (decide_eq_true hfirst), List.map_cons, hnext]
    · rw [List.concat_eq_append] at hAll hbefore ⊢
      have hlast : last ∈ all := by rw [hAll]; simp
      have hlt : last < o := by
        rw [hAll, List.pairwise_append] at hRising
        exact hRising.2.2 last (by simp) o (by simp)
      have hle : ∀ o' ∈ all, o' < o → o' ≤ last := by
        intro o' ho' hlt'
        rw [hAll, List.append_assoc, List.pairwise_append] at hRising
        rcases List.mem_append.1 (hbefore o' ho' hlt') with hmem | hmem
        · exact Nat.le_of_lt (hRising.2.2 o' hmem last (by simp))
        · exact Nat.le_of_eq (List.mem_singleton.1 hmem)
      rw [List.getLast?_concat, Option.map_some]
      by_cases hsame : f last = f o
      · have hdrop : ¬ ∀ o' ∈ all, o' < o → f o' < f o := by
          intro hall
          have := hall last hlast hlt
          omega
        rw [if_pos (congrArg some ((hSame last o).2 hsame)), if_neg (by simpa using hdrop),
          ← hnext, (hSame last o).2 hsame]
      · have hkeep : ∀ o' ∈ all, o' < o → f o' < f o := by
          intro o' ho' hlt'
          have := hMono o' ho' last hlast (hle o' ho' hlt')
          have := hMono last hlast o ho (by omega)
          omega
        rw [if_neg (by simpa using mt (hSame last o).1 hsame), if_pos (decide_eq_true hkeep),
          List.map_cons, hnext]

variable {r : Revision} {es : List Edit} {o o' : Nat}

/-- The written table has the mappings of the anchors. -/
theorem IsWeave.normalize_table (h : r.IsWeave es) (hFits : Text.size r.text < Offset.bound) :
    Mapping.normalize r.table = r.anchors.map r.mappingAt := by
  have hproper := LineTable.ofText_proper r.text
  have hmono : ∀ o ∈ Text.boundaries r.source, ∀ o' ∈ Text.boundaries r.source, o ≤ o' →
      r.place o ≤ r.place o' := fun o _ o' ho' hle =>
    h.place_mono hFits (Text.le_size_of_mem_boundaries ho') hle
  have hlines : ((Text.boundaries r.source).map r.mappingAt).filter
      (fun m => 0 < m.generated.line) = (Text.boundaries r.source).map r.mappingAt := by
    rw [List.filter_eq_self]
    intro m hm
    obtain ⟨o, -, rfl⟩ := List.mem_map.1 hm
    exact decide_eq_true (Nat.succ_pos _)
  have hsorted : ((Text.boundaries r.source).map r.mappingAt).Pairwise
      fun m n => m.generated.le n.generated = true := by
    rw [List.pairwise_map]
    refine (Text.boundaries_rising r.source).imp_of_mem fun {o o'} ho ho' hlt => ?_
    exact hproper.position_le (hmono o ho o' ho' (Nat.le_of_lt hlt))
  rw [Mapping.normalize, table_eq, hlines, List.mergeSort_of_pairwise hsorted]
  apply dedupeAfter_map (List.nil_append _).symm (Text.boundaries_rising r.source) hmono
  intro o o'
  constructor
  · intro heq
    simp only [mappingAt, Position.numbered, Position.mk.injEq, Nat.add_right_cancel_iff] at heq
    exact hproper.position_inj (congrArg₂ Position.mk heq.1 heq.2)
  · intro heq
    rw [mappingAt, mappingAt, heq]

theorem mappingAt_fits (hSource : r.source.Addressable) (hText : r.text.Addressable)
    (ho : o < Offset.bound) (hPlace : r.place o < Offset.bound) : (r.mappingAt o).Fits := by
  have hs := LineTable.ofText_proper r.source
  have ht := LineTable.ofText_proper r.text
  have hline := hs.lt_count o
  have hline' := ht.lt_count (r.place o)
  have hlines := hSource.lines
  have hlines' := hText.lines
  rw [mappingAt, hs.position_eq, ht.position_eq]
  exact ⟨by simp only [Position.numbered]; omega, by simp only [Position.numbered]; omega,
    by simp only [Position.numbered]; omega, by simp only [Position.numbered]; omega⟩

theorem IsWeave.entries_eq (h : r.IsWeave es) (hSource : r.source.Addressable)
    (hText : r.text.Addressable) (header : MapHeader) :
    (r.document header).entries = r.anchors.map fun o => MapEntry.ofMapping (r.mappingAt o) := by
  have hfits : ∀ m ∈ r.table, m.Fits := by
    intro m hm
    rw [table_eq] at hm
    obtain ⟨o, ho, rfl⟩ := List.mem_map.1 hm
    have hle := Text.le_size_of_mem_boundaries ho
    exact mappingAt_fits hSource hText (Nat.lt_of_le_of_lt hle hSource.size)
      (Nat.lt_of_le_of_lt (h.place_le hText.size hle) hText.size)
  have hsource : (r.anchors.map r.mappingAt).filter (fun m => 0 < m.source.line) =
      r.anchors.map r.mappingAt := by
    rw [List.filter_eq_self]
    intro m hm
    obtain ⟨o, -, rfl⟩ := List.mem_map.1 hm
    exact decide_eq_true (Nat.succ_pos _)
  rw [MapDocument.entries, document, MapDocument.ofTable, String.toList_ofList,
    Mapping.decode_encode_eq hfits, h.normalize_table hText.size, hsource, List.map_map]
  rfl

theorem anchors_rising (r : Revision) :
    r.anchors.Pairwise fun o o' => o < o' ∧ r.place o < r.place o' := by
  refine ((Text.boundaries_rising r.source).filter _).imp_of_mem fun {o o'} ho ho' hlt => ?_
  exact ⟨hlt, (mem_anchors.1 ho').2 o (mem_anchors.1 ho).1 hlt⟩

/-- The anchors from the source to the edited text. -/
def IsWeave.forward (h : r.IsWeave es) (hText : r.text.Addressable) : Rail where
  here := LineTable.ofText r.source
  there := LineTable.ofText r.text
  anchors := r.anchors.map fun o => (o, r.place o)
  hereProper := LineTable.ofText_proper _
  thereProper := LineTable.ofText_proper _
  rising := by
    rw [List.pairwise_map]
    exact r.anchors_rising
  inside := by
    intro x hx
    obtain ⟨o, ho, rfl⟩ := List.mem_map.1 hx
    exact h.place_le hText.size (Text.le_size_of_mem_boundaries (mem_anchors.1 ho).1)
  fits := hText.size

/-- The anchors from the edited text back to the source. -/
def backward (hSource : r.source.Addressable) : Rail where
  here := LineTable.ofText r.text
  there := LineTable.ofText r.source
  anchors := r.anchors.map fun o => (r.place o, o)
  hereProper := LineTable.ofText_proper _
  thereProper := LineTable.ofText_proper _
  rising := by
    rw [List.pairwise_map]
    exact r.anchors_rising.imp fun hlt => ⟨hlt.2, hlt.1⟩
  inside := by
    intro x hx
    obtain ⟨o, ho, rfl⟩ := List.mem_map.1 hx
    exact Text.le_size_of_mem_boundaries (mem_anchors.1 ho).1
  fits := hSource.size

theorem IsWeave.toGenerated_eq (h : r.IsWeave es) (hSource : r.source.Addressable)
    (hText : r.text.Addressable) (header : MapHeader) (o : Nat) :
    (Locator.ofDocument r.source r.text (r.document header)).toGenerated o =
      (h.forward hText).carry o := by
  rw [Locator.ofDocument, h.entries_eq hSource hText, Locator.toGenerated, Locator.ofEntries,
    Rail.carry]
  simp only [List.map_map, forward]
  rfl

theorem IsWeave.toSource_eq (h : r.IsWeave es) (hSource : r.source.Addressable)
    (hText : r.text.Addressable) (header : MapHeader) (o : Nat) :
    (Locator.ofDocument r.source r.text (r.document header)).toSource o =
      (backward hSource).carry o := by
  rw [Locator.ofDocument, h.entries_eq hSource hText, Locator.toSource, Locator.ofEntries,
    Rail.carry]
  simp only [List.map_map, backward]
  rfl

end Revision

end BindBlocks
