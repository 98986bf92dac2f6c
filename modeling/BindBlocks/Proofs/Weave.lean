import BindBlocks.Edit.Basic
import BindBlocks.Proofs.Boundary

/-! Edits from left to right. `Woven` says that a list of edits leads from one text to another, the
kept parts of the first standing between the new texts of the edits; it composes, so the edits of a
text can be put together from the edits of its parts. `landing` says where an offset of the first
text goes in the second. -/

namespace BindBlocks

namespace Edit

/-- Where an edit ends in the text it applies to. -/
def stop : Edit → Nat
  | replace span _ => span.stop
  | insertLeft offset _ => offset
  | insertRight offset _ => offset

/-- A replacement takes something away. -/
def Fair (e : Edit) : Prop := e.isReplace = true → e.start < e.stop

/-- An edit takes away the character at an offset. -/
def Covers (e : Edit) (offset : Nat) : Prop := e.start ≤ offset ∧ offset < e.stop

theorem stop_eq_start {e : Edit} (h : e.isReplace = false) : e.stop = e.start := by
  cases e <;> first | rfl | simp [isReplace] at h

theorem Fair.start_le_stop {e : Edit} (h : e.Fair) : e.start ≤ e.stop := by
  by_cases hreplace : e.isReplace = true
  · exact Nat.le_of_lt (h hreplace)
  · exact Nat.le_of_eq (stop_eq_start (by simpa using hreplace)).symm

theorem Fair.isOver_iff {e : Edit} (h : e.Fair) (offset : Nat) :
    e.isOver offset = true ↔ e.stop ≤ offset := by
  cases e with
  | replace span text =>
    have hlt : span.start < span.stop := h rfl
    have hne : (span.start == span.stop) = false := by simp; omega
    simp [isOver, Span.isEmpty, hne, stop]
  | insertLeft | insertRight => simp [isOver, stop]

theorem growth_eq (e : Edit) : e.growth = (Text.size e.text : Int) - (e.stop - e.start) := by
  cases e <;> simp [growth, text, stop, start]

/-- An edit splices its text between its ends. -/
theorem apply_append {e : Edit} {front gone back : Text} (hStart : e.start = Text.size front)
    (hStop : e.stop = e.start + Text.size gone) :
    apply (front ++ gone ++ back) e = .ok (front ++ e.text ++ back) := by
  have hsplice := Text.splice_append front gone back e.text
  rw [← hStart, ← hStop] at hsplice
  cases e <;> exact hsplice

/-- Edits from left to right: each one is over where the next one starts. -/
structure InOrder (es : List Edit) : Prop where
  fair : ∀ e ∈ es, e.Fair
  apart : es.Pairwise fun e f => e.stop ≤ f.start

theorem InOrder.tail {e : Edit} {es : List Edit} (h : InOrder (e :: es)) : InOrder es :=
  ⟨fun f hf => h.fair f (List.mem_cons_of_mem e hf), h.apart.tail⟩

theorem InOrder.stop_le {e f : Edit} {es : List Edit} (h : InOrder (e :: es)) (hf : f ∈ es) :
    e.stop ≤ f.start :=
  List.rel_of_pairwise_cons h.apart hf

/-- The edits, all at or after `offset` and from left to right, make the second text of the first
one, which starts at `offset`. -/
inductive Woven : Nat → List Edit → Text → Text → Prop
  | rest (offset : Nat) (t : Text) : Woven offset [] t t
  | edit {offset : Nat} {e : Edit} {es : List Edit} {kept gone t result : Text} :
      e.Fair → e.start = offset + Text.size kept → e.stop = e.start + Text.size gone →
      Woven e.stop es t result →
      Woven offset (e :: es) (kept ++ gone ++ t) (kept ++ e.text ++ result)

/-- How far into the second text an offset of the first one goes. -/
def landing (offset : Nat) : List Edit → Nat → Nat
  | [], p => p - offset
  | e :: es, p =>
    if e.stop ≤ p then e.start - offset + Text.size e.text + landing e.stop es p
    else min p e.start - offset

namespace Woven

variable {offset : Nat} {es fs : List Edit} {t u result result' : Text}

theorem start_ge (h : Woven offset es t result) : ∀ e ∈ es, offset ≤ e.start := by
  induction h with
  | rest => simp
  | @edit offset e es kept gone t result fair hStart hStop _ ih =>
    intro f hf
    rcases List.mem_cons.1 hf with rfl | hf
    · omega
    · have := ih f hf
      omega

theorem inOrder (h : Woven offset es t result) : InOrder es := by
  induction h with
  | rest => exact ⟨by simp, List.Pairwise.nil⟩
  | @edit offset e es kept gone t result fair _ _ h ih =>
    refine ⟨?_, List.Pairwise.cons h.start_ge ih.apart⟩
    intro f hf
    rcases List.mem_cons.1 hf with rfl | hf
    · exact fair
    · exact ih.fair f hf

/-- Making the edits from the last to the first leads to the second text. -/
theorem foldlM_reverse (h : Woven offset es t result) (front : Text)
    (hFront : Text.size front = offset) :
    es.reverse.foldlM apply (front ++ t) = .ok (front ++ result) := by
  induction h generalizing front with
  | rest => rfl
  | @edit offset e es kept gone t result fair hStart hStop _ ih =>
    have hinner := ih (front ++ kept ++ gone) (by simp only [Text.size_append]; omega)
    have happly : apply (front ++ kept ++ gone ++ result) e =
        .ok (front ++ kept ++ e.text ++ result) :=
      apply_append (by rw [Text.size_append]; omega) hStop
    simp only [List.append_assoc] at hinner happly ⊢
    rw [List.reverse_cons, List.foldlM_append, hinner]
    simp only [List.foldlM_cons, List.foldlM_nil]
    exact (congrArg (· >>= pure) happly).trans rfl

/-- A text in front that no edit touches. -/
theorem keep (h : Woven offset es t result) {start : Nat} (front : Text)
    (hStart : offset = start + Text.size front) :
    Woven start es (front ++ t) (front ++ result) := by
  cases h with
  | rest => exact .rest start (front ++ t)
  | @edit _ e es kept gone t result fair heStart heStop h =>
    have hstart : e.start = start + Text.size (front ++ kept) := by
      rw [Text.size_append]
      omega
    have hwoven := Woven.edit fair hstart heStop h
    simpa only [List.append_assoc] using hwoven

/-- The edits of one text and then those of the next. -/
theorem append (h : Woven offset es t result) {middle : Nat}
    (hMiddle : middle = offset + Text.size t) (h' : Woven middle fs u result') :
    Woven offset (es ++ fs) (t ++ u) (result ++ result') := by
  induction h with
  | rest offset t => exact h'.keep t hMiddle
  | @edit offset e es kept gone t result fair hStart hStop _ ih =>
    have hinner := ih (by rw [hMiddle]; simp only [Text.size_append]; omega)
    have hwoven := Woven.edit fair hStart hStop hinner
    simpa only [List.append_assoc, List.cons_append] using hwoven

/-- The end of the first text goes to the end of the second one. -/
theorem landing_end (h : Woven offset es t result) :
    landing offset es (offset + Text.size t) = Text.size result := by
  induction h with
  | rest => simp [landing]
  | @edit offset e es kept gone t result fair hStart hStop _ ih =>
    have hend : offset + Text.size (kept ++ gone ++ t) = e.stop + Text.size t := by
      simp only [Text.size_append]
      omega
    rw [hend, landing, if_pos (Nat.le_add_right _ _), ih]
    simp only [Text.size_append]
    omega

/-- Around a character that no edit takes away, the edits fall into those of the text in front and
those of the text behind. -/
theorem split (h : Woven offset es t result) {front back : Text} {c : Char} {p : Nat}
    (ht : t = front ++ c :: back) (hp : p = offset + Text.size front)
    (hFree : ∀ e ∈ es, ¬ e.Covers p) :
    ∃ es₁ es₂ before after, es = es₁ ++ es₂ ∧ result = before ++ c :: after ∧
      Woven offset es₁ front before ∧ Woven (p + c.utf8Size) es₂ back after ∧
      Text.size before = landing offset es p := by
  subst hp
  induction h generalizing front with
  | rest =>
    exact ⟨[], [], front, back, rfl, ht, .rest _ front, .rest _ back, by simp [landing]⟩
  | @edit offset e es kept gone t result fair hStart hStop h ih =>
    have hnot := hFree e List.mem_cons_self
    rw [landing]
    by_cases hover : e.stop ≤ offset + Text.size front
    · have hle : Text.size (kept ++ gone) ≤ Text.size front := by
        rw [Text.size_append]
        omega
      obtain ⟨m, rfl, hm⟩ := Text.exists_middle ht hle
      have hoffset : offset + Text.size (kept ++ gone ++ m) = e.stop + Text.size m := by
        simp only [Text.size_append]
        omega
      rw [hoffset] at hFree ⊢
      obtain ⟨es₁, es₂, before, after, rfl, hresult, hbefore, hafter, hsize⟩ :=
        ih hm fun f hf => hFree f (List.mem_cons_of_mem e hf)
      refine ⟨e :: es₁, es₂, kept ++ e.text ++ before, after, rfl, ?_,
        .edit fair hStart hStop hbefore, hafter, ?_⟩
      · rw [hresult]
        simp only [List.append_assoc]
      · rw [if_pos (Nat.le_add_right _ _)]
        simp only [Text.size_append]
        omega
    · have hlt : Text.size front < Text.size kept := by
        rcases Nat.lt_or_ge (Text.size front) (Text.size kept) with hlt | hge
        · exact hlt
        · exact absurd ⟨by omega, by omega⟩ hnot
      rw [List.append_assoc] at ht
      obtain ⟨m, rfl, hm⟩ := Text.exists_middle ht.symm (Nat.le_of_lt hlt)
      cases m with
      | nil => simp at hlt
      | cons d m =>
        obtain ⟨rfl, rfl⟩ := List.cons.inj hm
        have hstart : e.start = offset + Text.size front + c.utf8Size + Text.size m := by
          simp only [Text.size_append, Text.size_cons] at hStart
          omega
        refine ⟨[], e :: es, front, m ++ e.text ++ result, rfl, by simp, .rest _ front, ?_, ?_⟩
        · have hwoven := Woven.edit fair hstart hStop h
          rwa [List.append_assoc m gone t] at hwoven
        · rw [if_neg hover]
          omega

/-- A character that no edit takes away stands in the second text where its offset goes. -/
theorem survives (h : Woven offset es t result) {front back : Text} {c : Char} {p : Nat}
    (ht : t = front ++ c :: back) (hp : p = offset + Text.size front)
    (hFree : ∀ e ∈ es, ¬ e.Covers p) :
    ∃ before after, result = before ++ c :: after ∧ Text.size before = landing offset es p := by
  obtain ⟨-, -, before, after, -, hresult, -, -, hsize⟩ := h.split ht hp hFree
  exact ⟨before, after, hresult, hsize⟩

/-- A character that no edit brings in comes from the first text. -/
theorem origin (h : Woven offset es t result) {before after : Text} {c : Char}
    (hResult : result = before ++ c :: after) (hNew : ∀ e ∈ es, c ∉ e.text) :
    ∃ front back, t = front ++ c :: back ∧
      landing offset es (offset + Text.size front) = Text.size before ∧
      ∀ e ∈ es, ¬ e.Covers (offset + Text.size front) := by
  induction h generalizing before with
  | rest => exact ⟨before, after, hResult, by simp [landing], by simp⟩
  | @edit offset e es kept gone t result fair hStart hStop h ih =>
    have hfair := fair.start_le_stop
    by_cases hkept : Text.size before < Text.size kept
    · rw [List.append_assoc] at hResult
      obtain ⟨m, rfl, hm⟩ := Text.exists_middle hResult.symm (Nat.le_of_lt hkept)
      cases m with
      | nil => simp at hkept
      | cons d m =>
        obtain ⟨rfl, -⟩ := List.cons.inj hm
        refine ⟨before, m ++ gone ++ t, by simp, ?_, fun f hf hCovers => ?_⟩
        · rw [landing, if_neg (by omega)]
          omega
        · have := hCovers.1
          rcases List.mem_cons.1 hf with rfl | hf
          · omega
          · have := h.start_ge f hf
            omega
    · by_cases hnew : Text.size before < Text.size (kept ++ e.text)
      · obtain ⟨m, hm, hrest⟩ := Text.exists_middle hResult.symm (Nat.le_of_lt hnew)
        obtain ⟨n, rfl, htext⟩ := Text.exists_middle hm (by omega)
        cases m with
        | nil => simp [htext] at hnew
        | cons d m =>
          obtain ⟨rfl, -⟩ := List.cons.inj hrest
          exact absurd (by simp [htext]) (hNew e List.mem_cons_self)
      · obtain ⟨m, rfl, hm⟩ := Text.exists_middle hResult (by omega)
        obtain ⟨front, back, rfl, hlanding, hfree⟩ :=
          ih hm fun f hf => hNew f (List.mem_cons_of_mem e hf)
        have hoffset : offset + Text.size (kept ++ gone ++ front) = e.stop + Text.size front := by
          simp only [Text.size_append]
          omega
        refine ⟨kept ++ gone ++ front, back, by simp, ?_, fun f hf => ?_⟩
        · rw [hoffset, landing, if_pos (Nat.le_add_right _ _), hlanding]
          simp only [Text.size_append]
          omega
        · rw [hoffset]
          rcases List.mem_cons.1 hf with rfl | hf
          · exact fun hCovers => absurd hCovers.2 (by omega)
          · exact hfree f hf

/-- Edits from left to right between boundaries of a text can be woven into it. -/
theorem exists_of_inOrder (hOrder : InOrder es) (hStart : ∀ e ∈ es, offset ≤ e.start)
    (hEnds : ∀ e ∈ es, (∃ front back, t = front ++ back ∧ e.start = offset + Text.size front) ∧
      ∃ front back, t = front ++ back ∧ e.stop = offset + Text.size front) :
    ∃ result, Woven offset es t result := by
  induction es generalizing offset t with
  | nil => exact ⟨t, .rest offset t⟩
  | cons e es ih =>
    obtain ⟨⟨kept, after, hkept, hstart⟩, ⟨front, t', hfront, hstop⟩⟩ :=
      hEnds e List.mem_cons_self
    have hfair := hOrder.fair e List.mem_cons_self
    have hle := hfair.start_le_stop
    obtain ⟨gone, rfl, rfl⟩ := Text.exists_middle (hkept.symm.trans hfront) (by omega)
    have hgone : e.stop = e.start + Text.size gone := by
      rw [Text.size_append] at hstop
      omega
    have hrest : ∀ o, e.stop ≤ o →
        (∃ front back, t = front ++ back ∧ o = offset + Text.size front) →
        ∃ front back, t' = front ++ back ∧ o = e.stop + Text.size front := by
      rintro o ho ⟨front, back, hsplit, rfl⟩
      obtain ⟨m, rfl, hm⟩ := Text.exists_middle (hfront.symm.trans hsplit) (by omega)
      exact ⟨m, back, hm, by rw [Text.size_append _ m]; omega⟩
    obtain ⟨result, hwoven⟩ := ih hOrder.tail (fun f hf => hOrder.stop_le hf) fun f hf => by
      have hf' := List.mem_cons_of_mem e hf
      have hbefore := hOrder.stop_le hf
      have hfle := (hOrder.fair f hf').start_le_stop
      exact ⟨hrest _ hbefore (hEnds f hf').1, hrest _ (Nat.le_trans hbefore hfle) (hEnds f hf').2⟩
    rw [hfront]
    exact ⟨kept ++ e.text ++ result, .edit hfair hstart hgone hwoven⟩

/-- The edits stand between boundaries of the first text. -/
theorem ends (h : Woven offset es t result) : ∀ e ∈ es,
    (∃ front back, t = front ++ back ∧ e.start = offset + Text.size front) ∧
      ∃ front back, t = front ++ back ∧ e.stop = offset + Text.size front := by
  induction h with
  | rest => simp
  | @edit offset e es kept gone t result fair hStart hStop _ ih =>
    intro f hf
    rcases List.mem_cons.1 hf with rfl | hf
    · refine ⟨⟨kept, gone ++ t, List.append_assoc _ _ _, hStart⟩, ⟨kept ++ gone, t, rfl, ?_⟩⟩
      rw [Text.size_append]
      omega
    · obtain ⟨⟨front, back, rfl, hstart⟩, ⟨front', back', hsplit, hstop⟩⟩ := ih f hf
      refine ⟨⟨kept ++ gone ++ front, back, by simp only [List.append_assoc], ?_⟩,
        ⟨kept ++ gone ++ front', back', by rw [hsplit]; simp only [List.append_assoc], ?_⟩⟩
      · simp only [Text.size_append]
        omega
      · simp only [Text.size_append]
        omega

end Woven

theorem eq_of_start_eq {es : List Edit} (hRising : es.Pairwise fun e f => e.start < f.start)
    {e f : Edit} (he : e ∈ es) (hf : f ∈ es) (heq : e.start = f.start) : e = f := by
  have hall : ∀ ⦃e⦄, e ∈ es → ∀ ⦃f⦄, f ∈ es → e.start = f.start → e = f :=
    List.Pairwise.forall_of_forall_of_flip (fun _ _ _ => rfl)
      (hRising.imp fun hlt heq => absurd heq (Nat.ne_of_lt hlt))
      (hRising.imp fun hlt heq => absurd heq (Nat.ne_of_gt hlt))
  exact hall he hf heq

/-- Woven edits of which no two start at one offset and none at the end of the text. -/
structure Spaced (offset : Nat) (es : List Edit) (t result : Text) : Prop where
  woven : Woven offset es t result
  rising : es.Pairwise fun e f => e.start < f.start
  before : ∀ e ∈ es, e.start < offset + Text.size t

namespace Spaced

variable {offset middle : Nat} {es fs : List Edit} {t u result result' : Text}

theorem rest (offset : Nat) (t : Text) : Spaced offset [] t t :=
  ⟨.rest offset t, List.Pairwise.nil, by simp⟩

theorem replace (offset : Nat) {gone : Text} (new : Text) (hGone : gone ≠ []) :
    Spaced offset [.replace ⟨offset, offset + Text.size gone⟩ new] gone new := by
  have hsize : 0 < Text.size gone := Nat.pos_of_ne_zero (mt Text.size_eq_zero.1 hGone)
  refine ⟨?_, List.pairwise_singleton _ _, ?_⟩
  · have hfair : (Edit.replace ⟨offset, offset + Text.size gone⟩ new).Fair := by
      intro _
      simp only [start, stop]
      omega
    have hwoven := @Woven.edit offset _ [] [] gone [] [] hfair rfl rfl (.rest _ [])
    simpa [text] using hwoven
  · intro e he
    rw [List.mem_singleton.1 he]
    exact Nat.lt_add_of_pos_right hsize

theorem insertLeft (offset : Nat) {t : Text} (new : Text) (ht : t ≠ []) :
    Spaced offset [.insertLeft offset new] t (new ++ t) := by
  have hsize : 0 < Text.size t := Nat.pos_of_ne_zero (mt Text.size_eq_zero.1 ht)
  refine ⟨?_, List.pairwise_singleton _ _, ?_⟩
  · have hfair : (Edit.insertLeft offset new).Fair := fun h => absurd h (by simp [isReplace])
    have hwoven := @Woven.edit offset _ [] [] [] t t hfair rfl rfl (.rest _ t)
    simpa [text] using hwoven
  · intro e he
    rw [List.mem_singleton.1 he]
    exact Nat.lt_add_of_pos_right hsize

theorem append (h : Spaced offset es t result) (hMiddle : middle = offset + Text.size t)
    (h' : Spaced middle fs u result') : Spaced offset (es ++ fs) (t ++ u) (result ++ result') := by
  refine ⟨h.woven.append hMiddle h'.woven, ?_, ?_⟩
  · refine List.pairwise_append.2 ⟨h.rising, h'.rising, fun e he f hf => ?_⟩
    have := h.before e he
    have := h'.woven.start_ge f hf
    omega
  · intro e he
    rw [Text.size_append]
    rcases List.mem_append.1 he with he | he
    · have := h.before e he
      omega
    · have := h'.before e he
      omega

end Spaced

/-- An edit takes no line feed from a text that starts at `offset`. -/
def KeepsLines (e : Edit) (offset : Nat) (t : Text) : Prop :=
  ∃ front gone back, t = front ++ gone ++ back ∧ e.start = offset + Text.size front ∧
    e.stop = e.start + Text.size gone ∧ '\n' ∉ gone

namespace KeepsLines

variable {e : Edit} {offset middle : Nat} {t u front back : Text}

theorem append_right (h : e.KeepsLines offset t) (u : Text) : e.KeepsLines offset (t ++ u) := by
  obtain ⟨front, gone, back, rfl, hstart, hstop, hgone⟩ := h
  exact ⟨front, gone, back ++ u, by simp only [List.append_assoc], hstart, hstop, hgone⟩

theorem append_left (h : e.KeepsLines middle t) (hMiddle : middle = offset + Text.size u) :
    e.KeepsLines offset (u ++ t) := by
  obtain ⟨front, gone, back, rfl, hstart, hstop, hgone⟩ := h
  refine ⟨u ++ front, gone, back, by simp only [List.append_assoc], ?_, hstop, hgone⟩
  rw [Text.size_append]
  omega

theorem not_covers (h : e.KeepsLines offset t) (ht : t = front ++ '\n' :: back) {p : Nat}
    (hp : p = offset + Text.size front) : ¬ e.Covers p := by
  subst hp
  obtain ⟨before, gone, after, rfl, hstart, hstop, hgone⟩ := h
  rintro ⟨hle, hlt⟩
  rw [List.append_assoc] at ht
  obtain ⟨m, rfl, hm⟩ := Text.exists_middle ht (show Text.size before ≤ Text.size front by omega)
  rw [Text.size_append] at hlt
  obtain ⟨n, rfl, hn⟩ := Text.exists_middle hm.symm (show Text.size m ≤ Text.size gone by omega)
  cases n with
  | nil =>
    rw [List.append_nil] at hstop
    omega
  | cons c n =>
    obtain ⟨rfl, -⟩ := List.cons.inj hn
    exact hgone (by simp)

end KeepsLines

section Landing

variable {offset : Nat} {es fs : List Edit} {p q : Nat}

theorem landing_mono (offset : Nat) (hOrder : InOrder es) (hle : p ≤ q) :
    landing offset es p ≤ landing offset es q := by
  induction es generalizing offset with
  | nil =>
    rw [landing, landing]
    omega
  | cons e es ih =>
    rw [landing, landing]
    have := ih e.stop hOrder.tail
    split <;> split <;> omega

/-- What follows a character that no edit takes away goes behind it. -/
theorem landing_lt_of_free (hOrder : InOrder es) (hp : offset ≤ p) (hlt : p < q)
    (hFree : ∀ e ∈ es, ¬ e.Covers p) : landing offset es p < landing offset es q := by
  induction es generalizing offset with
  | nil =>
    rw [landing, landing]
    omega
  | cons e es ih =>
    have hnot := hFree e List.mem_cons_self
    have hfair := (hOrder.fair e List.mem_cons_self).start_le_stop
    rw [landing, landing]
    by_cases hover : e.stop ≤ p
    · have := ih hOrder.tail hover fun f hf => hFree f (List.mem_cons_of_mem e hf)
      rw [if_pos hover, if_pos (by omega)]
      omega
    · have hbefore : p < e.start := by
        rcases Nat.lt_or_ge p e.start with hlt | hge
        · exact hlt
        · exact absurd ⟨hge, by omega⟩ hnot
      rw [if_neg hover]
      split <;> omega

theorem size_text_le_landing (hOrder : InOrder es) {e : Edit} (he : e ∈ es) (hOver : e.stop ≤ p) :
    Text.size e.text ≤ landing offset es p := by
  induction es generalizing offset with
  | nil => exact absurd he (by simp)
  | cons f es ih =>
    rcases List.mem_cons.1 he with rfl | hmem
    · rw [landing, if_pos hOver]
      omega
    · have := hOrder.stop_le hmem
      have := (hOrder.fair e he).start_le_stop
      have hrest : Text.size e.text ≤ landing f.stop es p := ih hOrder.tail hmem
      rw [landing, if_pos (by omega)]
      omega

/-- An offset outside of the replacements goes behind all that came before it, unless a replacement
that ends there puts nothing in its place and nothing is inserted there. -/
theorem landing_lt_of_filled (hOrder : InOrder es) (hp : offset ≤ p) (hlt : p < q)
    (hOutside : ∀ e ∈ es, ¬ (e.start < q ∧ q < e.stop))
    (hFilled : ∀ e ∈ es, e.isReplace = true → e.stop = q → e.text = [] →
      ∃ f ∈ es, f.isReplace = false ∧ f.start = q ∧ f.text ≠ []) :
    landing offset es p < landing offset es q := by
  induction es generalizing offset p with
  | nil =>
    rw [landing, landing]
    omega
  | cons e es ih =>
    have hnot := hOutside e List.mem_cons_self
    have hfilled : ∀ f ∈ es, f.isReplace = true → f.stop = q → f.text = [] →
        ∃ g ∈ es, g.isReplace = false ∧ g.start = q ∧ g.text ≠ [] := by
      intro f hf hreplace hstop htext
      obtain ⟨g, hg, hinsert, hstart, hne⟩ :=
        hFilled f (List.mem_cons_of_mem e hf) hreplace hstop htext
      rcases List.mem_cons.1 hg with rfl | hg
      · have := hOrder.stop_le hf
        have := hOrder.fair f (List.mem_cons_of_mem g hf) hreplace
        have := stop_eq_start hinsert
        omega
      · exact ⟨g, hg, hinsert, hstart, hne⟩
    have hlater : ∀ {p : Nat}, e.stop ≤ p → p < q →
        landing e.stop es p < landing e.stop es q := fun hp hlt =>
      ih hOrder.tail hp hlt (fun f hf => hOutside f (List.mem_cons_of_mem e hf)) hfilled
    rw [landing, landing]
    by_cases hover : e.stop ≤ p
    · have := hlater hover hlt
      rw [if_pos hover, if_pos (by omega)]
      omega
    · rw [if_neg hover]
      by_cases hreplace : e.isReplace = true
      · have hfair := hOrder.fair e List.mem_cons_self hreplace
        by_cases hend : e.stop ≤ q
        · have hpos : 0 < Text.size e.text + landing e.stop es q := by
            by_cases htext : e.text = []
            · rcases Nat.lt_or_eq_of_le hend with hbefore | hstop
              · have := hlater (Nat.le_refl _) hbefore
                omega
              · obtain ⟨f, hf, hinsert, hstart, hne⟩ :=
                  hFilled e List.mem_cons_self hreplace hstop htext
                have hmem : f ∈ es := by
                  rcases List.mem_cons.1 hf with rfl | hmem
                  · rw [hreplace] at hinsert
                    exact absurd hinsert (by simp)
                  · exact hmem
                have hover : f.stop ≤ q := Nat.le_of_eq ((stop_eq_start hinsert).trans hstart)
                have hsize : Text.size f.text ≤ landing e.stop es q :=
                  size_text_le_landing hOrder.tail hmem hover
                have := mt Text.size_eq_zero.1 hne
                omega
            · have := mt Text.size_eq_zero.1 htext
              omega
          rw [if_pos hend]
          omega
        · rw [if_neg hend]
          omega
      · have := stop_eq_start (by simpa using hreplace)
        split <;> omega

/-- If every replacement puts something in its place, an offset outside of them goes behind all that
came before it. -/
theorem landing_lt_of_outside (hOrder : InOrder es) (hp : offset ≤ p) (hlt : p < q)
    (hText : ∀ e ∈ es, e.isReplace = true → e.text ≠ [])
    (hOutside : ∀ e ∈ es, ¬ (e.start < q ∧ q < e.stop)) :
    landing offset es p < landing offset es q :=
  landing_lt_of_filled hOrder hp hlt hOutside fun e he hreplace _ htext =>
    absurd htext (hText e he hreplace)

/-- The end of a replacement goes behind its text, if nothing is inserted there. -/
theorem landing_stop (hOrder : InOrder es) {e : Edit} (he : e ∈ es) (hReplace : e.isReplace = true)
    (hNone : ∀ f ∈ es, f.isReplace = false → f.start ≠ e.stop) :
    landing offset es e.stop = landing offset es e.start + Text.size e.text := by
  have hfair := hOrder.fair e he hReplace
  induction es generalizing offset with
  | nil => exact absurd he (by simp)
  | cons f es ih =>
    rw [landing, landing]
    rcases List.mem_cons.1 he with rfl | hmem
    · have hbehind : landing e.stop es e.stop = 0 := by
        cases es with
        | nil => exact Nat.sub_self _
        | cons f es =>
          have hf : f ∈ e :: f :: es := by simp
          have := hOrder.stop_le (show f ∈ f :: es by simp)
          have hahead : ¬ f.stop ≤ e.stop := by
            intro hle
            by_cases hreplace : f.isReplace = true
            · have := hOrder.fair f hf hreplace
              omega
            · have := stop_eq_start (by simpa using hreplace)
              exact hNone f hf (by simpa using hreplace) (by omega)
          rw [landing, if_neg hahead]
          omega
      rw [if_pos (Nat.le_refl _), if_neg (by omega), hbehind]
      omega
    · have := hOrder.stop_le hmem
      rw [if_pos (by omega), if_pos (by omega),
        ih hOrder.tail hmem fun g hg => hNone g (List.mem_cons_of_mem f hg)]
      omega

/-- Without an insertion behind it, a byte that no edit takes away is followed by the next one. -/
theorem landing_succ (hOrder : InOrder es) (hp : offset ≤ p) (hFree : ∀ e ∈ es, ¬ e.Covers p)
    (hNone : ∀ e ∈ es, e.isReplace = false → e.start ≠ p + 1) :
    landing offset es (p + 1) = landing offset es p + 1 := by
  induction es generalizing offset with
  | nil =>
    rw [landing, landing]
    omega
  | cons e es ih =>
    have hnot := hFree e List.mem_cons_self
    have hfair := hOrder.fair e List.mem_cons_self
    have hle := hfair.start_le_stop
    rw [landing, landing]
    by_cases hover : e.stop ≤ p
    · rw [if_pos hover, if_pos (by omega), ih hOrder.tail hover
        (fun f hf => hFree f (List.mem_cons_of_mem e hf))
        fun f hf => hNone f (List.mem_cons_of_mem e hf)]
      omega
    · have hbefore : p < e.start := by
        rcases Nat.lt_or_ge p e.start with hlt | hge
        · exact hlt
        · exact absurd ⟨hge, by omega⟩ hnot
      have hahead : ¬ e.stop ≤ p + 1 := by
        intro hend
        by_cases hreplace : e.isReplace = true
        · have := hfair hreplace
          omega
        · exact hNone e List.mem_cons_self (by simpa using hreplace) (by omega)
      rw [if_neg hover, if_neg hahead]
      omega

/-- What is inserted behind a byte that no edit takes away comes between it and the next one. -/
theorem landing_add_le_of_insertion (hOrder : InOrder es) (hp : offset ≤ p)
    (hFree : ∀ e ∈ es, ¬ e.Covers p) {e : Edit} (he : e ∈ es) (hInsert : e.isReplace = false)
    (hStart : e.start = p + 1) :
    landing offset es p + 1 + Text.size e.text ≤ landing offset es (p + 1) := by
  have hstop := stop_eq_start hInsert
  induction es generalizing offset with
  | nil => exact absurd he (by simp)
  | cons f es ih =>
    have hnot := hFree f List.mem_cons_self
    rw [landing, landing]
    by_cases hover : f.stop ≤ p
    · have hmem : e ∈ es := by
        rcases List.mem_cons.1 he with rfl | hmem
        · omega
        · exact hmem
      have := ih hOrder.tail hover (fun g hg => hFree g (List.mem_cons_of_mem f hg)) hmem
      rw [if_pos hover, if_pos (by omega)]
      omega
    · have hbefore : p < f.start := by
        rcases Nat.lt_or_ge p f.start with hlt | hge
        · exact hlt
        · exact absurd ⟨hge, by omega⟩ hnot
      rcases List.mem_cons.1 he with rfl | hmem
      · rw [if_neg hover, if_pos (by omega)]
        omega
      · have := hOrder.stop_le hmem
        have hsize : Text.size e.text ≤ landing f.stop es (p + 1) :=
          size_text_le_landing hOrder.tail hmem (by omega)
        rw [if_neg hover, if_pos (by omega)]
        omega

/-- What an edit takes away goes where the edit starts. -/
theorem landing_of_covers (hOrder : InOrder es) {e : Edit} (he : e ∈ es) (hCovers : e.Covers p) :
    landing offset es p = landing offset es e.start := by
  obtain ⟨hle, hlt⟩ := hCovers
  induction es generalizing offset with
  | nil => exact absurd he (by simp)
  | cons f es ih =>
    rw [landing, landing]
    rcases List.mem_cons.1 he with rfl | hmem
    · rw [if_neg (by omega), if_neg (by omega)]
      omega
    · have := hOrder.stop_le hmem
      rw [if_pos (by omega), if_pos (by omega), ih hOrder.tail hmem]

theorem landing_zero (hNone : ∀ e ∈ es, e.stop ≠ 0) : landing 0 es 0 = 0 := by
  cases es with
  | nil => rfl
  | cons e es =>
    have := hNone e List.mem_cons_self
    rw [landing, if_neg (by omega)]
    omega

/-- How far one edit moves an offset: by its growth once it is over, and back to its start inside of
it. -/
def drift (p : Nat) (e : Edit) : Int :=
  if e.stop ≤ p then e.growth else if e.start ≤ p then (e.start : Int) - p else 0

def drifts (p : Nat) : List Edit → Int
  | [] => 0
  | e :: es => drift p e + drifts p es

theorem drifts_perm (p : Nat) (hPerm : es.Perm fs) : drifts p es = drifts p fs := by
  induction hPerm with
  | nil => rfl
  | cons e _ ih => rw [drifts, drifts, ih]
  | swap e f es =>
    simp only [drifts]
    omega
  | trans _ _ ih ih' => exact ih.trans ih'

theorem drifts_eq_zero (hZero : ∀ e ∈ es, drift p e = 0) : drifts p es = 0 := by
  induction es with
  | nil => rfl
  | cons e es ih =>
    rw [drifts, hZero e List.mem_cons_self, ih fun f hf => hZero f (List.mem_cons_of_mem e hf)]
    rfl

theorem landing_eq_drifts (hOrder : InOrder es) (hp : offset ≤ p)
    (hStart : ∀ e ∈ es, offset ≤ e.start) :
    ((offset + landing offset es p : Nat) : Int) = p + drifts p es := by
  induction es generalizing offset with
  | nil =>
    rw [landing, drifts]
    omega
  | cons e es ih =>
    have hstart := hStart e List.mem_cons_self
    have hfair := (hOrder.fair e List.mem_cons_self).start_le_stop
    rw [landing, drifts, drift]
    by_cases hover : e.stop ≤ p
    · have hrest := ih hOrder.tail hover fun f hf => hOrder.stop_le hf
      rw [if_pos hover, if_pos hover, growth_eq]
      omega
    · have hzero : ∀ f ∈ es, drift p f = 0 := by
        intro f hf
        have := hOrder.stop_le hf
        have := (hOrder.fair f (List.mem_cons_of_mem e hf)).start_le_stop
        rw [drift, if_neg (by omega), if_neg (by omega)]
      rw [if_neg hover, if_neg hover, drifts_eq_zero hzero]
      split <;> omega

/-- The landing depends on the edits and not on the order of insertions at one offset. -/
theorem landing_perm (hPerm : es.Perm fs) (hes : InOrder es) (hfs : InOrder fs) (p : Nat) :
    landing 0 es p = landing 0 fs p := by
  have he := landing_eq_drifts hes (Nat.zero_le p) fun e _ => Nat.zero_le e.start
  have hf := landing_eq_drifts hfs (Nat.zero_le p) fun e _ => Nat.zero_le e.start
  rw [drifts_perm p hPerm] at he
  omega

end Landing

end Edit

end BindBlocks
