import BindBlocks.Edit.Revision
import BindBlocks.Proofs.Weave
import Mathlib.Data.List.Sort

/-! Making the edits of a draft. The edits are made in one order and read in another, with different
rules for edits at one offset. If they are orderly, both orders run from left to right, so the text
of the revision is woven from the source, and the place of an offset in it is where the offset goes
in the weave. -/

namespace BindBlocks

namespace Edit

/-- Replacements take something away, no two of them overlap, and nothing is inserted inside one. -/
structure Orderly (edits : List Edit) : Prop where
  fair : ∀ e ∈ edits, e.Fair
  disjoint : edits.Pairwise fun e f =>
    e.isReplace = true → f.isReplace = true → e.stop ≤ f.start ∨ f.stop ≤ e.start
  clear : ∀ e ∈ edits, ∀ f ∈ edits, f.isReplace = false → ¬ (e.start < f.start ∧ f.start < e.stop)

instance (e : Edit) : Decidable e.Fair := inferInstanceAs (Decidable (_ → _))

instance (e : Edit) (offset : Nat) : Decidable (e.Covers offset) :=
  inferInstanceAs (Decidable (_ ∧ _))

instance (edits : List Edit) : Decidable (Orderly edits) :=
  decidable_of_iff
    ((∀ e ∈ edits, e.Fair) ∧
      (edits.Pairwise fun e f =>
        e.isReplace = true → f.isReplace = true → e.stop ≤ f.start ∨ f.stop ≤ e.start) ∧
      ∀ e ∈ edits, ∀ f ∈ edits, f.isReplace = false → ¬ (e.start < f.start ∧ f.start < e.stop))
    ⟨fun h => ⟨h.1, h.2.1, h.2.2⟩, fun h => ⟨h.fair, h.disjoint, h.clear⟩⟩

/-- By offset, and no insertion after a replacement at the same one. -/
def Sorted (es : List Edit) : Prop :=
  es.Pairwise fun e f =>
    e.start ≤ f.start ∧ (e.start = f.start → e.isReplace = true → f.isReplace = true)

theorem Orderly.inOrder {edits es : List Edit} (h : Orderly edits) (hPerm : es.Perm edits)
    (hSorted : Sorted es) : InOrder es := by
  have hdisjoint := (hPerm.pairwise_iff fun {e f} hef hf he => (hef he hf).symm).2 h.disjoint
  refine ⟨fun e he => h.fair e (hPerm.mem_iff.1 he), ?_⟩
  apply (hSorted.and hdisjoint).imp_of_mem
  rintro e f he hf ⟨⟨hle, htie⟩, hpair⟩
  have hclear := h.clear e (hPerm.mem_iff.1 he) f (hPerm.mem_iff.1 hf)
  by_cases hereplace : e.isReplace = true
  · by_cases hfreplace : f.isReplace = true
    · have hfair := h.fair f (hPerm.mem_iff.1 hf) hfreplace
      rcases hpair hereplace hfreplace with hstop | hstop <;> omega
    · have hne : e.start ≠ f.start := fun heq => hfreplace (htie heq hereplace)
      have := hclear (by simpa using hfreplace)
      omega
  · rw [stop_eq_start (by simpa using hereplace)]
    exact hle

end Edit

namespace Draft

open Edit

/-- A stable sort keeps the elements of a class in their order if none of them has to stand in front
of another one. -/
theorem filter_mergeSort {le : Edit → Edit → Bool}
    (hTrans : ∀ a b c, le a b = true → le b c = true → le a c = true)
    (hTotal : ∀ a b, (le a b || le b a) = true) {p : Edit → Bool}
    (hTies : ∀ e f, p e = true → p f = true → le e f = true) (l : List Edit) :
    (l.mergeSort le).filter p = l.filter p := by
  have hties : (l.filter p).Pairwise fun e f => le e f = true := by
    apply List.pairwise_of_forall_mem_list
    intro e he f hf
    exact hTies e f (List.mem_filter.1 he).2 (List.mem_filter.1 hf).2
  have hsub := (List.sublist_mergeSort hTrans hTotal hties List.filter_sublist).filter p
  rw [List.filter_filter] at hsub
  simp only [Bool.and_self] at hsub
  exact (hsub.eq_of_length ((List.mergeSort_perm l le).filter p).length_eq.symm).symm

section Falling

variable (key : Edit → Nat)

theorem falling_trans (a b c : Edit) (hab : decide (key b ≤ key a) = true)
    (hbc : decide (key c ≤ key b) = true) : decide (key c ≤ key a) = true := by
  simp only [decide_eq_true_eq] at hab hbc ⊢
  omega

theorem falling_total (a b : Edit) : (decide (key b ≤ key a) || decide (key a ≤ key b)) = true := by
  simp only [Bool.or_eq_true, decide_eq_true_eq]
  omega

/-- A stable sort by a falling key keeps the elements of one key in their order. -/
theorem filter_mergeSort_key (l : List Edit) (n : Nat) :
    (l.mergeSort fun e f => key f ≤ key e).filter (key · == n) = l.filter (key · == n) := by
  refine filter_mergeSort (falling_trans key) (falling_total key) (fun e f he hf => ?_) l
  simp only [beq_iff_eq] at he hf
  exact decide_eq_true (by omega)

end Falling

theorem makingOrder_perm (edits : List Edit) : (makingOrder edits).Perm edits := by
  apply (List.mergeSort_perm _ _).trans
  have hrest : (edits.filter fun e => !e.isReplace).Perm
      (edits.filter isInsertRight ++ edits.filter isInsertLeft) := by
    have hsplit := List.filter_append_perm isInsertRight (edits.filter fun e => !e.isReplace)
    rw [List.filter_filter, List.filter_filter] at hsplit
    have hright : ∀ e ∈ edits, (e.isInsertRight && !e.isReplace) = e.isInsertRight := by
      intro e _
      cases e <;> rfl
    have hleft : ∀ e ∈ edits, (!e.isInsertRight && !e.isReplace) = e.isInsertLeft := by
      intro e _
      cases e <;> rfl
    rw [List.filter_congr hright, List.filter_congr hleft] at hsplit
    exact hsplit.symm
  have hreverse := ((edits.filter isInsertRight).reverse_perm.append_right
    (edits.filter isInsertLeft)).trans hrest.symm
  rw [List.append_assoc]
  exact (hreverse.append_left _).trans (List.filter_append_perm isReplace edits)

theorem isReplace_of_insertion {edits : List Edit} {e : Edit}
    (h : e ∈ (edits.filter isInsertRight).reverse ++ edits.filter isInsertLeft) :
    e.isReplace = false := by
  simp only [List.mem_append, List.mem_reverse, List.mem_filter] at h
  cases e <;> simp_all [isReplace, isInsertRight, isInsertLeft]

/-- Before they are sorted, the edits have no insertion in front of a replacement. -/
theorem replacements_first (edits : List Edit) :
    (edits.filter isReplace ++ (edits.filter isInsertRight).reverse ++
      edits.filter isInsertLeft).Pairwise fun f e => e.isReplace = true → f.isReplace = true := by
  rw [List.append_assoc, List.pairwise_append]
  refine ⟨?_, ?_, fun f hf _ _ _ => (List.mem_filter.1 hf).2⟩
  · apply List.pairwise_of_forall_mem_list
    intro f hf e _ _
    exact (List.mem_filter.1 hf).2
  · apply List.pairwise_of_forall_mem_list
    intro f _ e he heReplace
    rw [isReplace_of_insertion he] at heReplace
    exact absurd heReplace (by simp)

theorem makingOrder_reverse_sorted (edits : List Edit) : Sorted (makingOrder edits).reverse := by
  have hfalling : (makingOrder edits).Pairwise fun e f => decide (f.start ≤ e.start) = true :=
    List.pairwise_mergeSort (falling_trans start) (falling_total start) _
  rw [Sorted, List.pairwise_reverse, List.pairwise_iff_forall_sublist]
  intro f e hpair
  refine ⟨of_decide_eq_true (List.pairwise_iff_forall_sublist.1 hfalling hpair), fun htie => ?_⟩
  have hfilter := hpair.filter (·.start == f.start)
  rw [makingOrder, filter_mergeSort_key] at hfilter
  simp only [List.filter_cons, htie, beq_self_eq_true, if_true, List.filter_nil] at hfilter
  exact List.pairwise_iff_forall_sublist.1 (replacements_first edits)
    (hfilter.trans List.filter_sublist)

theorem readingOrder_perm (edits : List Edit) : (readingOrder edits).Perm edits :=
  List.mergeSort_perm _ _

section Reading

/-- Whether an edit may be read before another one. -/
def readsBefore (e f : Edit) : Bool :=
  e.start < f.start || (e.start == f.start && (!e.isReplace || f.isReplace))

theorem readingOrder_eq (edits : List Edit) :
    readingOrder edits = edits.mergeSort readsBefore := rfl

theorem readsBefore_iff (e f : Edit) : readsBefore e f = true ↔
    e.start ≤ f.start ∧ (e.start = f.start → e.isReplace = true → f.isReplace = true) := by
  rw [readsBefore]
  cases e.isReplace <;> cases f.isReplace <;> simp <;> omega

theorem readsBefore_trans (a b c : Edit) (hab : readsBefore a b = true)
    (hbc : readsBefore b c = true) : readsBefore a c = true := by
  rw [readsBefore_iff] at hab hbc ⊢
  exact ⟨by omega, fun heq ha => hbc.2 (by omega) (hab.2 (by omega) ha)⟩

theorem readsBefore_total (a b : Edit) : (readsBefore a b || readsBefore b a) = true := by
  rw [Bool.or_eq_true, readsBefore_iff, readsBefore_iff]
  cases a.isReplace <;> cases b.isReplace <;> simp <;> omega

theorem readingOrder_sorted (edits : List Edit) : Sorted (readingOrder edits) := by
  rw [readingOrder_eq]
  exact (List.pairwise_mergeSort readsBefore_trans readsBefore_total edits).imp
    fun {e f} => (readsBefore_iff e f).1

/-- Replacements at one offset are read in the order in which they were given. -/
theorem filter_readingOrder (edits : List Edit) (p : Nat) :
    ((readingOrder edits).filter fun e => e.isReplace && e.start == p) =
      edits.filter fun e => e.isReplace && e.start == p := by
  rw [readingOrder_eq]
  refine filter_mergeSort readsBefore_trans readsBefore_total (fun e f he hf => ?_) edits
  simp only [Bool.and_eq_true, beq_iff_eq] at he hf
  exact (readsBefore_iff e f).2 ⟨by omega, fun _ _ => hf.1⟩

end Reading

theorem pushAll_eq (d : Draft) (edits : List Edit) :
    d.pushAll edits = ⟨d.source, d.edits ++ edits.map (clamp d.source)⟩ := by
  induction edits generalizing d with
  | nil => simp [pushAll]
  | cons e edits ih =>
    rw [pushAll, List.foldl_cons, ← pushAll, ih]
    simp [push]

theorem clamp_ends (t : Text) (e : Edit) :
    (∃ front back, t = front ++ back ∧ (e.clamp t).start = Text.size front) ∧
      ∃ front back, t = front ++ back ∧ (e.clamp t).stop = Text.size front := by
  cases e with
  | replace span text =>
    obtain ⟨front, back, hsplit, hsize⟩ := Text.floor_boundary span.start t
    obtain ⟨front', back', hsplit', hsize'⟩ := Text.floor_boundary span.stop t
    refine ⟨⟨front, back, hsplit, hsize.symm⟩, ?_⟩
    rcases Nat.le_total (Text.floor span.start t) (Text.floor span.stop t) with hle | hle
    · exact ⟨front', back', hsplit', by simp [clamp, stop, hsize', Nat.max_eq_left hle]⟩
    · exact ⟨front, back, hsplit, by simp [clamp, stop, hsize, Nat.max_eq_right hle]⟩
  | insertLeft offset text | insertRight offset text =>
    obtain ⟨front, back, hsplit, hsize⟩ := Text.floor_boundary offset t
    exact ⟨⟨front, back, hsplit, hsize.symm⟩, ⟨front, back, hsplit, hsize.symm⟩⟩

theorem commit_of_woven {d : Draft} {result : Text}
    (h : Woven 0 (makingOrder d.edits).reverse d.source result) :
    d.commit = .ok ⟨d.source, result, readingOrder d.edits⟩ := by
  have hmake := h.foldlM_reverse [] rfl
  rw [List.reverse_reverse, List.nil_append, List.nil_append] at hmake
  rw [commit, hmake]
  rfl

end Draft

/-- Both orders of reading it are from left to right: the text of the revision is woven from its
source by the edits `es`. -/
structure Revision.IsWeave (r : Revision) (es : List Edit) : Prop where
  woven : Edit.Woven 0 es r.source r.text
  perm : es.Perm r.edits
  inOrder : Edit.InOrder r.edits

namespace Draft

open Edit

/-- Orderly edits can be made, and the result is woven by them in the order opposite to that of
making them. -/
theorem commit_woven {source : Text} {edits : List Edit}
    (h : Orderly (edits.map (clamp source))) :
    ∃ r, ((ofText source).pushAll edits).commit = .ok r ∧ r.source = source ∧
      r.IsWeave (makingOrder (edits.map (clamp source))).reverse := by
  have hmaking := (List.reverse_perm _).trans (makingOrder_perm (edits.map (clamp source)))
  have hreading := readingOrder_perm (edits.map (clamp source))
  have horder := h.inOrder hmaking (makingOrder_reverse_sorted _)
  obtain ⟨result, hwoven⟩ : ∃ result,
      Woven 0 (makingOrder (edits.map (clamp source))).reverse source result := by
    refine Woven.exists_of_inOrder horder (fun e _ => Nat.zero_le e.start) fun e he => ?_
    obtain ⟨e, -, rfl⟩ := List.mem_map.1 (hmaking.mem_iff.1 he)
    simpa only [Nat.zero_add] using clamp_ends source e
  refine ⟨⟨source, result, readingOrder (edits.map (clamp source))⟩, ?_, rfl, hwoven,
    hmaking.trans hreading.symm, h.inOrder hreading (readingOrder_sorted _)⟩
  rw [pushAll_eq]
  exact commit_of_woven hwoven

/-- Orderly edits can be made, and the result is a weave. -/
theorem commit_orderly {source : Text} {edits : List Edit}
    (h : Orderly (edits.map (clamp source))) :
    ∃ r es, ((ofText source).pushAll edits).commit = .ok r ∧ r.source = source ∧
      es.Perm (edits.map (clamp source)) ∧ r.IsWeave es := by
  obtain ⟨r, hcommit, hsource, hweave⟩ := commit_woven h
  exact ⟨r, _, hcommit, hsource, (List.reverse_perm _).trans (makingOrder_perm _), hweave⟩

/-- The text becomes longer by what the edits add. -/
theorem size_commit {source : Text} {edits : List Edit} {r : Revision}
    (hOrderly : Orderly (edits.map (clamp source)))
    (hCommit : ((ofText source).pushAll edits).commit = .ok r) :
    (Text.size r.text : Int) =
      Text.size source + drifts (Text.size source) (edits.map (clamp source)) := by
  obtain ⟨r', es, hcommit, rfl, hperm, h⟩ := commit_orderly hOrderly
  obtain rfl := Except.ok.inj (hCommit.symm.trans hcommit)
  have hend := h.woven.landing_end
  have hdrifts := landing_eq_drifts h.woven.inOrder (Nat.zero_le (Text.size r.source))
    fun e _ => Nat.zero_le e.start
  rw [drifts_perm _ hperm] at hdrifts
  rw [Nat.zero_add] at hend hdrifts
  omega

/-- Edits at rising offsets are made as they are woven, whatever order they are given in. -/
theorem commit_rising {d : Draft} {es : List Edit} {result : Text}
    (hWoven : Woven 0 es d.source result) (hPerm : es.Perm d.edits)
    (hRising : es.Pairwise fun e f => e.start < f.start) :
    d.commit = .ok ⟨d.source, result, readingOrder d.edits⟩ ∧
      Revision.IsWeave ⟨d.source, result, readingOrder d.edits⟩ es := by
  have hsorted : ∀ fs : List Edit, fs.Perm d.edits → Sorted fs → fs = es := by
    intro fs hfs hSorted
    have hstarts : fs.Pairwise fun e f => e.start ≤ f.start := hSorted.imp And.left
    have hstarts' : es.Pairwise fun e f => e.start ≤ f.start := hRising.imp Nat.le_of_lt
    refine List.Perm.eq_of_pairwise ?_ hstarts hstarts' (hfs.trans hPerm.symm)
    intro e f he hf hef hfe
    exact eq_of_start_eq hRising ((hfs.trans hPerm.symm).mem_iff.1 he) hf (Nat.le_antisymm hef hfe)
  have hmaking := hsorted _ ((List.reverse_perm _).trans (makingOrder_perm d.edits))
    (makingOrder_reverse_sorted _)
  have hreading := hsorted _ (readingOrder_perm d.edits) (readingOrder_sorted _)
  refine ⟨commit_of_woven (hmaking ▸ hWoven), hWoven, ?_, ?_⟩
  · exact hPerm.trans (readingOrder_perm d.edits).symm
  · exact hreading ▸ hWoven.inOrder

/-- Edits between boundaries are taken as they are. -/
theorem clamp_eq_self {t : Text} {e : Edit} (hFair : e.Fair)
    (hStart : ∃ front back, t = front ++ back ∧ e.start = Text.size front)
    (hStop : ∃ front back, t = front ++ back ∧ e.stop = Text.size front) : e.clamp t = e := by
  have hle := hFair.start_le_stop
  obtain ⟨front, back, hsplit, hstart⟩ := hStart
  obtain ⟨front', back', hsplit', hstop⟩ := hStop
  have hfloor : Text.floor e.start t = e.start := by
    rw [hstart, hsplit]
    exact Text.floor_size_append front back
  have hfloor' : Text.floor e.stop t = e.stop := by
    rw [hstop, hsplit']
    exact Text.floor_size_append front' back'
  cases e with
  | replace span text =>
    simp only [start, stop] at hfloor hfloor' hle
    rw [clamp, hfloor, hfloor', Nat.max_eq_left hle]
  | insertLeft offset text | insertRight offset text =>
    simp only [start] at hfloor
    rw [clamp, hfloor]

/-- Spaced edits can be made, whatever order they are given in. -/
theorem commit_spaced {source result : Text} {edits es : List Edit}
    (h : Spaced 0 es source result) (hPerm : es.Perm edits) :
    ∃ r, ((ofText source).pushAll edits).commit = .ok r ∧ r.source = source ∧ r.text = result ∧
      r.IsWeave es := by
  have hclamp : edits.map (clamp source) = edits := by
    rw [List.map_congr_left (g := id), List.map_id]
    intro e he
    have hes := hPerm.mem_iff.2 he
    have hends := h.woven.ends e hes
    simp only [Nat.zero_add] at hends
    exact clamp_eq_self (h.woven.inOrder.fair e hes) hends.1 hends.2
  have hedits : (ofText source).pushAll edits = ⟨source, edits⟩ := by
    rw [pushAll_eq]
    simp only [ofText, hclamp, List.nil_append]
  rw [hedits]
  obtain ⟨hcommit, hweave⟩ :=
    commit_rising (d := ⟨source, edits⟩) h.woven hPerm h.rising
  exact ⟨_, hcommit, rfl, rfl, hweave⟩

end Draft

/-- The edits that are over move an offset by their growth, one that is not over holds it back. -/
theorem Drift.place_passing {es : List Edit} {offset p : Nat} (growth : Int)
    (hOrder : Edit.InOrder es) (hp : offset ≤ p) (hStart : ∀ e ∈ es, offset ≤ e.start) :
    (passing p growth es).place p =
      Offset.wrap (growth + offset + Edit.landing offset es p).toNat := by
  induction es generalizing offset growth with
  | nil =>
    simp only [passing, place, Edit.landing]
    congr 2
    omega
  | cons e es ih =>
    have hfair := hOrder.fair e List.mem_cons_self
    have hle := hfair.start_le_stop
    have hstart := hStart e List.mem_cons_self
    rw [passing, Edit.landing]
    by_cases hover : e.stop ≤ p
    · rw [if_pos ((hfair.isOver_iff p).2 hover), if_pos hover,
        ih _ hOrder.tail hover fun f hf => hOrder.stop_le hf, Edit.growth_eq]
      congr 2
      omega
    · rw [if_neg (mt (hfair.isOver_iff p).1 hover), if_neg hover]
      cases e with
      | replace span text =>
        simp only [Edit.stop, Edit.start] at hover hstart hle ⊢
        simp only [place, Span.contains, Bool.and_eq_true, decide_eq_true_eq]
        split <;> · congr 2; omega
      | insertLeft o text | insertRight o text =>
        simp only [Edit.stop, Edit.start] at hover hstart ⊢
        simp only [place]
        congr 2
        omega

namespace Revision

variable {r : Revision} {es : List Edit} {p q : Nat}

theorem IsWeave.landing_le (h : r.IsWeave es) (hp : p ≤ Text.size r.source) :
    Edit.landing 0 es p ≤ Text.size r.text := by
  have hend := h.woven.landing_end
  rw [Nat.zero_add] at hend
  rw [← hend]
  exact Edit.landing_mono 0 h.woven.inOrder hp

theorem IsWeave.place_eq (h : r.IsWeave es) (hFits : Text.size r.text < Offset.bound)
    (hp : p ≤ Text.size r.source) : r.place p = Edit.landing 0 es p := by
  have hlanding := h.landing_le hp
  rw [place, Drift.advance, drift, Drift.place_passing 0 h.inOrder (Nat.zero_le p)
    (fun e _ => Nat.zero_le e.start), ← Edit.landing_perm h.perm h.woven.inOrder h.inOrder p]
  simp only [Int.natCast_zero, Int.add_zero, Int.zero_add, Int.toNat_natCast]
  exact Offset.wrap_of_lt (by omega)

theorem IsWeave.place_mono (h : r.IsWeave es) (hFits : Text.size r.text < Offset.bound)
    (hq : q ≤ Text.size r.source) (hle : p ≤ q) : r.place p ≤ r.place q := by
  rw [h.place_eq hFits (Nat.le_trans hle hq), h.place_eq hFits hq]
  exact Edit.landing_mono 0 h.woven.inOrder hle

theorem IsWeave.place_le (h : r.IsWeave es) (hFits : Text.size r.text < Offset.bound)
    (hp : p ≤ Text.size r.source) : r.place p ≤ Text.size r.text := by
  rw [h.place_eq hFits hp]
  exact h.landing_le hp

theorem IsWeave.place_of_covers (h : r.IsWeave es) (hFits : Text.size r.text < Offset.bound)
    {e : Edit} (he : e ∈ es) (hCovers : e.Covers p) (hp : p ≤ Text.size r.source) :
    r.place p = r.place e.start := by
  rw [h.place_eq hFits hp, h.place_eq hFits (Nat.le_trans hCovers.1 hp)]
  exact Edit.landing_of_covers h.woven.inOrder he hCovers

theorem IsWeave.place_size (h : r.IsWeave es) (hFits : Text.size r.text < Offset.bound) :
    r.place (Text.size r.source) = Text.size r.text := by
  have hend := h.woven.landing_end
  rw [Nat.zero_add] at hend
  rw [h.place_eq hFits (Nat.le_refl _), hend]

end Revision

end BindBlocks
