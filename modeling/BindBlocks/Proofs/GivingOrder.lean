import BindBlocks.Proofs.Anchors
import BindBlocks.Proofs.Splicing

/-! The order in which the edits of a draft are given. It counts only among edits of one kind at one
offset. The order of making the edits sorts all others apart, so it is the same list of edits; the
order of reading them leaves insertions at one offset as they were given, on both sides of the
offset, but a place passes all of them or none. -/

namespace BindBlocks

namespace Edit

/-- Whether two edits are both replacements, both insertions to the left, or both to the right. -/
def sameKind : Edit → Edit → Bool
  | replace .., replace .. => true
  | insertLeft .., insertLeft .. => true
  | insertRight .., insertRight .. => true
  | _, _ => false

/-- Whether two edits of a text are of one kind and start at one offset of it. -/
def vies (source : Text) (e f : Edit) : Bool :=
  e.sameKind f && (e.clamp source).start == (f.clamp source).start

/-- The same edits of a text in another order, with those of one kind at one offset in the same
order. -/
structure Rearranged (source : Text) (es fs : List Edit) : Prop where
  perm : es.Perm fs
  kept : ∀ e ∈ es, es.filter (e.vies source) = fs.filter (e.vies source)

/-- The kinds of edits. -/
def kinds : List (Edit → Bool) := [isReplace, isInsertLeft, isInsertRight]

@[simp]
theorem isReplace_clamp (t : Text) (e : Edit) : (e.clamp t).isReplace = e.isReplace := by
  cases e <;> rfl

@[simp]
theorem isInsertLeft_clamp (t : Text) (e : Edit) : (e.clamp t).isInsertLeft = e.isInsertLeft := by
  cases e <;> rfl

@[simp]
theorem isInsertRight_clamp (t : Text) (e : Edit) :
    (e.clamp t).isInsertRight = e.isInsertRight := by
  cases e <;> rfl

theorem kind_clamp {kind : Edit → Bool} (h : kind ∈ kinds) (t : Text) (e : Edit) :
    kind (e.clamp t) = kind e := by
  simp only [kinds, List.mem_cons, List.not_mem_nil, or_false] at h
  rcases h with rfl | rfl | rfl <;> simp

theorem sameKind_eq {kind : Edit → Bool} (h : kind ∈ kinds) {e : Edit} (he : kind e = true)
    (f : Edit) : e.sameKind f = kind f := by
  simp only [kinds, List.mem_cons, List.not_mem_nil, or_false] at h
  rcases h with rfl | rfl | rfl <;> cases e <;> cases f <;>
    simp_all [isReplace, isInsertLeft, isInsertRight, sameKind]

/-- The edits of one kind at one offset are the same list. -/
theorem Rearranged.filter_eq {source : Text} {es fs : List Edit} (h : Rearranged source es fs)
    (kind : Edit → Bool) (hKind : kind ∈ kinds) (p : Nat) :
    ((es.map (clamp source)).filter fun e => kind e && e.start == p) =
      (fs.map (clamp source)).filter fun e => kind e && e.start == p := by
  simp only [List.filter_map, Function.comp_def, kind_clamp hKind]
  congr 1
  by_cases hfirst : ∃ e ∈ es, kind e = true ∧ (e.clamp source).start = p
  · obtain ⟨e, he, hkind, rfl⟩ := hfirst
    have hvies : ∀ f : Edit, (kind f && (f.clamp source).start == (e.clamp source).start) =
        e.vies source f := by
      intro f
      rw [vies, sameKind_eq hKind hkind, BEq.comm]
    simp only [hvies]
    exact h.kept e he
  · have hnone : ∀ gs : List Edit, gs.Perm es →
        (gs.filter fun e => kind e && (e.clamp source).start == p) = [] := by
      intro gs hgs
      rw [List.filter_eq_nil_iff]
      intro e he hpair
      simp only [Bool.and_eq_true, beq_iff_eq] at hpair
      exact hfirst ⟨e, hgs.mem_iff.1 he, hpair⟩
    rw [hnone es (.refl es), hnone fs h.perm.symm]

theorem mem_of_startingAt {es fs : List Edit} {e : Edit}
    (h : ∀ p, startingAt es p = startingAt fs p) (he : e ∈ es) : e ∈ fs := by
  have hmem : e ∈ startingAt es e.start := List.mem_filter.2 ⟨he, by simp⟩
  rw [h] at hmem
  exact (List.mem_filter.1 hmem).1

/-- The first of some edits at falling offsets starts at the greatest one. -/
theorem start_le_first {e f : Edit} {es fs : List Edit}
    (hes : (e :: es).Pairwise fun e f => f.start ≤ e.start)
    (h : ∀ p, startingAt (f :: fs) p = startingAt (e :: es) p) : f.start ≤ e.start := by
  rcases List.mem_cons.1 (mem_of_startingAt h List.mem_cons_self) with rfl | hf
  · exact Nat.le_refl _
  · exact List.rel_of_pairwise_cons hes hf

/-- Edits at falling offsets are determined by those at each offset. -/
theorem eq_of_startingAt {es fs : List Edit} (hes : es.Pairwise fun e f => f.start ≤ e.start)
    (hfs : fs.Pairwise fun e f => f.start ≤ e.start)
    (h : ∀ p, startingAt es p = startingAt fs p) : es = fs := by
  induction es generalizing fs with
  | nil =>
    refine (List.eq_nil_iff_forall_not_mem.2 fun f hf => ?_).symm
    exact absurd (mem_of_startingAt (fun p => (h p).symm) hf) (by simp)
  | cons e es ih =>
    cases fs with
    | nil => exact absurd (mem_of_startingAt h (List.mem_cons_self (a := e))) (by simp)
    | cons f fs =>
      have hstart : f.start = e.start :=
        Nat.le_antisymm (start_le_first hes fun p => (h p).symm) (start_le_first hfs h)
      have hhead := h e.start
      rw [startingAt_cons_self, ← hstart, startingAt_cons_self] at hhead
      obtain ⟨rfl, htail⟩ := List.cons.inj hhead
      congr 1
      refine ih hes.tail hfs.tail fun p => ?_
      by_cases hp : e.start = p
      · rw [← hp, htail]
      · have hrest := h p
        rwa [startingAt_cons_of_ne hp, startingAt_cons_of_ne hp] at hrest

/-- The same edits in the same order, but for insertions side by side at one offset. -/
inductive Shuffled : List Edit → List Edit → Prop
  | nil : Shuffled [] []
  | cons (e : Edit) {es fs : List Edit} : Shuffled es fs → Shuffled (e :: es) (e :: fs)
  | swap {e f : Edit} (es : List Edit) : e.isReplace = false → f.isReplace = false →
    e.start = f.start → Shuffled (e :: f :: es) (f :: e :: es)
  | trans {es fs gs : List Edit} : Shuffled es fs → Shuffled fs gs → Shuffled es gs

namespace Shuffled

theorem refl (es : List Edit) : Shuffled es es := by
  induction es with
  | nil => exact .nil
  | cons e es ih => exact .cons e ih

/-- An insertion can go behind others at its offset. -/
theorem move {e : Edit} {front : List Edit} (back : List Edit) (he : e.isReplace = false)
    (hFront : ∀ f ∈ front, f.isReplace = false ∧ f.start = e.start) :
    Shuffled (e :: (front ++ back)) (front ++ e :: back) := by
  induction front with
  | nil => exact refl _
  | cons f front ih =>
    obtain ⟨hf, hstart⟩ := hFront f List.mem_cons_self
    have hrest := ih fun g hg => hFront g (List.mem_cons_of_mem f hg)
    exact (swap (front ++ back) he hf hstart.symm).trans (.cons f hrest)

end Shuffled

/-- Edits that are read in order, with the same replacements at each offset in the same order, are
the same but for insertions side by side. -/
theorem Sorted.shuffled {es fs : List Edit} (hes : Sorted es) (hfs : Sorted fs)
    (hPerm : es.Perm fs)
    (hKept : ∀ p, (es.filter fun e => e.isReplace && e.start == p) =
      fs.filter fun e => e.isReplace && e.start == p) : Shuffled es fs := by
  induction es generalizing fs with
  | nil =>
    rw [List.nil_perm.1 hPerm]
    exact .nil
  | cons e es ih =>
    obtain ⟨front, back, rfl, hnot⟩ :=
      List.eq_append_cons_of_mem (hPerm.mem_iff.1 List.mem_cons_self)
    have htail : es.Perm (front ++ back) :=
      List.Perm.cons_inv (hPerm.trans List.perm_middle)
    have hsorted : Sorted (front ++ back) :=
      hfs.sublist ((List.sublist_cons_self e back).append_left front)
    have htied : ∀ f ∈ front, f.isReplace = e.isReplace ∧ f.start = e.start := by
      intro f hf
      have hef := List.rel_of_pairwise_cons hes
        (htail.mem_iff.2 (List.mem_append_left back hf))
      have hfe := (List.pairwise_append.1 hfs).2.2 f hf e List.mem_cons_self
      have hstart : f.start = e.start := Nat.le_antisymm hfe.1 hef.1
      exact ⟨Bool.eq_iff_iff.2 ⟨hfe.2 hstart, hef.2 hstart.symm⟩, hstart⟩
    by_cases hreplace : e.isReplace = true
    · have hnil : front = [] := by
        cases front with
        | nil => rfl
        | cons f front =>
          obtain ⟨hf, hstart⟩ := htied f List.mem_cons_self
          have hhead := hKept e.start
          rw [List.cons_append, List.filter_cons_of_pos (by simp [hreplace]),
            List.filter_cons_of_pos (by simp [hf, hreplace, hstart])] at hhead
          rw [(List.cons.inj hhead).1] at hnot
          exact absurd List.mem_cons_self hnot
      subst hnil
      refine .cons e (ih hes.tail hsorted htail fun p => ?_)
      have hfilter := hKept p
      simp only [List.nil_append, List.filter_cons] at hfilter ⊢
      split at hfilter
      · exact (List.cons.inj hfilter).2
      · exact hfilter
    · have hinsert : e.isReplace = false := by simpa using hreplace
      have hkept : ∀ p, (es.filter fun e => e.isReplace && e.start == p) =
          (front ++ back).filter fun e => e.isReplace && e.start == p := by
        intro p
        have hfilter := hKept p
        rw [List.filter_cons_of_neg (by simp [hinsert]), List.filter_append,
          List.filter_cons_of_neg (by simp [hinsert]), ← List.filter_append] at hfilter
        exact hfilter
      refine (Shuffled.cons e (ih hes.tail hsorted htail hkept)).trans ?_
      exact .move back hinsert fun f hf => ⟨(htied f hf).1.trans hinsert, (htied f hf).2⟩

/-- An insertion is over at its offset. -/
theorem isOver_of_insertion {e : Edit} (h : e.isReplace = false) (offset : Nat) :
    e.isOver offset = decide (e.start ≤ offset) := by
  cases e with
  | replace => exact absurd h (by simp [isReplace])
  | insertLeft | insertRight => rfl

end Edit

namespace Drift

open Edit

/-- An insertion ahead does not hold a place back. -/
theorem place_of_insertion {e : Edit} (h : e.isReplace = false) (es : List Edit) (growth : Int)
    (offset : Nat) : place ⟨e :: es, growth⟩ offset = Offset.wrap (offset + growth).toNat := by
  cases e with
  | replace => exact absurd h (by simp [isReplace])
  | insertLeft | insertRight => rfl

/-- A place does not depend on the order of insertions side by side. -/
theorem place_passing_of_shuffled {es fs : List Edit} (h : Shuffled es fs) (offset : Nat)
    (growth : Int) :
    (passing offset growth es).place offset = (passing offset growth fs).place offset := by
  induction h generalizing growth with
  | nil => rfl
  | cons e h ih =>
    rw [passing, passing]
    split
    · exact ih _
    · cases e <;> rfl
  | @swap e f es he hf hstart =>
    simp only [passing, isOver_of_insertion he, isOver_of_insertion hf, hstart]
    split
    · rw [Int.add_right_comm]
    · rw [place_of_insertion he, place_of_insertion hf]
  | trans _ _ ih ih' => rw [ih, ih']

end Drift

/-- Two revisions that cannot be told apart by their texts, by the places of offsets or by their
tables and maps. -/
structure Revision.Alike (r s : Revision) : Prop where
  source : r.source = s.source
  text : r.text = s.text
  place : ∀ offset, r.place offset = s.place offset
  table : r.table = s.table
  document : ∀ header, r.document header = s.document header

theorem Revision.alike_of_shuffled (source text : Text) {es fs : List Edit}
    (h : Edit.Shuffled es fs) : Alike ⟨source, text, es⟩ ⟨source, text, fs⟩ := by
  have hplace : ∀ offset, place ⟨source, text, es⟩ offset = place ⟨source, text, fs⟩ offset :=
    fun offset => Drift.place_passing_of_shuffled h offset 0
  have htable : table ⟨source, text, es⟩ = table ⟨source, text, fs⟩ := by
    rw [table_eq, table_eq]
    exact List.map_congr_left fun o _ => by rw [mappingAt, mappingAt, hplace]
  exact ⟨rfl, rfl, hplace, htable, fun header => by rw [document, document, htable]⟩

namespace Draft

open Edit

variable {source : Text} {es fs : List Edit}

/-- The edits are made in the same order. -/
theorem makingOrder_of_rearranged (h : Rearranged source es fs) :
    makingOrder (es.map (clamp source)) = makingOrder (fs.map (clamp source)) := by
  have hfalling : ∀ gs : List Edit, (makingOrder gs).Pairwise fun e f => f.start ≤ e.start :=
    fun gs => (List.pairwise_reverse.1 (makingOrder_reverse_sorted gs)).imp And.left
  refine eq_of_startingAt (hfalling _) (hfalling _) fun p => ?_
  rw [startingAt_makingOrder, startingAt_makingOrder,
    h.filter_eq isReplace (by simp [kinds]), h.filter_eq isInsertRight (by simp [kinds]),
    h.filter_eq isInsertLeft (by simp [kinds])]

theorem readingOrder_of_rearranged (h : Rearranged source es fs) :
    Shuffled (readingOrder (es.map (clamp source))) (readingOrder (fs.map (clamp source))) := by
  have hperm := (readingOrder_perm (es.map (clamp source))).trans
    ((h.perm.map (clamp source)).trans (readingOrder_perm (fs.map (clamp source))).symm)
  refine (readingOrder_sorted _).shuffled (readingOrder_sorted _) hperm fun p => ?_
  rw [filter_readingOrder, filter_readingOrder, h.filter_eq isReplace (by simp [kinds])]

/-- The order of giving edits makes no difference but among those of one kind at one offset: either
way they are refused for the same fault, or both ways they can be made and the revisions cannot be
told apart. -/
theorem commit_of_rearranged (source : Text) (es fs : List Edit) (h : Rearranged source es fs) :
    (∃ fault, ((ofText source).pushAll es).commit = .error fault ∧
      ((ofText source).pushAll fs).commit = .error fault) ∨
    ∃ r s, ((ofText source).pushAll es).commit = .ok r ∧
      ((ofText source).pushAll fs).commit = .ok s ∧ r.Alike s := by
  have hcommit : ∀ gs : List Edit, ((ofText source).pushAll gs).commit =
      ((makingOrder (gs.map (clamp source))).foldlM Edit.apply source).map fun text =>
        ⟨source, text, readingOrder (gs.map (clamp source))⟩ := by
    intro gs
    rw [pushAll_eq]
    rfl
  rw [hcommit, hcommit, makingOrder_of_rearranged h]
  cases (makingOrder (fs.map (clamp source))).foldlM Edit.apply source with
  | error fault => exact .inl ⟨fault, rfl, rfl⟩
  | ok text =>
    exact .inr ⟨_, _, rfl, rfl,
      Revision.alike_of_shuffled source text (readingOrder_of_rearranged h)⟩

/-- Two replacements overlap, and the insertions on the two sides of one offset change places. -/
theorem commit_of_rearranged_overlapping :
    Rearranged ['a', 'é', 'd']
      [.replace ⟨1, 4⟩ ['X'], .insertRight 2 ['r'], .insertLeft 1 ['l'], .replace ⟨0, 3⟩ ['Y']]
      [.replace ⟨0, 3⟩ ['Y'], .insertLeft 1 ['l'], .insertRight 2 ['r'], .replace ⟨1, 4⟩ ['X']] ∧
    ∃ r s, ((ofText ['a', 'é', 'd']).pushAll
        [.replace ⟨1, 4⟩ ['X'], .insertRight 2 ['r'], .insertLeft 1 ['l'],
          .replace ⟨0, 3⟩ ['Y']]).commit = .ok r ∧
      ((ofText ['a', 'é', 'd']).pushAll
        [.replace ⟨0, 3⟩ ['Y'], .insertLeft 1 ['l'], .insertRight 2 ['r'],
          .replace ⟨1, 4⟩ ['X']]).commit = .ok s ∧
      r.Alike s ∧ r.text = ['Y', 'X'] := by
  have h : Rearranged ['a', 'é', 'd']
      [.replace ⟨1, 4⟩ ['X'], .insertRight 2 ['r'], .insertLeft 1 ['l'], .replace ⟨0, 3⟩ ['Y']]
      [.replace ⟨0, 3⟩ ['Y'], .insertLeft 1 ['l'], .insertRight 2 ['r'], .replace ⟨1, 4⟩ ['X']] :=
    ⟨by decide, by decide⟩
  have htext : ((ofText ['a', 'é', 'd']).pushAll
      [.replace ⟨1, 4⟩ ['X'], .insertRight 2 ['r'], .insertLeft 1 ['l'],
        .replace ⟨0, 3⟩ ['Y']]).commit.map Revision.text = .ok ['Y', 'X'] := by
    have horder : makingOrder ([.replace ⟨1, 4⟩ ['X'], .insertRight 2 ['r'], .insertLeft 1 ['l'],
        .replace ⟨0, 3⟩ ['Y']].map (clamp ['a', 'é', 'd'])) =
        [.replace ⟨1, 4⟩ ['X'], .insertRight 1 ['r'], .insertLeft 1 ['l'],
          .replace ⟨0, 3⟩ ['Y']] := by
      change [Edit.replace ⟨1, 4⟩ ['X'], .replace ⟨0, 3⟩ ['Y'], .insertRight 1 ['r'],
        .insertLeft 1 ['l']].mergeSort _ = _
      simp [List.mergeSort, start]
    rw [pushAll_eq, commit]
    simp only [ofText, List.nil_append]
    rw [horder]
    rfl
  refine ⟨h, ?_⟩
  rcases commit_of_rearranged _ _ _ h with ⟨fault, hrefused, -⟩ | ⟨r, s, hr, hs, halike⟩
  · rw [hrefused] at htext
    cases htext
  · rw [hr] at htext
    exact ⟨r, s, hr, hs, halike, Except.ok.inj htext⟩

end Draft

end BindBlocks
