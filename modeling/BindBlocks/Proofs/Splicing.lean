import BindBlocks.Proofs.Commit
import Mathlib.Data.List.Pairwise

/-! The text of a revision as one splice. The edits of a draft are made one after the other, from
the last offset to the first; `splice` says what they make together, without an order of making. In
front of each character stands what is inserted there, and the characters of a replaced span give
way to the text that replaces it. The place of an offset is the length of the splice of what comes
before it. -/

namespace BindBlocks

/-- A text that starts at `offset`, with `new p` in front of the character at each offset `p`, and
without the characters at the offsets that are `gone`. -/
def Text.renew (new : Nat → Text) (gone : Nat → Bool) (offset : Nat) : Text → Text
  | [] => []
  | c :: t =>
    new offset ++ (if gone offset then [] else [c]) ++ renew new gone (offset + c.utf8Size) t

namespace Text

variable {new new' : Nat → Text} {gone gone' : Nat → Bool} {offset : Nat} {t : Text}

theorem renew_append (new : Nat → Text) (gone : Nat → Bool) (offset : Nat) (s t : Text) :
    renew new gone offset (s ++ t) =
      renew new gone offset s ++ renew new gone (offset + size s) t := by
  induction s generalizing offset with
  | nil => rfl
  | cons c s ih =>
    rw [List.cons_append, renew, renew, ih, size_cons, Nat.add_assoc]
    simp only [List.append_assoc]

theorem renew_congr (hNew : ∀ p, offset ≤ p → p < offset + size t → new p = new' p)
    (hGone : ∀ p, offset ≤ p → p < offset + size t → gone p = gone' p) :
    renew new gone offset t = renew new' gone' offset t := by
  induction t generalizing offset with
  | nil => rfl
  | cons c t ih =>
    have hpos := c.utf8Size_pos
    rw [size_cons] at hNew hGone
    rw [renew, renew, hNew offset (Nat.le_refl _) (by omega),
      hGone offset (Nat.le_refl _) (by omega),
      ih (fun p hle hlt => hNew p (by omega) (by omega))
        fun p hle hlt => hGone p (by omega) (by omega)]

theorem renew_kept (hNew : ∀ p, offset ≤ p → p < offset + size t → new p = [])
    (hGone : ∀ p, offset ≤ p → p < offset + size t → gone p = false) :
    renew new gone offset t = t := by
  rw [renew_congr hNew hGone]
  clear hNew hGone
  induction t generalizing offset with
  | nil => rfl
  | cons c t ih =>
    rw [renew, ih]
    rfl

theorem renew_gone (hNew : ∀ p, offset ≤ p → p < offset + size t → new p = [])
    (hGone : ∀ p, offset ≤ p → p < offset + size t → gone p = true) :
    renew new gone offset t = [] := by
  rw [renew_congr hNew hGone]
  clear hNew hGone
  induction t generalizing offset with
  | nil => rfl
  | cons c t ih =>
    rw [renew, ih]
    rfl

/-- Of a text that is gone, what is new at its start remains. -/
theorem renew_replaced (hSize : 0 < size t)
    (hNew : ∀ p, offset < p → p < offset + size t → new p = [])
    (hGone : ∀ p, offset ≤ p → p < offset + size t → gone p = true) :
    renew new gone offset t = new offset := by
  cases t with
  | nil => exact absurd hSize (by simp)
  | cons c t =>
    have hpos := c.utf8Size_pos
    rw [size_cons] at hNew hGone
    rw [renew, hGone offset (Nat.le_refl _) (by omega),
      renew_gone (fun p hle hlt => hNew p (by omega) (by omega))
        fun p hle hlt => hGone p (by omega) (by omega)]
    simp

end Text

namespace Edit

theorem isReplace_of_lt {e : Edit} (h : e.start < e.stop) : e.isReplace = true := by
  by_contra hinsert
  have := stop_eq_start (by simpa using hinsert)
  omega

theorem Covers.isReplace {e : Edit} {p : Nat} (h : e.Covers p) : e.isReplace = true :=
  isReplace_of_lt (Nat.lt_of_le_of_lt h.1 h.2)

/-- What is inserted at an offset: the texts to the left, the last one given first, and then the
texts to the right, the first one given first. -/
def insertedAt (edits : List Edit) (p : Nat) : Text :=
  (edits.filter fun e => e.isInsertLeft && e.start == p).reverse.flatMap text ++
    (edits.filter fun e => e.isInsertRight && e.start == p).flatMap text

/-- What replaces the span that starts at an offset. -/
def replacedAt (edits : List Edit) (p : Nat) : Text :=
  (edits.filter fun e => e.isReplace && e.start == p).flatMap text

/-- Whether an edit takes away the character at an offset. -/
def takes (edits : List Edit) (p : Nat) : Bool := edits.any fun e => e.Covers p

/-- All edits made at once in a text that starts at `offset`: in front of each character comes what
is inserted there and then what replaces the span that starts there, the characters that are taken
away are left out, and what is inserted at the end comes last. -/
def splice (edits : List Edit) (offset : Nat) (t : Text) : Text :=
  Text.renew (fun p => insertedAt edits p ++ replacedAt edits p) (takes edits) offset t ++
    insertedAt edits (offset + Text.size t)

theorem takes_eq_true_iff {edits : List Edit} {p : Nat} :
    takes edits p = true ↔ ∃ e ∈ edits, e.Covers p := by
  simp [takes]

theorem takes_eq_false_iff {edits : List Edit} {p : Nat} :
    takes edits p = false ↔ ∀ e ∈ edits, ¬ e.Covers p := by
  simp [takes]

theorem takes_perm {es edits : List Edit} (hPerm : es.Perm edits) : takes es = takes edits := by
  funext p
  rw [Bool.eq_iff_iff, takes_eq_true_iff, takes_eq_true_iff]
  simp only [hPerm.mem_iff]

/-- The edits that start at an offset. -/
def startingAt (es : List Edit) (p : Nat) : List Edit := es.filter (·.start == p)

theorem startingAt_eq_nil {es : List Edit} {p : Nat} (h : ∀ e ∈ es, e.start ≠ p) :
    startingAt es p = [] := by
  rw [startingAt, List.filter_eq_nil_iff]
  simpa using h

theorem startingAt_cons_self (e : Edit) (es : List Edit) :
    startingAt (e :: es) e.start = e :: startingAt es e.start :=
  List.filter_cons_of_pos (by simp)

theorem startingAt_cons_of_ne {e : Edit} {p : Nat} (h : e.start ≠ p) (es : List Edit) :
    startingAt (e :: es) p = startingAt es p :=
  List.filter_cons_of_neg (by simpa using h)

/-- The splice of edits that are listed from left to right. -/
def thread (es : List Edit) (offset : Nat) (t : Text) : Text :=
  Text.renew (fun p => (startingAt es p).flatMap text) (takes es) offset t ++
    ((startingAt es (offset + Text.size t)).filter (!·.isReplace)).flatMap text

section Thread

variable {e : Edit} {es : List Edit} {offset : Nat} {front kept gone t result : Text}

/-- What stands in front of all edits is kept. -/
theorem thread_append (hStart : ∀ e ∈ es, offset + Text.size kept ≤ e.start) (t : Text) :
    thread es offset (kept ++ t) = kept ++ thread es (offset + Text.size kept) t := by
  have hkept : Text.renew (fun p => (startingAt es p).flatMap text) (takes es) offset kept =
      kept := by
    apply Text.renew_kept
    · intro p _ hlt
      rw [startingAt_eq_nil, List.flatMap_nil]
      intro e he heq
      have := hStart e he
      omega
    · intro p _ hlt
      rw [takes_eq_false_iff]
      intro e he hCovers
      have := hStart e he
      have := hCovers.1
      omega
  rw [thread, thread, Text.renew_append, hkept, Text.size_append, Nat.add_assoc, List.append_assoc]

/-- A text is kept if nothing is inserted at its end and no edit starts before it. -/
theorem thread_kept (hStart : ∀ e ∈ es, offset + Text.size kept ≤ e.start)
    (hEnd : ∀ e ∈ es, e.start = offset + Text.size kept → e.isReplace = true) :
    thread es offset kept = kept := by
  have hend : thread es (offset + Text.size kept) [] = [] := by
    rw [thread, Text.renew, List.nil_append, Text.size_nil, Nat.add_zero, List.flatMap_eq_nil_iff]
    intro e he
    obtain ⟨hmem, hinsert⟩ := List.mem_filter.1 he
    obtain ⟨hmem, hstart⟩ := List.mem_filter.1 hmem
    rw [hEnd e hmem (by simpa using hstart)] at hinsert
    exact absurd hinsert (by simp)
  have happend := thread_append hStart []
  rwa [hend, List.append_nil] at happend

/-- The text of an insertion comes in front of what is inserted after it. -/
theorem thread_insertion (hInsert : e.isReplace = false) (es : List Edit) (t : Text) :
    thread (e :: es) e.start t = e.text ++ thread es e.start t := by
  have htakes : takes (e :: es) = takes es := by
    funext p
    have hnot : ¬ e.Covers p := fun hCovers => absurd hCovers.isReplace (by simp [hInsert])
    simp [takes, hnot]
  cases t with
  | nil =>
    rw [thread, thread, Text.size_nil, Nat.add_zero, startingAt_cons_self,
      List.filter_cons_of_pos (by simp [hInsert]), List.flatMap_cons]
    rfl
  | cons c t =>
    have hpos := c.utf8Size_pos
    have hne : ∀ p, e.start + c.utf8Size ≤ p → startingAt (e :: es) p = startingAt es p :=
      fun p hle => startingAt_cons_of_ne (by omega) es
    rw [thread, thread, Text.renew, Text.renew, htakes, startingAt_cons_self, List.flatMap_cons,
      hne _ (by rw [Text.size_cons]; omega),
      Text.renew_congr (fun p hle _ => congrArg (List.flatMap text) (hne p hle)) fun _ _ _ => rfl]
    simp only [List.append_assoc]

/-- The text of a replacement comes in place of the characters that it takes away. -/
theorem thread_replacement (hFair : e.Fair) (hReplace : e.isReplace = true)
    (hStop : e.stop = e.start + Text.size gone) (hAfter : ∀ f ∈ es, e.stop ≤ f.start) (t : Text) :
    thread (e :: es) e.start (gone ++ t) = e.text ++ thread es e.stop t := by
  have hlt := hFair hReplace
  have hfirst : startingAt (e :: es) e.start = [e] := by
    rw [startingAt_cons_self, startingAt_eq_nil]
    intro f hf heq
    have := hAfter f hf
    omega
  have hlater : ∀ p, e.stop ≤ p → startingAt (e :: es) p = startingAt es p :=
    fun p hle => startingAt_cons_of_ne (by omega) es
  have htakes : ∀ p, e.stop ≤ p → takes (e :: es) p = takes es p := by
    intro p hle
    have hnot : ¬ e.Covers p := fun hCovers => absurd hCovers.2 (by omega)
    simp [takes, hnot]
  have hgone : Text.renew (fun p => (startingAt (e :: es) p).flatMap text) (takes (e :: es)) e.start
      gone = e.text := by
    rw [Text.renew_replaced (by omega), hfirst, List.flatMap_singleton]
    · intro p hle hlt
      rw [startingAt_eq_nil, List.flatMap_nil]
      intro f hf heq
      rcases List.mem_cons.1 hf with rfl | hf
      · omega
      · have := hAfter f hf
        omega
    · intro p hle hlt
      exact takes_eq_true_iff.2 ⟨e, List.mem_cons_self, hle, by omega⟩
  rw [thread, thread, Text.renew_append, hgone, Text.size_append, ← Nat.add_assoc, ← hStop,
    hlater _ (Nat.le_add_right _ _),
    Text.renew_congr (fun p hle _ => congrArg (List.flatMap text) (hlater p hle))
      fun p hle _ => htakes p hle, List.append_assoc]

/-- The first edit of a thread: what stands in front of it is kept, and its text comes in place of
what it takes away. -/
theorem thread_cons (hFair : e.Fair) (hStart : e.start = offset + Text.size kept)
    (hStop : e.stop = e.start + Text.size gone) (hAfter : ∀ f ∈ es, e.stop ≤ f.start) (t : Text) :
    thread (e :: es) offset (kept ++ gone ++ t) = kept ++ e.text ++ thread es e.stop t := by
  have hle := hFair.start_le_stop
  have hfront : ∀ f ∈ e :: es, offset + Text.size kept ≤ f.start := by
    intro f hf
    rcases List.mem_cons.1 hf with rfl | hf
    · omega
    · have := hAfter f hf
      omega
  rw [List.append_assoc, thread_append hfront, ← hStart, List.append_assoc]
  congr 1
  by_cases hreplace : e.isReplace = true
  · exact thread_replacement hFair hreplace hStop hAfter t
  · have hinsert : e.isReplace = false := by simpa using hreplace
    rw [stop_eq_start hinsert] at hStop ⊢
    have hgone : gone = [] := Text.size_eq_zero.1 (by omega)
    rw [hgone, List.nil_append]
    exact thread_insertion hinsert es t

/-- A text woven by edits is their thread. -/
theorem Woven.eq_thread (h : Woven offset es t result) : result = thread es offset t := by
  induction h with
  | rest offset t => exact (thread_kept (by simp) (by simp)).symm
  | @edit offset e es kept gone t result hFair hStart hStop h ih =>
    rw [thread_cons hFair hStart hStop h.start_ge, ih]

/-- An offset that lies inside no replaced span goes to the end of the thread of what comes before
it. -/
theorem Woven.landing_eq (h : Woven offset es t result) {back : Text} {p : Nat}
    (ht : t = front ++ back) (hp : p = offset + Text.size front)
    (hOutside : ∀ e ∈ es, ¬ (e.start < p ∧ p < e.stop)) :
    landing offset es p = Text.size (thread es offset front) := by
  subst hp
  induction h generalizing front with
  | rest offset t =>
    rw [landing, thread_kept (by simp) (by simp)]
    omega
  | @edit offset e es kept gone t result hFair hStart hStop h ih =>
    have hnot := hOutside e List.mem_cons_self
    rw [landing]
    by_cases hover : e.stop ≤ offset + Text.size front
    · have hle : Text.size (kept ++ gone) ≤ Text.size front := by
        rw [Text.size_append]
        omega
      obtain ⟨m, rfl, hm⟩ := Text.exists_middle ht hle
      have hoffset : offset + Text.size (kept ++ gone ++ m) = e.stop + Text.size m := by
        simp only [Text.size_append]
        omega
      rw [hoffset] at hOutside ⊢
      rw [if_pos (Nat.le_add_right _ _), thread_cons hFair hStart hStop h.start_ge,
        ih hm fun f hf => hOutside f (List.mem_cons_of_mem e hf)]
      simp only [Text.size_append]
      omega
    · have hstart : ∀ f ∈ e :: es, offset + Text.size front ≤ f.start := by
        intro f hf
        rcases List.mem_cons.1 hf with rfl | hf
        · omega
        · have := h.start_ge f hf
          omega
      have hend : ∀ f ∈ e :: es, f.start = offset + Text.size front → f.isReplace = true := by
        intro f hf heq
        rcases List.mem_cons.1 hf with rfl | hf
        · exact isReplace_of_lt (by omega)
        · have := h.start_ge f hf
          omega
      have := hstart e List.mem_cons_self
      rw [if_neg hover, thread_kept hstart hend]
      omega

end Thread

/-- At most one replacement starts at an offset. -/
theorem Orderly.replacements_cases {edits : List Edit} (h : Orderly edits) (p : Nat) :
    (edits.filter fun e => e.isReplace && e.start == p) = [] ∨
      ∃ e, (edits.filter fun e => e.isReplace && e.start == p) = [e] := by
  have hnone : (edits.filter fun e => e.isReplace && e.start == p).Pairwise fun _ _ => False := by
    refine (h.disjoint.filter _).imp_of_mem ?_
    intro e f he hf hpair
    simp only [List.mem_filter, Bool.and_eq_true, beq_iff_eq] at he hf
    have hefair := h.fair e he.1 he.2.1
    have hffair := h.fair f hf.1 hf.2.1
    rcases hpair he.2.1 hf.2.1 with hstop | hstop <;> omega
  generalize (edits.filter fun e => e.isReplace && e.start == p) = found at hnone ⊢
  match found, hnone with
  | [], _ => exact .inl rfl
  | [e], _ => exact .inr ⟨e, rfl⟩
  | e :: f :: rest, hnone => exact (List.rel_of_pairwise_cons hnone List.mem_cons_self).elim

section Splice

variable {edits : List Edit} {e : Edit} {offset p : Nat} {front back : Text}

theorem insertedAt_eq_nil (h : ∀ e ∈ edits, e.isReplace = false → e.start ≠ p) :
    insertedAt edits p = [] := by
  have hnone : ∀ kind : Edit → Bool, (∀ e, kind e = true → e.isReplace = false) →
      (edits.filter fun e => kind e && e.start == p) = [] := by
    intro kind hkind
    rw [List.filter_eq_nil_iff]
    intro e he
    simp only [Bool.and_eq_true, beq_iff_eq]
    exact fun ⟨hof, hstart⟩ => h e he (hkind e hof) hstart
  rw [insertedAt, hnone isInsertLeft, hnone isInsertRight]
  · rfl
  · rintro (_ | _ | _) <;> simp [isInsertRight, isReplace]
  · rintro (_ | _ | _) <;> simp [isInsertLeft, isReplace]

theorem replacedAt_eq_nil (h : ∀ e ∈ edits, e.isReplace = true → e.start ≠ p) :
    replacedAt edits p = [] := by
  rw [replacedAt, List.flatMap_eq_nil_iff]
  intro e he
  simp only [List.mem_filter, Bool.and_eq_true, beq_iff_eq] at he
  exact absurd he.2.2 (h e he.1 he.2.1)

/-- No edit starts inside another one. -/
theorem Orderly.not_inside (h : Orderly edits) {f : Edit} (he : e ∈ edits) (hf : f ∈ edits) :
    ¬ (e.start < f.start ∧ f.start < e.stop) := by
  intro hinside
  by_cases hreplace : f.isReplace = true
  · have hfair := h.fair f hf hreplace
    have hereplace : e.isReplace = true := isReplace_of_lt (by omega)
    have hne : e ≠ f := by
      rintro rfl
      omega
    have hsymm : Std.Symm fun e f : Edit =>
        e.isReplace = true → f.isReplace = true → e.stop ≤ f.start ∨ f.stop ≤ e.start :=
      ⟨fun e f hef hf he => (hef he hf).symm⟩
    rcases h.disjoint.forall he hf hne hereplace hreplace with hstop | hstop <;> omega
  · exact h.clear e he f hf (by simpa using hreplace) hinside

theorem Orderly.replacedAt_start (h : Orderly edits) (he : e ∈ edits)
    (hReplace : e.isReplace = true) : replacedAt edits e.start = e.text := by
  have hmem : e ∈ edits.filter fun f => f.isReplace && f.start == e.start :=
    List.mem_filter.2 ⟨he, by simp [hReplace]⟩
  rw [replacedAt]
  rcases h.replacements_cases e.start with hnil | ⟨f, hsingle⟩
  · rw [hnil] at hmem
    exact absurd hmem (by simp)
  · rw [hsingle] at hmem ⊢
    rw [List.mem_singleton.1 hmem, List.flatMap_singleton]

/-- Around a character that is not taken away, the splice consists of those of the texts in front
and behind. -/
theorem Orderly.splice_kept (h : Orderly edits) {c : Char} (hp : p = offset + Text.size front)
    (hFree : ∀ e ∈ edits, ¬ e.Covers p) :
    splice edits offset (front ++ c :: back) =
      splice edits offset front ++ c :: splice edits (p + c.utf8Size) back := by
  have hreplaced : replacedAt edits p = [] := by
    apply replacedAt_eq_nil
    intro e he hreplace hstart
    have hfair := h.fair e he hreplace
    exact hFree e he ⟨by omega, by omega⟩
  have hend : offset + Text.size (front ++ c :: back) = p + c.utf8Size + Text.size back := by
    rw [Text.size_append, Text.size_cons]
    omega
  rw [splice, splice, splice, hend, Text.renew_append, Text.renew, ← hp, hreplaced,
    takes_eq_false_iff.2 hFree]
  simp

/-- Around a replaced span, the splice consists of its new text and those of the texts in front and
behind. -/
theorem Orderly.splice_replaced (h : Orderly edits) {gone : Text} (he : e ∈ edits)
    (hReplace : e.isReplace = true) (hStart : e.start = offset + Text.size front)
    (hStop : e.stop = e.start + Text.size gone) :
    splice edits offset (front ++ gone ++ back) =
      splice edits offset front ++ e.text ++ splice edits e.stop back := by
  have hlt := h.fair e he hReplace
  have hgone : Text.renew (fun p => insertedAt edits p ++ replacedAt edits p) (takes edits) e.start
      gone = insertedAt edits e.start ++ e.text := by
    rw [Text.renew_replaced (by omega), h.replacedAt_start he hReplace]
    · intro p hle hlt
      have hnone : ∀ f ∈ edits, f.start ≠ p := by
        intro f hf hstart
        exact h.not_inside he hf ⟨by omega, by omega⟩
      rw [insertedAt_eq_nil fun f hf _ => hnone f hf, replacedAt_eq_nil fun f hf _ => hnone f hf]
      rfl
    · exact fun p hle hlt => takes_eq_true_iff.2 ⟨e, he, hle, by omega⟩
  have hend : offset + Text.size (front ++ gone ++ back) = e.stop + Text.size back := by
    simp only [Text.size_append]
    omega
  have hmiddle : offset + Text.size (front ++ gone) = e.stop := by
    rw [Text.size_append]
    omega
  rw [splice, splice, splice, hend, Text.renew_append, Text.renew_append, hmiddle, ← hStart, hgone]
  simp only [List.append_assoc]

end Splice

end Edit

namespace Draft

open Edit

/-- At one offset the replacements are made first, in the order in which they were given, then the
insertions to the right from the last to the first, and then those to the left. -/
theorem startingAt_makingOrder (edits : List Edit) (p : Nat) :
    startingAt (makingOrder edits) p =
      (edits.filter fun e => e.isReplace && e.start == p) ++
        (edits.filter fun e => e.isInsertRight && e.start == p).reverse ++
          edits.filter fun e => e.isInsertLeft && e.start == p := by
  have hkind : ∀ kind : Edit → Bool, (edits.filter kind).filter (·.start == p) =
      edits.filter fun e => kind e && e.start == p := by
    intro kind
    simp only [List.filter_filter, Bool.and_comm]
  rw [startingAt, makingOrder, filter_mergeSort_key start, List.filter_append, List.filter_append,
    List.filter_reverse, hkind, hkind, hkind]

/-- At one offset the edits stand in the order opposite to that of making them: those to the left
from the last to the first, those to the right from the first to the last, and the replacement. -/
theorem startingAt_makingOrder_reverse {edits : List Edit} (h : Orderly edits) (p : Nat) :
    startingAt (makingOrder edits).reverse p =
      (edits.filter fun e => e.isInsertLeft && e.start == p).reverse ++
        (edits.filter fun e => e.isInsertRight && e.start == p) ++
          edits.filter fun e => e.isReplace && e.start == p := by
  have hsingle : (edits.filter fun e => e.isReplace && e.start == p).reverse =
      edits.filter fun e => e.isReplace && e.start == p := by
    rcases h.replacements_cases p with hnil | ⟨e, hsingle⟩
    · rw [hnil, List.reverse_nil]
    · rw [hsingle, List.reverse_singleton]
  rw [startingAt, List.filter_reverse, ← startingAt, startingAt_makingOrder, List.reverse_append,
    List.reverse_append, List.reverse_reverse, hsingle, List.append_assoc]

/-- The thread of the edits in the order opposite to that of making them is their splice. -/
theorem thread_makingOrder {edits : List Edit} (h : Orderly edits) (offset : Nat) (t : Text) :
    thread (makingOrder edits).reverse offset t = splice edits offset t := by
  have htakes : takes (makingOrder edits).reverse = takes edits :=
    takes_perm ((List.reverse_perm _).trans (makingOrder_perm edits))
  have hnew : ∀ p, (startingAt (makingOrder edits).reverse p).flatMap text =
      insertedAt edits p ++ replacedAt edits p := by
    intro p
    rw [startingAt_makingOrder_reverse h, List.flatMap_append, List.flatMap_append]
    rfl
  have hinserted : ∀ p, ((startingAt (makingOrder edits).reverse p).filter (!·.isReplace)).flatMap
      text = insertedAt edits p := by
    intro p
    have hleft : ∀ e ∈ edits, (!e.isReplace && (e.isInsertLeft && e.start == p)) =
        (e.isInsertLeft && e.start == p) := by
      intro e _
      cases e <;> rfl
    have hright : ∀ e ∈ edits, (!e.isReplace && (e.isInsertRight && e.start == p)) =
        (e.isInsertRight && e.start == p) := by
      intro e _
      cases e <;> rfl
    have hreplace : ∀ e ∈ edits, (!e.isReplace && (e.isReplace && e.start == p)) = false := by
      intro e _
      cases e <;> rfl
    rw [startingAt_makingOrder_reverse h, List.filter_append, List.filter_append,
      List.filter_reverse, List.filter_filter, List.filter_filter, List.filter_filter,
      List.filter_congr hleft, List.filter_congr hright, List.filter_congr hreplace,
      List.filter_false, List.append_nil, List.flatMap_append]
    rfl
  rw [thread, splice, htakes, hinserted, funext hnew]

/-- Orderly edits can be made, and they make the text that they make together at once. -/
theorem commit_text_eq_splice (source : Text) (edits : List Edit)
    (hOrderly : Orderly (edits.map (clamp source))) :
    ∃ r, ((ofText source).pushAll edits).commit = .ok r ∧
      r.text = splice (edits.map (clamp source)) 0 source := by
  obtain ⟨r, hcommit, rfl, hweave⟩ := commit_woven hOrderly
  exact ⟨r, hcommit, hweave.woven.eq_thread.trans (thread_makingOrder hOrderly 0 r.source)⟩

/-- Five edits meet at the start of a character of two bytes, one of them moved back from inside it,
and another edit stands behind it. -/
theorem commit_text_eq_splice_meeting :
    ∃ r, ((ofText "aéb".toList).pushAll
        [.insertLeft 1 "1".toList, .insertRight 1 "2".toList, .replace ⟨1, 3⟩ "3".toList,
          .insertRight 2 "4".toList, .insertLeft 1 "5".toList, .insertLeft 3 "6".toList]).commit =
        .ok r ∧
      r.text = "a512436b".toList := by
  obtain ⟨r, hcommit, htext⟩ := commit_text_eq_splice "aéb".toList
    [.insertLeft 1 "1".toList, .insertRight 1 "2".toList, .replace ⟨1, 3⟩ "3".toList,
      .insertRight 2 "4".toList, .insertLeft 1 "5".toList, .insertLeft 3 "6".toList] (by decide)
  exact ⟨r, hcommit, htext.trans (by decide)⟩

end Draft

/-- The places of a revision's source in its text, which is the splice of `edits`: a character that
is kept stands at its place, whatever lies in a replaced span goes to the start of the new text, the
end goes to the end, and the order of offsets is kept. -/
structure Revision.Placed (r : Revision) (edits : List Edit) : Prop where
  kept : ∀ front c back, r.source = front ++ c :: back →
    (∀ e ∈ edits, ¬ e.Covers (Text.size front)) →
    r.text = Edit.splice edits 0 front ++
        c :: Edit.splice edits (Text.size front + c.utf8Size) back ∧
      r.place (Text.size front) = Text.size (Edit.splice edits 0 front)
  replaced : ∀ e ∈ edits, ∀ o, e.Covers o →
    ∃ front gone back, r.source = front ++ gone ++ back ∧ Text.size front = e.start ∧
      Text.size (front ++ gone) = e.stop ∧
      r.text = Edit.splice edits 0 front ++ e.text ++ Edit.splice edits e.stop back ∧
      r.place o = Text.size (Edit.splice edits 0 front)
  last : r.place (Text.size r.source) = Text.size r.text
  mono : ∀ p q, p ≤ q → q ≤ Text.size r.source → r.place p ≤ r.place q

namespace Revision

open Edit

variable {r : Revision} {edits : List Edit}

/-- An offset that lies inside no replaced span goes to the end of the splice of what comes before
it. -/
theorem IsWeave.place_eq_size_splice (hWeave : r.IsWeave (Draft.makingOrder edits).reverse)
    (h : Orderly edits) (hFits : Text.size r.text < Offset.bound) {front back : Text}
    (hSource : r.source = front ++ back)
    (hOutside : ∀ e ∈ edits, ¬ (e.start < Text.size front ∧ Text.size front < e.stop)) :
    r.place (Text.size front) = Text.size (splice edits 0 front) := by
  have hperm := (List.reverse_perm _).trans (Draft.makingOrder_perm edits)
  have hle : Text.size front ≤ Text.size r.source := by
    rw [hSource, Text.size_append]
    exact Nat.le_add_right _ _
  rw [hWeave.place_eq hFits hle, ← Draft.thread_makingOrder h]
  exact hWeave.woven.landing_eq hSource (Nat.zero_add _).symm
    fun e he => hOutside e (hperm.mem_iff.1 he)

theorem IsWeave.placed (hWeave : r.IsWeave (Draft.makingOrder edits).reverse) (h : Orderly edits)
    (hFits : Text.size r.text < Offset.bound) : r.Placed edits := by
  have hperm := (List.reverse_perm _).trans (Draft.makingOrder_perm edits)
  have htext := hWeave.woven.eq_thread.trans (Draft.thread_makingOrder h 0 r.source)
  refine ⟨?_, ?_, hWeave.place_size hFits, fun p q hle hq => hWeave.place_mono hFits hq hle⟩
  · intro front c back hsource hfree
    refine ⟨?_, hWeave.place_eq_size_splice h hFits hsource fun e he hinside => ?_⟩
    · rw [htext, hsource, h.splice_kept (Nat.zero_add _).symm hfree]
    · exact hfree e he ⟨Nat.le_of_lt hinside.1, hinside.2⟩
  · intro e he o hCovers
    have hmem := hperm.mem_iff.2 he
    have hreplace := hCovers.isReplace
    obtain ⟨⟨front, back, hfront, hstart⟩, ⟨front', back', hfront', hstop⟩⟩ :=
      hWeave.woven.ends e hmem
    rw [Nat.zero_add] at hstart hstop
    have hlt := h.fair e he hreplace
    obtain ⟨gone, rfl, rfl⟩ := Text.exists_middle (hfront.symm.trans hfront') (by omega)
    refine ⟨front, gone, back', hfront', hstart.symm, hstop.symm, ?_, ?_⟩
    · rw [htext, hfront', h.splice_replaced he hreplace (by omega)]
      rw [Text.size_append] at hstop
      omega
    · have ho : o ≤ Text.size r.source := by
        have := hCovers.2
        rw [hfront', Text.size_append, ← hstop]
        omega
      rw [hWeave.place_of_covers hFits hmem hCovers ho, hstart]
      apply hWeave.place_eq_size_splice h hFits hfront
      intro f hf
      rw [← hstart]
      exact h.not_inside hf he

end Revision

namespace Draft

open Edit

/-- Orderly edits can be made, and if the text that they make has a size of 32 bits, the places of
the source agree with it. -/
theorem commit_placed (source : Text) (edits : List Edit)
    (hOrderly : Orderly (edits.map (clamp source))) :
    ∃ r, ((ofText source).pushAll edits).commit = .ok r ∧ r.source = source ∧
      (Text.size r.text < Offset.bound → r.Placed (edits.map (clamp source))) := by
  obtain ⟨r, hcommit, rfl, hweave⟩ := commit_woven hOrderly
  exact ⟨r, hcommit, rfl, hweave.placed hOrderly⟩

/-- Insertions stand at both ends of a replaced character of two bytes, which shrinks to one. -/
theorem commit_placed_between :
    ∃ r, ((ofText "aéb".toList).pushAll
        [.insertLeft 1 "<<".toList, .replace ⟨1, 3⟩ "x".toList, .insertRight 3 ">".toList]).commit =
        .ok r ∧
      r.text = "a<<x>b".toList ∧ [0, 1, 2, 3, 4].map r.place = [0, 3, 3, 5, 6] := by
  have horderly : Orderly ([insertLeft 1 "<<".toList, replace ⟨1, 3⟩ "x".toList,
      insertRight 3 ">".toList].map (clamp "aéb".toList)) := by decide
  obtain ⟨r, hcommit, hsource, hplaced⟩ := commit_placed "aéb".toList
    [.insertLeft 1 "<<".toList, .replace ⟨1, 3⟩ "x".toList, .insertRight 3 ">".toList] horderly
  have hsize : Text.size r.text = 6 := Int.natCast_inj.1 (size_commit horderly hcommit)
  have h := hplaced (by rw [hsize]; decide)
  have hfirst := h.kept [] 'a' "éb".toList hsource (by decide)
  have hthird := h.kept "aé".toList 'b' [] hsource (by decide)
  have hzero : r.place 0 = 0 := hfirst.2.trans (by decide)
  have hreplaced : ∀ o, 1 ≤ o → o < 3 → r.place o = 3 := by
    intro o hle hlt
    obtain ⟨front, gone, back, hsplit, hstart, -, -, hplace⟩ :=
      h.replaced (replace ⟨1, 3⟩ "x".toList) (by decide) o ⟨hle, hlt⟩
    rw [hsource, List.append_assoc] at hsplit
    obtain ⟨rfl, -⟩ :=
      Text.append_inj_of_size (show ['a'] ++ "éb".toList = _ from hsplit) hstart.symm
    exact hplace.trans (by decide)
  have hthree : r.place 3 = 5 := hthird.2.trans (by decide)
  have hfour : r.place 4 = 6 := by
    have := h.last
    rwa [hsource, hsize] at this
  refine ⟨r, hcommit, hfirst.1.trans (by decide), ?_⟩
  simp [hzero, hreplaced, hthree, hfour]

end Draft

end BindBlocks
