import BindBlocks.Proofs.Splicing
import Mathlib.Data.List.Induction

/-! Which characters of the source are left after its edits. A traced text remembers for each of its
characters where it comes from, and the edits of a draft are made on it in the same way and in the
same order as on the text itself. If no two replacements overlap, the characters outside the
replaced spans are left and no others, as long as no text has been put into a span by the time it is
replaced: such a text pushes characters of the span out of it. -/

namespace BindBlocks

/-- A text with the offset in the source of each character that comes from there. -/
abbrev Traced := List (Char × Option Nat)

namespace Traced

def text (t : Traced) : Text := t.map Prod.fst

/-- A source text that starts at `offset`. -/
def ofText (offset : Nat) : Text → Traced
  | [] => []
  | c :: t => (c, some offset) :: ofText (offset + c.utf8Size) t

/-- Characters that do not come from the source. -/
def fresh (t : Text) : Traced := t.map (·, none)

/-- The characters that come from the source, with their offsets. -/
def survivors (t : Traced) : List (Char × Nat) := t.filterMap fun x => x.2.map (x.1, ·)

def cut? (offset : Nat) (t : Traced) : Option (Traced × Traced) :=
  (Text.cut? offset t.text).map fun (front, _) => (t.take front.length, t.drop front.length)

def splice (t : Traced) (start stop : Nat) (new : Text) : Except Fault Traced :=
  if start ≤ stop then
    match cut? stop t with
    | none => .error .badRange
    | some (front, back) =>
      match cut? start front with
      | none => .error .badRange
      | some (before, _) => .ok (before ++ fresh new ++ back)
  else .error .badRange

def apply (t : Traced) (e : Edit) : Except Fault Traced := splice t e.start e.stop e.text

@[simp]
theorem text_append (s t : Traced) : text (s ++ t) = text s ++ text t := List.map_append

@[simp]
theorem text_fresh (t : Text) : text (fresh t) = t := by
  rw [text, fresh, List.map_map]
  exact List.map_id t

@[simp]
theorem text_ofText (offset : Nat) (t : Text) : text (ofText offset t) = t := by
  induction t generalizing offset with
  | nil => rfl
  | cons c t ih =>
    rw [ofText]
    exact congrArg (c :: ·) (ih _)

theorem ofText_append (offset : Nat) (s t : Text) :
    ofText offset (s ++ t) = ofText offset s ++ ofText (offset + Text.size s) t := by
  induction s generalizing offset with
  | nil => rfl
  | cons c s ih =>
    rw [List.cons_append, ofText, ofText, ih, Text.size_cons, Nat.add_assoc, List.cons_append]

theorem survivors_append (s t : Traced) : survivors (s ++ t) = survivors s ++ survivors t :=
  List.filterMap_append

theorem survivors_fresh (t : Text) : survivors (fresh t) = [] := by
  rw [survivors, List.filterMap_eq_nil_iff]
  intro x hx
  obtain ⟨c, -, rfl⟩ := List.mem_map.1 hx
  rfl

theorem cut?_eq_some_iff {t front back : Traced} {offset : Nat} :
    cut? offset t = some (front, back) ↔ t = front ++ back ∧ Text.size front.text = offset := by
  rw [cut?, Option.map_eq_some_iff]
  constructor
  · rintro ⟨⟨front', back'⟩, hcut, hparts⟩
    obtain ⟨rfl, rfl⟩ := Prod.mk.inj hparts
    obtain ⟨htext, hsize⟩ := Text.cut?_eq_some_iff.1 hcut
    refine ⟨(List.take_append_drop _ t).symm, ?_⟩
    rw [text, List.map_take, ← text, htext, List.take_left, hsize]
  · rintro ⟨rfl, rfl⟩
    refine ⟨(front.text, back.text), ?_, ?_⟩
    · rw [text_append, Text.cut?_size_append]
    · simp [text]

/-- A splice puts a text in the middle of a decomposition into three parts. -/
theorem splice_eq_ok_iff {t t' : Traced} {start stop : Nat} {new : Text} :
    splice t start stop new = .ok t' ↔
      ∃ front gone back, t = front ++ gone ++ back ∧ Text.size front.text = start ∧
        start + Text.size gone.text = stop ∧ t' = front ++ fresh new ++ back := by
  constructor
  · intro h
    unfold splice at h
    split at h
    · split at h
      · simp at h
      · rename_i front back hstop
        split at h
        · simp at h
        · rename_i first middle hstart
          obtain ⟨rfl, hsize⟩ := cut?_eq_some_iff.1 hstop
          obtain ⟨rfl, rfl⟩ := cut?_eq_some_iff.1 hstart
          refine ⟨first, middle, back, rfl, rfl, ?_, (Except.ok.inj h).symm⟩
          rw [← hsize, text_append, Text.size_append]
    · simp at h
  · rintro ⟨front, gone, back, rfl, rfl, rfl, rfl⟩
    have hstop : cut? (Text.size front.text + Text.size gone.text) (front ++ gone ++ back) =
        some (front ++ gone, back) :=
      cut?_eq_some_iff.2 ⟨rfl, by rw [text_append, Text.size_append]⟩
    have hstart : cut? (Text.size front.text) (front ++ gone) = some (front, gone) :=
      cut?_eq_some_iff.2 ⟨rfl, rfl⟩
    simp only [splice, Nat.le_add_right, if_true, hstop, hstart]

theorem text_splice (t : Traced) (start stop : Nat) (new : Text) :
    (splice t start stop new).map text = Text.splice t.text start stop new := by
  rw [splice, Text.splice]
  split
  · cases hstop : Text.cut? stop t.text with
    | none => simp [cut?, hstop, Except.map]
    | some parts =>
      obtain ⟨front, back⟩ := parts
      obtain ⟨htext, -⟩ := Text.cut?_eq_some_iff.1 hstop
      have hfront : text (t.take front.length) = front := by
        rw [text, List.map_take, ← text, htext, List.take_left]
      have hback : text (t.drop front.length) = back := by
        rw [text, List.map_drop, ← text, htext, List.drop_left]
      cases hstart : Text.cut? start front with
      | none => simp [cut?, hstop, hfront, hstart, Except.map]
      | some parts =>
        obtain ⟨before, gone⟩ := parts
        obtain ⟨rfl, -⟩ := Text.cut?_eq_some_iff.1 hstart
        have hbefore : text ((t.take (before ++ gone).length).take before.length) = before := by
          rw [text, List.map_take, ← text, hfront, List.take_left]
        simp [cut?, hstop, hfront, hstart, Except.map, hbefore, hback, -List.length_append]
  · rfl

/-- A traced text is edited as the text is. -/
theorem text_apply (t : Traced) (e : Edit) : (t.apply e).map text = e.apply t.text := by
  cases e <;> exact text_splice t _ _ _

theorem text_foldlM (es : List Edit) (t : Traced) :
    (es.foldlM apply t).map text = es.foldlM Edit.apply t.text := by
  induction es generalizing t with
  | nil => rfl
  | cons e es ih =>
    rw [List.foldlM_cons, List.foldlM_cons, ← text_apply]
    cases t.apply e with
    | error fault => rfl
    | ok t' => exact ih t'

end Traced

namespace Draft

/-- The edits of a draft, made on the traced source. -/
def trace (d : Draft) : Except Fault Traced :=
  (makingOrder d.edits).foldlM Traced.apply (Traced.ofText 0 d.source)

theorem commit_eq_trace (d : Draft) :
    d.commit = d.trace.map fun t => ⟨d.source, t.text, readingOrder d.edits⟩ := by
  have htext := Traced.text_foldlM (makingOrder d.edits) (Traced.ofText 0 d.source)
  rw [Traced.text_ofText] at htext
  rw [commit, trace, ← htext]
  cases (makingOrder d.edits).foldlM Traced.apply (Traced.ofText 0 d.source) <;> rfl

end Draft

namespace Edit

/-- The characters of a text that starts at `offset` which no edit takes away. -/
def spared (edits : List Edit) (offset : Nat) (t : Text) : List (Char × Nat) :=
  (Traced.ofText offset t).survivors.filter fun x => !takes edits x.2

/-- No two edits take away the same character. -/
def Apart (edits : List Edit) : Prop := edits.Pairwise fun e f => ∀ p, e.Covers p → ¬ f.Covers p

/-- The ends of the edit are boundaries of the text, in their order. -/
def Within (source : Text) (e : Edit) : Prop :=
  ∃ front gone back, source = front ++ gone ++ back ∧ e.start = Text.size front ∧
    e.stop = e.start + Text.size gone

/-- The edit `e` can be made after `f`: it starts no later and takes away none of its characters. -/
def Follows (f e : Edit) : Prop := e.start ≤ f.start ∧ ∀ p, f.Covers p → ¬ e.Covers p

/-- An edit that follows one which takes something away is over at its start. -/
theorem Follows.stop_le_start {f e : Edit} (h : f.Follows e) (hLt : f.start < f.stop) :
    e.stop ≤ f.start := by
  by_contra hover
  exact h.2 f.start ⟨Nat.le_refl _, hLt⟩ ⟨h.1, by omega⟩

/-- An edit at a character that a later one takes away takes none away. -/
theorem Follows.stop_le_of_covers {f e : Edit} (h : f.Follows e) (hCovers : e.Covers f.start) :
    f.stop ≤ f.start := by
  by_contra hlt
  exact h.2 f.start ⟨Nat.le_refl _, by omega⟩ hCovers

theorem within_clamp (source : Text) (e : Edit) : (e.clamp source).Within source := by
  have hle : (e.clamp source).start ≤ (e.clamp source).stop := by
    cases e <;> simp [clamp, start, stop]
  obtain ⟨⟨front, rest, rfl, hstart⟩, longer, back, hsplit, hstop⟩ := Draft.clamp_ends source e
  obtain ⟨gone, rfl, rfl⟩ := Text.exists_middle hsplit (by omega)
  refine ⟨front, gone, back, (List.append_assoc ..).symm, hstart, ?_⟩
  rw [hstop, hstart, Text.size_append]

section Spared

variable {edits es : List Edit} {offset : Nat} {t : Text}

theorem spared_append (edits : List Edit) (offset : Nat) (s t : Text) :
    spared edits offset (s ++ t) =
      spared edits offset s ++ spared edits (offset + Text.size s) t := by
  rw [spared, Traced.ofText_append, Traced.survivors_append, List.filter_append]
  rfl

theorem mem_survivors_ofText {x : Char × Nat} (h : x ∈ (Traced.ofText offset t).survivors) :
    offset ≤ x.2 ∧ x.2 < offset + Text.size t := by
  induction t generalizing offset with
  | nil => exact absurd h List.not_mem_nil
  | cons c t ih =>
    have hpos := c.utf8Size_pos
    rw [Text.size_cons]
    rcases List.mem_cons.1 h with rfl | h
    · exact ⟨Nat.le_refl _, Nat.lt_add_of_pos_right (Nat.add_pos_left hpos _)⟩
    · have := ih h
      omega

theorem spared_congr
    (h : ∀ p, offset ≤ p → p < offset + Text.size t → takes edits p = takes es p) :
    spared edits offset t = spared es offset t := by
  apply List.filter_congr
  intro x hx
  obtain ⟨hle, hlt⟩ := mem_survivors_ofText hx
  rw [h x.2 hle hlt]

theorem spared_eq_survivors
    (h : ∀ p, offset ≤ p → p < offset + Text.size t → takes edits p = false) :
    spared edits offset t = (Traced.ofText offset t).survivors := by
  apply List.filter_eq_self.2
  intro x hx
  obtain ⟨hle, hlt⟩ := mem_survivors_ofText hx
  rw [h x.2 hle hlt]
  rfl

theorem spared_eq_nil (h : ∀ p, offset ≤ p → p < offset + Text.size t → takes edits p = true) :
    spared edits offset t = [] := by
  apply List.filter_eq_nil_iff.2
  intro x hx
  obtain ⟨hle, hlt⟩ := mem_survivors_ofText hx
  simp [h x.2 hle hlt]

theorem takes_concat {e : Edit} {p : Nat} (h : ¬ e.Covers p) (es : List Edit) :
    takes (es ++ [e]) p = takes es p := by
  simp [takes, h]

end Spared

end Edit

namespace Traced

open Edit

section Sound

variable {source gone back : Text} {done es : List Edit} {e : Edit} {t : Traced}

/-- After the edits `done`, the text in front of an offset is that of the source, and of what comes
behind it those characters are left that no edit takes away. This holds at each offset such that the
edits that start before it change nothing. -/
def Sound (source : Text) (done : List Edit) (t : Traced) : Prop :=
  ∀ front back, source = front ++ back →
    (∀ e ∈ done, e.start < Text.size front → e.text = [] ∧ e.stop ≤ e.start) →
    ∃ tail, t = ofText 0 front ++ tail ∧ tail.survivors = spared done (Text.size front) back

theorem sound_ofText (source : Text) : Sound source [] (ofText 0 source) := by
  rintro front back rfl -
  refine ⟨ofText (Text.size front) back, ?_, ?_⟩
  · rw [ofText_append, Nat.zero_add]
  · exact (spared_eq_survivors fun _ _ _ => rfl).symm

/-- With one more edit, all that stands in front of it is spared, nothing of its span, and behind it
what the others spare. -/
theorem spared_concat (hStop : e.stop = e.start + Text.size gone)
    (hFollows : ∀ f ∈ done, f.Follows e) {m : Text} {offset : Nat}
    (hOffset : offset + Text.size m = e.start) :
    spared (done ++ [e]) offset (m ++ (gone ++ back)) =
      (ofText offset m).survivors ++ spared done e.stop back := by
  have hm : spared (done ++ [e]) offset m = (ofText offset m).survivors := by
    apply spared_eq_survivors
    intro p _ hlt
    rw [takes_eq_false_iff]
    intro f hf hCovers
    have hle : e.start ≤ f.start := by
      rcases List.mem_append.1 hf with hf | hf
      · exact (hFollows f hf).1
      · rw [List.mem_singleton.1 hf]
    have := hCovers.1
    omega
  have hgone : spared (done ++ [e]) e.start gone = [] := by
    apply spared_eq_nil
    intro p hle hlt
    exact takes_eq_true_iff.2 ⟨e, by simp, hle, by omega⟩
  have hback : spared (done ++ [e]) e.stop back = spared done e.stop back := by
    apply spared_congr
    intro p hle _
    exact takes_concat (fun hCovers => absurd hCovers.2 (by omega)) done
  rw [spared_append, spared_append, hOffset, ← hStop, hm, hgone, hback, List.nil_append]

/-- An edit keeps the text sound if no text has been put into its span. -/
theorem Sound.apply (h : Sound source done t) (hWithin : e.Within source)
    (hFollows : ∀ f ∈ done, f.Follows e) (hClear : ∀ f ∈ done, e.Covers f.start → f.text = []) :
    ∃ t', t.apply e = .ok t' ∧ Sound source (done ++ [e]) t' := by
  obtain ⟨front, gone, back, hsource, hstart, hstop⟩ := hWithin
  have hidle : ∀ f ∈ done, f.start < Text.size (front ++ gone) →
      f.text = [] ∧ f.stop ≤ f.start := by
    intro f hf hlt
    rw [Text.size_append] at hlt
    have hCovers : e.Covers f.start := ⟨(hFollows f hf).1, by omega⟩
    exact ⟨hClear f hf hCovers, (hFollows f hf).stop_le_of_covers hCovers⟩
  obtain ⟨tail, rfl, htail⟩ := h (front ++ gone) back hsource hidle
  rw [Text.size_append, ← hstart, ← hstop] at htail
  refine ⟨ofText 0 front ++ fresh e.text ++ tail, ?_, ?_⟩
  · refine splice_eq_ok_iff.2 ⟨ofText 0 front, ofText (Text.size front) gone, tail, ?_, ?_, ?_, rfl⟩
    · rw [ofText_append, Nat.zero_add]
    · rw [text_ofText, hstart]
    · rw [text_ofText, hstop]
  intro front' back' hsource' hidle'
  by_cases hle : Text.size front' ≤ Text.size front
  · rw [hsource, List.append_assoc] at hsource'
    obtain ⟨m, rfl, rfl⟩ := Text.exists_middle hsource'.symm hle
    refine ⟨ofText (Text.size front') m ++ fresh e.text ++ tail, ?_, ?_⟩
    · rw [ofText_append, Nat.zero_add]
      simp only [List.append_assoc]
    · rw [spared_concat hstop hFollows (by rw [hstart, Text.size_append]), survivors_append,
        survivors_append, survivors_fresh, List.append_nil, htail]
  · obtain ⟨htext, hempty⟩ := hidle' e (by simp) (by omega)
    obtain rfl : gone = [] := Text.size_eq_zero.1 (by omega)
    obtain ⟨tail', htail', hkept⟩ := h front' back' hsource' fun f hf => hidle' f (by simp [hf])
    refine ⟨tail', ?_, ?_⟩
    · rw [htext, ← htail', List.append_nil]
      exact congrArg (· ++ tail) (List.append_nil _)
    · rw [hkept]
      apply spared_congr
      intro p _ _
      refine (takes_concat ?_ done).symm
      rintro ⟨hle, hlt⟩
      omega

/-- Edits that run towards the start can be made and leave what they do not take away, if none puts
a text into the span of a later one. -/
theorem foldlM_sound (hWithin : ∀ e ∈ es, e.Within source) (hFollows : es.Pairwise Follows)
    (hClear : es.Pairwise fun f e => e.Covers f.start → f.text = []) :
    ∃ t, es.foldlM Traced.apply (ofText 0 source) = .ok t ∧ Sound source es t := by
  induction es using List.reverseRecOn with
  | nil => exact ⟨_, rfl, sound_ofText source⟩
  | append_singleton es e ih =>
    rw [List.pairwise_append] at hFollows hClear
    obtain ⟨t, hrun, hsound⟩ :=
      ih (fun f hf => hWithin f (by simp [hf])) hFollows.1 hClear.1
    obtain ⟨t', happly, hsound'⟩ := hsound.apply (hWithin e (by simp))
      (fun f hf => hFollows.2.2 f hf e (by simp)) fun f hf => hClear.2.2 f hf e (by simp)
    refine ⟨t', ?_, hsound'⟩
    rw [List.foldlM_append, hrun]
    exact (bind_pure _).trans happly

end Sound

section Stands

variable {t t' : Traced} {p : Nat} {x : Char × Option Nat} {e : Edit} {es : List Edit}

/-- The character `x` stands at the offset `p` of the text. -/
def Stands (t : Traced) (p : Nat) (x : Char × Option Nat) : Prop :=
  ∃ before after, t = before ++ x :: after ∧ Text.size before.text = p

theorem exists_middle {a b c d : Traced} (h : a ++ b = c ++ d)
    (hSize : Text.size a.text ≤ Text.size c.text) : ∃ m, c = a ++ m ∧ b = m ++ d := by
  rcases List.append_eq_append_iff.1 h with ⟨m, hc, hb⟩ | ⟨m, ha, hd⟩
  · exact ⟨m, hc, hb⟩
  · have hm : text m = [] := by
      apply Text.size_eq_zero.1
      rw [ha, text_append, Text.size_append] at hSize
      omega
    obtain rfl : m = [] := List.map_eq_nil_iff.1 hm
    exact ⟨[], by simpa using ha.symm, by simpa using hd.symm⟩

theorem size_text_cons (x : Char × Option Nat) (t : Traced) :
    Text.size (text (x :: t)) = x.1.utf8Size + Text.size t.text := Text.size_cons ..

/-- A character in front of an edit stays at its offset. -/
theorem Stands.apply_behind (h : Stands t p x) (hApply : t.apply e = .ok t')
    (hBehind : p + x.1.utf8Size ≤ e.start) : Stands t' p x := by
  obtain ⟨before, after, rfl, rfl⟩ := h
  obtain ⟨front, gone, back, hsplit, hfront, -, rfl⟩ := splice_eq_ok_iff.1 hApply
  have hsize : Text.size (text (before ++ [x])) ≤ Text.size front.text := by
    rw [text_append, Text.size_append, size_text_cons]
    exact hfront.symm ▸ hBehind
  rw [List.append_cons, List.append_assoc front] at hsplit
  obtain ⟨m, rfl, -⟩ := exists_middle hsplit hsize
  exact ⟨before, m ++ fresh e.text ++ back, by simp, rfl⟩

/-- A character that an edit does not reach stands behind it, and moves with what the edit does. -/
theorem Stands.apply_before (h : Stands t p x) (hApply : t.apply e = .ok t')
    (hReach : e.stop < p + x.1.utf8Size) :
    e.start ≤ e.stop ∧ e.stop ≤ p ∧ Stands t' (p - (e.stop - e.start) + Text.size e.text) x := by
  obtain ⟨before, after, rfl, rfl⟩ := h
  obtain ⟨front, gone, back, hsplit, hfront, hgone, rfl⟩ := splice_eq_ok_iff.1 hApply
  have hstop : Text.size (text (front ++ gone)) = e.stop := by
    rw [text_append, Text.size_append, hfront, hgone]
  rcases Nat.lt_or_ge (Text.size before.text) (Text.size (text (front ++ gone))) with hlt | hle
  · obtain ⟨m, hm, hafter⟩ := exists_middle hsplit (Nat.le_of_lt hlt)
    cases m with
    | nil =>
      rw [hm, List.append_nil] at hlt
      exact absurd hlt (Nat.lt_irrefl _)
    | cons y m =>
      obtain ⟨rfl, -⟩ := List.cons.inj hafter
      rw [hm, text_append, Text.size_append, size_text_cons] at hstop
      omega
  · obtain ⟨m, rfl, rfl⟩ := exists_middle hsplit.symm hle
    refine ⟨by omega, by omega, front ++ fresh e.text ++ m, after, by simp, ?_⟩
    simp only [text_append, text_fresh, Text.size_append]
    omega

/-- A character behind all edits that are still to be made is left. -/
theorem Stands.foldlM_before (h : Stands t p x) (hFollows : es.Pairwise Follows)
    (hStop : ∀ e ∈ es, e.stop ≤ p) (hRun : es.foldlM Traced.apply t = .ok t') :
    ∃ q, Stands t' q x := by
  induction es generalizing t p with
  | nil =>
    obtain rfl : t = t' := Except.ok.inj hRun
    exact ⟨p, h⟩
  | cons e es ih =>
    rw [List.foldlM_cons] at hRun
    obtain ⟨middle, happly, hrest⟩ := Fault.bind_eq_ok_iff.1 hRun
    have hpos := x.1.utf8Size_pos
    have hbefore := hStop e List.mem_cons_self
    obtain ⟨hle, -, hstands⟩ := h.apply_before happly (by omega)
    refine ih hstands hFollows.of_cons ?_ hrest
    intro f hf
    have hstop := hStop f (List.mem_cons_of_mem e hf)
    have hfollows := List.rel_of_pairwise_cons hFollows hf
    rcases Nat.lt_or_eq_of_le hle with hlt | heq
    · have := hfollows.stop_le_start hlt
      omega
    · omega

/-- Before the edit `o` is made, edits behind its start only move a character at the end of its
span to the right, and they do so if they put a text into the span. -/
theorem Stands.foldlM_within {o : Edit} (h : Stands t p x) (hFollows : es.Pairwise Follows)
    (hOver : ∀ f ∈ es, f.Follows o) (hReach : o.stop ≤ p + x.1.utf8Size)
    (hEnd : p + x.1.utf8Size = o.stop ∨ ∀ f ∈ es, f.start < o.stop)
    (hRun : es.foldlM Traced.apply t = .ok t') :
    ∃ q, Stands t' q x ∧ p ≤ q ∧ ∀ f ∈ es, o.Covers f.start → f.text ≠ [] → p < q := by
  induction es generalizing t p with
  | nil =>
    obtain rfl : t = t' := Except.ok.inj hRun
    exact ⟨p, h, Nat.le_refl p, by simp⟩
  | cons e es ih =>
    rw [List.foldlM_cons] at hRun
    obtain ⟨middle, happly, hrest⟩ := Fault.bind_eq_ok_iff.1 hRun
    have hrestOver : ∀ f ∈ es, f.Follows o := fun f hf => hOver f (List.mem_cons_of_mem e hf)
    have hover := hOver e List.mem_cons_self
    by_cases hlow : e.start < o.stop
    · have hempty := hover.stop_le_of_covers ⟨hover.1, hlow⟩
      obtain ⟨hle, -, hstands⟩ := h.apply_before happly (by omega)
      have hlater : ∀ f ∈ es, f.start < o.stop := by
        intro f hf
        have := (List.rel_of_pairwise_cons hFollows hf).1
        omega
      obtain ⟨q, hq, hpq, hmoved⟩ := ih hstands hFollows.of_cons hrestOver (by omega) (.inr hlater)
        hrest
      refine ⟨q, hq, by omega, ?_⟩
      intro f hf hCovers htext
      rcases List.mem_cons.1 hf with rfl | hf
      · have : Text.size f.text ≠ 0 := fun hzero => htext (Text.size_eq_zero.1 hzero)
        omega
      · have := hmoved f hf hCovers htext
        omega
    · have hend : p + x.1.utf8Size = o.stop := by
        rcases hEnd with hend | hlater
        · exact hend
        · exact absurd (hlater e List.mem_cons_self) hlow
      obtain ⟨q, hq, hpq, hmoved⟩ := ih (h.apply_behind happly (by omega)) hFollows.of_cons
        hrestOver hReach (.inl hend) hrest
      refine ⟨q, hq, hpq, ?_⟩
      intro f hf hCovers htext
      rcases List.mem_cons.1 hf with rfl | hf
      · exact absurd hCovers.2 hlow
      · exact hmoved f hf hCovers htext

theorem Stands.mem_survivors {c : Char} {offset : Nat} (h : Stands t p (c, some offset)) :
    (c, offset) ∈ t.survivors := by
  obtain ⟨before, after, rfl, -⟩ := h
  rw [survivors_append]
  exact List.mem_append_right _ List.mem_cons_self

theorem stands_ofText {front back : Text} {c : Char} :
    Stands (ofText 0 (front ++ c :: back)) (Text.size front) (c, some (Text.size front)) := by
  refine ⟨ofText 0 front, ofText (Text.size front + c.utf8Size) back, ?_, ?_⟩
  · rw [ofText_append, Nat.zero_add]
    rfl
  · rw [text_ofText]

end Stands

section Run

variable {source : Text} {es : List Edit} {t : Traced}

/-- If a text is put into the span of an edit before the edit is made, the last character of the
span is left. -/
theorem exists_survivor {fs : List Edit} {f o : Edit} (hFollows : (es ++ o :: fs).Pairwise Follows)
    (hWithin : o.Within source) (hf : f ∈ es) (hCovers : o.Covers f.start) (hText : f.text ≠ [])
    (hRun : (es ++ o :: fs).foldlM Traced.apply (ofText 0 source) = .ok t) :
    ∃ x ∈ t.survivors, o.Covers x.2 := by
  obtain ⟨front, gone, back, hsource, hstart, hstop⟩ := hWithin
  obtain ⟨hearly, hlate, hbetween⟩ := List.pairwise_append.1 hFollows
  have hne : gone ≠ [] := by
    rintro rfl
    have := hCovers.1
    have := hCovers.2
    rw [Text.size_nil] at hstop
    omega
  obtain ⟨kept, c, rfl⟩ := List.eq_nil_or_concat' gone |>.resolve_left hne
  have hpos := c.utf8Size_pos
  have hend : Text.size (front ++ kept) + c.utf8Size = o.stop := by
    rw [hstop, hstart, Text.size_append, Text.size_append, Text.size_cons, Text.size_nil]
    omega
  have hstands : Stands (ofText 0 source) (Text.size (front ++ kept))
      (c, some (Text.size (front ++ kept))) := by
    rw [hsource, ← List.append_assoc front, List.append_assoc _ [c]]
    exact stands_ofText
  rw [List.foldlM_append] at hRun
  obtain ⟨middle, hfirst, hrest⟩ := Fault.bind_eq_ok_iff.1 hRun
  obtain ⟨q, hq, -, hmoved⟩ := hstands.foldlM_within hearly
    (fun f hf => hbetween f hf o List.mem_cons_self) (Nat.le_of_eq hend.symm) (.inl hend) hfirst
  have hlt := hmoved f hf hCovers hText
  have hbind := hrest
  rw [List.foldlM_cons] at hbind
  obtain ⟨after, happly, -⟩ := Fault.bind_eq_ok_iff.1 hbind
  obtain ⟨hle, hover, -⟩ := hq.apply_before happly (by simp only; omega)
  have hStop : ∀ e ∈ o :: fs, e.stop ≤ q := by
    intro e he
    rcases List.mem_cons.1 he with rfl | he
    · exact hover
    · have := (List.rel_of_pairwise_cons hlate he).stop_le_start
        (Nat.lt_of_le_of_lt hCovers.1 hCovers.2)
      omega
  obtain ⟨r, hr⟩ := hq.foldlM_before hlate hStop hrest
  refine ⟨_, hr.mem_survivors, ?_, ?_⟩
  · rw [hstart, Text.size_append]
    exact Nat.le_add_right _ _
  · simp only
    omega

/-- Edits that run towards the start leave what they do not take away, exactly if none puts a text
into the span of a later one. -/
theorem foldlM_survivors_iff (hWithin : ∀ e ∈ es, e.Within source)
    (hFollows : es.Pairwise Follows) :
    (∃ t, es.foldlM Traced.apply (ofText 0 source) = .ok t ∧ t.survivors = spared es 0 source) ↔
      es.Pairwise fun f e => e.Covers f.start → f.text = [] := by
  constructor
  · rintro ⟨t, hrun, hsurvivors⟩
    rw [List.pairwise_iff_forall_sublist]
    intro f o hpair hCovers
    by_contra htext
    obtain ⟨front, rest, rfl, hf, ho⟩ := List.cons_sublist_iff.1 hpair
    obtain ⟨between, fs, rfl⟩ := List.append_of_mem (List.singleton_sublist.1 ho)
    rw [← List.append_assoc] at hrun hFollows hsurvivors
    have hmem : o ∈ front ++ between ++ o :: fs := by simp
    obtain ⟨x, hx, hxCovers⟩ := exists_survivor hFollows (hWithin o (by simp))
      (List.mem_append_left between hf) hCovers htext hrun
    rw [hsurvivors, spared, List.mem_filter, takes_eq_true_iff.2 ⟨o, hmem, hxCovers⟩] at hx
    exact absurd hx.2 (by simp)
  · intro hClear
    obtain ⟨t, hrun, hsound⟩ := foldlM_sound hWithin hFollows hClear
    obtain ⟨tail, rfl, htail⟩ := hsound [] source rfl (by simp)
    exact ⟨_, hrun, htail⟩

end Run

end Traced

namespace Edit

/-- No text is put into a span that is replaced later: at its inner offsets nothing is inserted,
and no empty span that starts with it has been replaced by a text before. -/
structure Unhindered (edits : List Edit) : Prop where
  inside : ∀ e ∈ edits, ∀ f ∈ edits, e.start < f.start → f.start < e.stop → f.text = []
  first : edits.Pairwise fun f e =>
    f.isReplace = true → f.start = e.start → e.start < e.stop → f.text = []

end Edit

namespace Draft

open Edit

/-- Replacements at one offset are made in the order in which they were given. -/
theorem filter_makingOrder (edits : List Edit) (p : Nat) :
    ((makingOrder edits).filter fun e => e.isReplace && e.start == p) =
      edits.filter fun e => e.isReplace && e.start == p := by
  have hinsert : ((edits.filter isInsertRight).reverse ++
      edits.filter isInsertLeft).filter isReplace = [] := by
    rw [List.filter_eq_nil_iff]
    intro e he
    simp [isReplace_of_insertion he]
  have hall : (edits.filter isReplace ++ (edits.filter isInsertRight).reverse ++
      edits.filter isInsertLeft).filter isReplace = edits.filter isReplace := by
    rw [List.append_assoc, List.filter_append, hinsert, List.append_nil, List.filter_filter]
    simp only [Bool.and_self]
  rw [← List.filter_filter, ← List.filter_filter, makingOrder, filter_mergeSort_key start,
    List.filter_comm, hall, List.filter_comm]

/-- Of two replacements at one offset, the one given first is made first. -/
theorem pair_sublist_makingOrder {edits : List Edit} {f e : Edit} (hf : f.isReplace = true)
    (he : e.isReplace = true) (hStart : f.start = e.start) :
    [f, e].Sublist (makingOrder edits) ↔ [f, e].Sublist edits := by
  have hfilter : ∀ l : List Edit, [f, e].Sublist l ↔
      [f, e].Sublist (l.filter fun g => g.isReplace && g.start == e.start) := by
    intro l
    refine ⟨fun h => ?_, fun h => h.trans List.filter_sublist⟩
    simpa [hf, he, hStart] using h.filter fun g => g.isReplace && g.start == e.start
  rw [hfilter, filter_makingOrder, ← hfilter]

theorem makingOrder_follows {edits : List Edit} (hApart : Apart edits) :
    (makingOrder edits).Pairwise Follows := by
  have hsorted := List.pairwise_reverse.1 (makingOrder_reverse_sorted edits)
  have hapart : Apart (makingOrder edits) :=
    ((makingOrder_perm edits).pairwise_iff fun {e f} hef p hf he => hef p he hf).2 hApart
  exact (hsorted.and hapart).imp fun ⟨hsorted, hapart⟩ => ⟨hsorted.1, hapart⟩

/-- What is asked of each edit and those made after it depends on the offsets, and on the order of
giving the edits only for replacements at one offset. -/
theorem pairwise_makingOrder_iff (edits : List Edit) :
    ((makingOrder edits).Pairwise fun f e => e.Covers f.start → f.text = []) ↔
      Unhindered edits := by
  have hsorted := List.pairwise_reverse.1 (makingOrder_reverse_sorted edits)
  have hperm := makingOrder_perm edits
  constructor
  · intro hClear
    refine ⟨?_, ?_⟩
    · have hsymm : Std.Symm fun f e : Edit =>
          (e.start < f.start → e.Covers f.start → f.text = []) ∧
            (f.start < e.start → f.Covers e.start → e.text = []) := ⟨fun _ _ h => h.symm⟩
      have hpairs : (makingOrder edits).Pairwise fun f e =>
          (e.start < f.start → e.Covers f.start → f.text = []) ∧
            (f.start < e.start → f.Covers e.start → e.text = []) := by
        refine (hsorted.and hClear).imp fun {f e} ⟨hsorted, hclear⟩ => ⟨fun _ => hclear, ?_⟩
        intro hlt
        have := hsorted.1
        omega
      intro e he f hf hlt hlt'
      have hne : f ≠ e := by
        rintro rfl
        omega
      exact (hpairs.forall (hperm.mem_iff.2 hf) (hperm.mem_iff.2 he) hne).1 hlt ⟨by omega, hlt'⟩
    · rw [List.pairwise_iff_forall_sublist]
      intro f e hpair hf hstart hlt
      have hpair := (pair_sublist_makingOrder hf (isReplace_of_lt hlt) hstart).2 hpair
      exact List.pairwise_iff_forall_sublist.1 hClear hpair ⟨by omega, by omega⟩
  · intro h
    rw [List.pairwise_iff_forall_sublist]
    intro f e hpair hCovers
    obtain ⟨hle, htie⟩ := List.pairwise_iff_forall_sublist.1 hsorted hpair
    have hmem : ∀ g ∈ [f, e], g ∈ edits := fun g hg => hperm.mem_iff.1 (hpair.subset hg)
    rcases Nat.lt_or_eq_of_le hle with hlt | heq
    · exact h.inside e (hmem e (by simp)) f (hmem f (by simp)) hlt hCovers.2
    · have hf := htie heq hCovers.isReplace
      have hpair := (pair_sublist_makingOrder hf hCovers.isReplace heq.symm).1 hpair
      exact List.pairwise_iff_forall_sublist.1 h.first hpair hf heq.symm
        (Nat.lt_of_le_of_lt hCovers.1 hCovers.2)

/-- The text of a revision is that of the traced source after the edits. If no two replacements
overlap, the edits can be made and the characters left of the source are those outside all replaced
spans, in their order, exactly if no text is put into a span before it is replaced. -/
theorem commit_survivors_iff (source : Text) (edits : List Edit)
    (hApart : Apart (edits.map (clamp source))) :
    (((ofText source).pushAll edits).commit =
      ((ofText source).pushAll edits).trace.map fun t =>
        ⟨source, t.text, readingOrder (edits.map (clamp source))⟩) ∧
    ((∃ t, ((ofText source).pushAll edits).trace = .ok t ∧
        t.survivors = spared (edits.map (clamp source)) 0 source) ↔
      Unhindered (edits.map (clamp source))) := by
  have hpush : (ofText source).pushAll edits = ⟨source, edits.map (clamp source)⟩ := pushAll_eq ..
  have hperm := makingOrder_perm (edits.map (clamp source))
  have hwithin : ∀ e ∈ makingOrder (edits.map (clamp source)), e.Within source := by
    intro e he
    obtain ⟨e, -, rfl⟩ := List.mem_map.1 (hperm.mem_iff.1 he)
    exact within_clamp source e
  have hspared : spared (edits.map (clamp source)) =
      spared (makingOrder (edits.map (clamp source))) := by
    funext offset t
    rw [spared, spared, takes_perm hperm]
  rw [hpush]
  refine ⟨commit_eq_trace _, ?_⟩
  rw [hspared, ← pairwise_makingOrder_iff]
  exact Traced.foldlM_survivors_iff hwithin (makingOrder_follows hApart)

/-- A text of two bytes inserted inside a replaced span of two bytes pushes the second character out
of it. -/
theorem commit_survivors_iff_inserted :
    ((ofText ['a', 'b']).pushAll
      [.replace ⟨0, 2⟩ [], .insertLeft 1 ['Y', 'Y']]).commit.map Revision.text = .ok ['Y', 'b'] ∧
    ¬ ∃ t, ((ofText ['a', 'b']).pushAll
        [.replace ⟨0, 2⟩ [], .insertLeft 1 ['Y', 'Y']]).trace = .ok t ∧
      t.survivors = spared ([.replace ⟨0, 2⟩ [], .insertLeft 1 ['Y', 'Y']].map
        (clamp ['a', 'b'])) 0 ['a', 'b'] := by
  refine ⟨?_, ?_⟩
  · have horder : makingOrder [.replace ⟨0, 2⟩ [], .insertLeft 1 ['Y', 'Y']] =
        [.insertLeft 1 ['Y', 'Y'], .replace ⟨0, 2⟩ []] := by
      change [Edit.replace ⟨0, 2⟩ [], .insertLeft 1 ['Y', 'Y']].mergeSort _ = _
      simp [List.mergeSort, start]
    have hedits : ((ofText ['a', 'b']).pushAll
        [.replace ⟨0, 2⟩ [], .insertLeft 1 ['Y', 'Y']]).edits =
        [.replace ⟨0, 2⟩ [], .insertLeft 1 ['Y', 'Y']] := by decide
    rw [commit, hedits, horder]
    rfl
  rw [(commit_survivors_iff ['a', 'b'] [.replace ⟨0, 2⟩ [], .insertLeft 1 ['Y', 'Y']] ?_).2]
  · intro h
    exact absurd (h.inside (.replace ⟨0, 2⟩ []) (by decide) (.insertLeft 1 ['Y', 'Y']) (by decide)
      (by decide) (by decide)) (by decide)
  · refine List.pairwise_pair.2 ?_
    intro p _ hCovers
    exact absurd hCovers.isReplace (by decide)

end Draft

end BindBlocks
