import BindBlocks.Locator
import BindBlocks.Proofs.Lines
import Mathlib.Data.List.Induction

/-! Carrying an offset along pins that rise on both sides. A `Rail` is such a row of pins, given by
the offsets that they pin to each other. The pin that an offset is measured from is always the
last one at or before it; the pin after it only matters on the same line. -/

namespace BindBlocks

namespace Pin

/-- A choice that prefers each pin to those before it chooses the last one. -/
theorem foldl_last {step : Option Pin → Pin → Option Pin} {R : Pin → Pin → Prop} {pins : List Pin}
    (hNone : ∀ a, step none a = some a) (hSome : ∀ b a, R b a → step (some b) a = some a)
    (hPins : pins.Pairwise R) : pins.foldl step none = pins.getLast? := by
  induction pins using List.reverseRecOn with
  | nil => rfl
  | append_singleton pins a ih =>
    rw [List.pairwise_append] at hPins
    rw [List.foldl_append, List.foldl_cons, List.foldl_nil, ih hPins.1, List.getLast?_concat]
    cases hlast : pins.getLast? with
    | none => exact hNone a
    | some b => exact hSome b a (hPins.2.2 b (List.mem_of_getLast? hlast) a List.mem_cons_self)

theorem foldl_leftmost {pins : List Pin}
    (hPins : pins.Pairwise fun a b => a.place.column < b.place.column) :
    pins.foldl leftmost none = pins.head? := by
  cases pins with
  | nil => rfl
  | cons a pins =>
    rw [List.foldl_cons, List.head?_cons]
    have hfirst : ∀ b ∈ pins, a.place.column < b.place.column := fun b hb =>
      List.rel_of_pairwise_cons hPins hb
    show pins.foldl leftmost (some a) = some a
    clear hPins
    induction pins with
    | nil => rfl
    | cons b pins ih =>
      have hlt := hfirst b List.mem_cons_self
      have hstep : leftmost (some a) b = some a := if_neg (by omega)
      rw [List.foldl_cons, hstep]
      exact ih fun c hc => hfirst c (List.mem_cons_of_mem b hc)

end Pin

/-- The line tables of two texts and the offsets that are pinned to each other, in order. -/
structure Rail where
  here : LineTable
  there : LineTable
  anchors : List (Nat × Nat)
  hereProper : here.Proper
  thereProper : there.Proper
  rising : anchors.Pairwise fun x y => x.1 < y.1 ∧ x.2 < y.2
  inside : ∀ x ∈ anchors, x.2 ≤ there.size
  fits : there.size < Offset.bound

namespace Rail

variable {r : Rail} {p q : Nat} {x y : Nat × Nat}

def pin (r : Rail) (x : Nat × Nat) : Pin :=
  ⟨(r.here.position x.1).numbered, (r.there.position x.2).numbered⟩

def carry (r : Rail) (offset : Nat) : Except Fault Nat :=
  Locator.carry (r.anchors.map r.pin) r.here r.there offset

/-- The last anchor at or before an offset. -/
structure Nearest (r : Rail) (p : Nat) (x : Nat × Nat) : Prop where
  mem : x ∈ r.anchors
  le : x.1 ≤ p
  last : ∀ y ∈ r.anchors, y.1 ≤ p → y.1 ≤ x.1

/-- The first anchor after an offset on its line. -/
def next? (r : Rail) (p : Nat) : Option (Nat × Nat) :=
  r.anchors.find? fun y => r.here.lineAt y.1 == r.here.lineAt p && p < y.1

/-- Where an offset goes if its line there is long enough. -/
def target (r : Rail) (p : Nat) (x : Nat × Nat) : Nat :=
  if r.here.lineAt x.1 = r.here.lineAt p then
    match r.next? p with
    | some y =>
      if r.there.lineAt y.2 = r.there.lineAt x.2 then min (x.2 + (p - x.1)) y.2
      else x.2 + (p - x.1)
    | none => x.2 + (p - x.1)
  else
    r.there.startAt x.2 +
      ((x.2 - r.there.startAt x.2 : Nat) + (p - r.here.startAt p : Nat) -
        (x.1 - r.here.startAt x.1 : Nat) : Int).toNat

theorem snd_le_of_fst_le (r : Rail) (hx : x ∈ r.anchors) (hy : y ∈ r.anchors) (hle : x.1 ≤ y.1) :
    x.2 ≤ y.2 := by
  have hall : ∀ ⦃x⦄, x ∈ r.anchors → ∀ ⦃y⦄, y ∈ r.anchors → x.1 ≤ y.1 → x.2 ≤ y.2 :=
    List.Pairwise.forall_of_forall_of_flip (fun _ _ _ => Nat.le_refl _)
      (r.rising.imp fun hlt _ => Nat.le_of_lt hlt.2)
      (r.rising.imp fun hlt hle => absurd hle (Nat.not_le.2 hlt.1))
  exact hall hx hy hle

theorem snd_lt_of_fst_lt (r : Rail) (hx : x ∈ r.anchors) (hy : y ∈ r.anchors) (hlt : x.1 < y.1) :
    x.2 < y.2 := by
  have hall : ∀ ⦃x⦄, x ∈ r.anchors → ∀ ⦃y⦄, y ∈ r.anchors → x.1 < y.1 → x.2 < y.2 :=
    List.Pairwise.forall_of_forall_of_flip (fun _ _ hlt => absurd hlt (Nat.lt_irrefl _))
      (r.rising.imp fun hlt _ => hlt.2)
      (r.rising.imp fun hlt hlt' => absurd hlt' (Nat.not_lt.2 (Nat.le_of_lt hlt.1)))
  exact hall hx hy hlt

theorem getLast?_of_max {l : List (Nat × Nat)} (hl : l.Sublist r.anchors) (hx : x ∈ l)
    (hMax : ∀ y ∈ l, y.1 ≤ x.1) : l.getLast? = some x := by
  obtain ⟨front, back, rfl⟩ := List.append_of_mem hx
  cases back with
  | nil => exact List.getLast?_concat
  | cons y back =>
    have hrising := (r.rising.sublist hl)
    rw [List.pairwise_append] at hrising
    have hlt := (List.rel_of_pairwise_cons hrising.2.1 List.mem_cons_self).1
    have := hMax y (by simp)
    omega

/-- The pins of the anchors that satisfy a condition. -/
theorem filter_pins {P : Pin → Bool} {Q : Nat × Nat → Bool}
    (h : ∀ x ∈ r.anchors, P (r.pin x) = Q x) :
    (r.anchors.map r.pin).filter P = (r.anchors.filter Q).map r.pin := by
  rw [List.filter_map, List.filter_congr (p := P ∘ r.pin) (q := Q) fun x hx => h x hx]

theorem pin_line (r : Rail) (p : Nat) (y : Nat × Nat) :
    ((r.pin y).place.line == r.here.lineAt p + 1) = (r.here.lineAt y.1 == r.here.lineAt p) := by
  rw [Bool.eq_iff_iff]
  simp only [pin, r.hereProper.position_eq, Position.numbered, beq_iff_eq,
    Nat.add_right_cancel_iff]

/-- On the line of an offset, the column of a pin is compared as its anchor is. -/
theorem pin_column_le (r : Rail) (hLine : r.here.lineAt y.1 = r.here.lineAt p) :
    (r.pin y).place.column ≤ p - r.here.startAt p ↔ y.1 ≤ p := by
  have := r.hereProper.startAt_congr hLine
  have := r.hereProper.startAt_le y.1
  have := r.hereProper.startAt_le p
  simp only [pin, r.hereProper.position_eq, Position.numbered]
  omega

/-- On one line, the columns of the pins are in the order of the anchors. -/
theorem columns_rising (r : Rail) (line : Nat) {Q : Nat × Nat → Bool}
    (hLine : ∀ x, Q x = true → r.here.lineAt x.1 = line) :
    ((r.anchors.filter Q).map r.pin).Pairwise fun a b => a.place.column < b.place.column := by
  rw [List.pairwise_map]
  apply List.Pairwise.imp_of_mem _ (r.rising.filter Q)
  intro x y hx hy hlt
  have hsame := (hLine x (List.mem_filter.1 hx).2).trans (hLine y (List.mem_filter.1 hy).2).symm
  have := r.hereProper.startAt_congr hsame
  have := r.hereProper.startAt_le x.1
  simp only [pin, r.hereProper.position_eq, Position.numbered]
  omega

theorem nearest?_eq (r : Rail) (p : Nat) :
    Pin.nearest? (r.anchors.map r.pin) (r.here.lineAt p + 1) (p - r.here.startAt p) =
      ((r.anchors.filter fun y => r.here.lineAt y.1 == r.here.lineAt p && y.1 ≤ p).getLast?).map
        r.pin := by
  have hfilter := filter_pins (r := r)
    (P := fun a => a.place.line == r.here.lineAt p + 1 && a.place.column ≤ p - r.here.startAt p)
    (Q := fun y => r.here.lineAt y.1 == r.here.lineAt p && y.1 ≤ p) (by
      intro y _
      rw [pin_line, Bool.eq_iff_iff]
      simp only [Bool.and_eq_true, beq_iff_eq, decide_eq_true_eq]
      exact and_congr_right r.pin_column_le)
  rw [Pin.nearest?, hfilter, List.getLast?_map.symm]
  apply Pin.foldl_last (fun _ => rfl) _ (r.columns_rising (r.here.lineAt p) _)
  · intro b a hlt
    exact if_neg (by omega)
  · intro x hx
    simp only [Bool.and_eq_true, beq_iff_eq] at hx
    exact hx.1

theorem next?_eq (r : Rail) (p : Nat) :
    Pin.next? (r.anchors.map r.pin) (r.here.lineAt p + 1) (p - r.here.startAt p) =
      (r.next? p).map r.pin := by
  have hfilter := filter_pins (r := r)
    (P := fun a => a.place.line == r.here.lineAt p + 1 && p - r.here.startAt p < a.place.column)
    (Q := fun y => r.here.lineAt y.1 == r.here.lineAt p && p < y.1) (by
      intro y _
      rw [pin_line, Bool.eq_iff_iff]
      simp only [Bool.and_eq_true, beq_iff_eq, decide_eq_true_eq, ← Nat.not_le]
      exact and_congr_right fun hline => not_congr (r.pin_column_le hline))
  rw [Pin.next?, hfilter, next?, ← List.head?_filter, ← List.head?_map]
  apply Pin.foldl_leftmost
  apply r.columns_rising (r.here.lineAt p)
  intro x hx
  simp only [Bool.and_eq_true, beq_iff_eq] at hx
  exact hx.1

theorem lastBefore?_eq (r : Rail) (p : Nat) :
    Pin.lastBefore? (r.anchors.map r.pin) (r.here.lineAt p + 1) =
      ((r.anchors.filter fun y => r.here.lineAt y.1 < r.here.lineAt p).getLast?).map r.pin := by
  have hfilter := filter_pins (r := r) (P := fun a => a.place.line < r.here.lineAt p + 1)
    (Q := fun y => r.here.lineAt y.1 < r.here.lineAt p) (by
      intro y _
      simp only [pin, r.hereProper.position_eq, Position.numbered, Nat.add_lt_add_iff_right])
  rw [Pin.lastBefore?, hfilter, List.getLast?_map.symm]
  refine Pin.foldl_last (R := fun a b => a.place.line ≤ b.place.line) (fun _ => rfl) ?_ ?_
  · intro b a hle
    exact if_neg (by omega)
  · rw [List.pairwise_map]
    refine (r.rising.filter _).imp fun {x y} hlt => ?_
    have := r.hereProper.lineAt_mono (Nat.le_of_lt hlt.1)
    simp only [pin, r.hereProper.position_eq, Position.numbered]
    omega

/-- The pin to measure from is the last one at or before the offset, on whatever line. -/
theorem find?_eq (h : r.Nearest p x) :
    Pin.find? (r.anchors.map r.pin) (r.here.lineAt p + 1) (p - r.here.startAt p) =
      some (r.pin x,
        if r.here.lineAt x.1 = r.here.lineAt p then (r.next? p).map r.pin else none) := by
  have hline := r.hereProper.lineAt_mono h.le
  rw [Pin.find?, nearest?_eq]
  by_cases hsame : r.here.lineAt x.1 = r.here.lineAt p
  · rw [getLast?_of_max List.filter_sublist (x := x)
      (List.mem_filter.2 ⟨h.mem, by simp [hsame, h.le]⟩) ?_, if_pos hsame, ← next?_eq]
    · rfl
    · intro y hy
      obtain ⟨hmem, hcond⟩ := List.mem_filter.1 hy
      simp only [Bool.and_eq_true, decide_eq_true_eq] at hcond
      exact h.last y hmem hcond.2
  · have hnone : (r.anchors.filter fun y =>
        r.here.lineAt y.1 == r.here.lineAt p && decide (y.1 ≤ p)) = [] := by
      rw [List.filter_eq_nil_iff]
      intro y hy hcond
      simp only [Bool.and_eq_true, beq_iff_eq, decide_eq_true_eq] at hcond
      have := r.hereProper.lineAt_mono (h.last y hy hcond.2)
      omega
    rw [hnone, List.getLast?_nil, Option.map_none, if_neg hsame]
    simp only
    rw [lastBefore?_eq, getLast?_of_max List.filter_sublist (x := x)
      (List.mem_filter.2 ⟨h.mem, decide_eq_true (by omega)⟩) ?_]
    · rfl
    · intro y hy
      obtain ⟨hmem, hlt⟩ := List.mem_filter.1 hy
      apply h.last y hmem
      rcases Nat.lt_or_ge p y.1 with hpast | hle
      · have := r.hereProper.lineAt_mono (Nat.le_of_lt hpast)
        have := of_decide_eq_true hlt
        omega
      · exact hle

theorem startAt_le_target (r : Rail) (p : Nat) (x : Nat × Nat) :
    r.there.startAt x.2 ≤ r.target p x := by
  have hx := r.thereProper.startAt_le x.2
  rw [target]
  split
  · split
    · rename_i y _
      split
      · rename_i hline
        have := r.thereProper.startAt_congr hline
        have := r.thereProper.startAt_le y.2
        omega
      · omega
    · omega
  · omega

theorem target_le (r : Rail) (p : Nat) (x : Nat × Nat) : r.target p x ≤ x.2 + p := by
  have hx := r.thereProper.startAt_le x.2
  rw [target]
  split
  · split
    · split <;> omega
    · omega
  · omega

theorem land_eq (h : r.Nearest p x) :
    (r.pin x).land (if r.here.lineAt x.1 = r.here.lineAt p then (r.next? p).map r.pin else none)
        (p - r.here.startAt p) =
      ⟨r.there.lineAt x.2, min (r.target p x - r.there.startAt x.2) (Offset.bound - 1)⟩ := by
  have hp := r.hereProper.startAt_le p
  have hx := r.hereProper.startAt_le x.1
  have hx' := r.thereProper.startAt_le x.2
  have hle := h.le
  by_cases hsame : r.here.lineAt x.1 = r.here.lineAt p
  · have hstart := r.hereProper.startAt_congr hsame
    rw [if_pos hsame, target, if_pos hsame]
    cases hnext : r.next? p with
    | none =>
      simp only [Pin.land, Option.map_none, pin, r.hereProper.position_eq,
        r.thereProper.position_eq, Position.numbered, Nat.add_sub_cancel, Position.mk.injEq,
        true_and]
      congr 1
      omega
    | some y =>
      have hy := r.thereProper.startAt_le y.2
      simp only [Pin.land, Option.map_some, pin, r.hereProper.position_eq,
        r.thereProper.position_eq, Position.numbered, Nat.add_right_cancel_iff, Nat.add_sub_cancel,
        Position.mk.injEq, true_and]
      by_cases hline : r.there.lineAt y.2 = r.there.lineAt x.2
      · have hystart := r.thereProper.startAt_congr hline
        have hxy : x.2 ≤ y.2 := by
          have hfind := List.find?_some hnext
          simp only [Bool.and_eq_true, decide_eq_true_eq] at hfind
          exact r.snd_le_of_fst_le h.mem (List.mem_of_find?_eq_some hnext) (by omega)
        rw [if_pos hline, if_pos hline]
        congr 1
        omega
      · rw [if_neg hline, if_neg hline]
        congr 1
        omega
  · rw [if_neg hsame, target, if_neg hsame]
    simp only [Pin.land, pin, r.hereProper.position_eq, r.thereProper.position_eq,
      Position.numbered, Nat.add_sub_cancel, Position.mk.injEq, true_and]
    congr 1
    omega

theorem carry_nearest (h : r.Nearest p x) :
    r.carry p =
      (r.there.offsetWithin
        ⟨r.there.lineAt x.2, min (r.target p x - r.there.startAt x.2) (Offset.bound - 1)⟩).map
        (min · (r.there.stopAt x.2)) := by
  rw [carry, Locator.carry, r.hereProper.position_eq]
  simp only [find?_eq h, land_eq h, r.thereProper.stop?_lineAt]
  generalize r.there.offsetWithin _ = landed
  cases landed <;> rfl

/-- Carrying an offset to its target, but not past the end of the line there. -/
theorem carry_eq (h : r.Nearest p x) (hFits : r.target p x < Offset.bound) :
    r.carry p = .ok (min (r.target p x) (r.there.stopAt x.2)) := by
  have hstart := r.startAt_le_target p x
  have hstop := r.thereProper.stopAt_le_size x.2
  rw [carry_nearest h, show min (r.target p x - r.there.startAt x.2) (Offset.bound - 1) =
    r.target p x - r.there.startAt x.2 by omega, r.thereProper.offsetWithin_eq _ _ (by omega)]
  simp only [Except.map]
  congr 1
  omega

theorem eq_of_carry (h : r.Nearest p x) {n : Nat} (hn : r.carry p = .ok n) :
    n = min (r.target p x) (r.there.stopAt x.2) := by
  have hstart := r.startAt_le_target p x
  have hstop := r.thereProper.stopAt_le_size x.2
  have hfits := r.fits
  rw [carry_nearest h] at hn
  by_cases hlt : r.there.startAt x.2 +
      min (r.target p x - r.there.startAt x.2) (Offset.bound - 1) < Offset.bound
  · rw [r.thereProper.offsetWithin_eq _ _ hlt] at hn
    simp only [Except.map, Except.ok.injEq] at hn
    omega
  · rw [LineTable.offsetWithin, LineTable.offset?, (r.thereProper.spec x.2).1] at hn
    simp only [Offset.add, if_neg hlt] at hn
    exact absurd hn (by simp [Except.map, bind, Except.bind])

theorem nearest_self (hx : x ∈ r.anchors) : r.Nearest x.1 x :=
  ⟨hx, Nat.le_refl _, fun _ _ hle => hle⟩

theorem Nearest.exists_of_mem (hx : x ∈ r.anchors) (hle : x.1 ≤ p) : ∃ y, r.Nearest p y := by
  have hrising := r.rising.filter (·.1 ≤ p)
  have hmem : ∀ y, y ∈ r.anchors.filter (·.1 ≤ p) ↔ y ∈ r.anchors ∧ y.1 ≤ p := by simp
  generalize r.anchors.filter (·.1 ≤ p) = before at hrising hmem
  rcases List.eq_nil_or_concat before with rfl | ⟨front, last, rfl⟩
  · exact absurd ((hmem x).2 ⟨hx, hle⟩) (by simp)
  · obtain ⟨hlast, hlastLe⟩ := (hmem last).1 (by simp)
    refine ⟨last, hlast, hlastLe, fun y hy hyp => ?_⟩
    rw [List.concat_eq_append] at hmem hrising
    rcases List.mem_append.1 ((hmem y).2 ⟨hy, hyp⟩) with hy | hy
    · exact Nat.le_of_lt ((List.pairwise_append.1 hrising).2.2 y hy last List.mem_cons_self).1
    · exact Nat.le_of_eq (congrArg Prod.fst (List.mem_singleton.1 hy))

theorem Nearest.unique (hx : r.Nearest p x) (hy : r.Nearest p y) : x = y := by
  have hfst : x.1 = y.1 := Nat.le_antisymm (hy.last x hx.mem hx.le) (hx.last y hy.mem hy.le)
  have hsnd : x.2 = y.2 := Nat.le_antisymm (r.snd_le_of_fst_le hx.mem hy.mem (Nat.le_of_eq hfst))
    (r.snd_le_of_fst_le hy.mem hx.mem (Nat.le_of_eq hfst.symm))
  exact Prod.ext hfst hsnd

theorem Nearest.le_stopAt (h : r.Nearest p x) : x.2 ≤ r.there.stopAt x.2 :=
  r.thereProper.le_stopAt (r.inside x h.mem)

/-- The next anchor on a line is the first of those after the offset. -/
theorem next?_spec (hy : y ∈ r.anchors) (hlt : p < y.1)
    (hLine : r.here.lineAt y.1 = r.here.lineAt p) :
    ∃ z ∈ r.anchors, r.next? p = some z ∧ p < z.1 ∧ z.1 ≤ y.1 := by
  cases hnext : r.next? p with
  | none =>
    have := List.find?_eq_none.1 hnext y hy
    simp [hLine, hlt] at this
  | some z =>
    have hz := List.find?_some hnext
    simp only [Bool.and_eq_true, decide_eq_true_eq] at hz
    refine ⟨z, List.mem_of_find?_eq_some hnext, rfl, hz.2, ?_⟩
    obtain ⟨-, front, back, hsplit, hnone⟩ := List.find?_eq_some_iff_append.1 hnext
    have hrising := r.rising
    rw [hsplit] at hy hrising
    rcases List.mem_append.1 hy with hy | hy
    · have := hnone y hy
      simp [hLine, hlt] at this
    · rcases List.mem_cons.1 hy with rfl | hy
      · exact Nat.le_refl _
      · rw [List.pairwise_append] at hrising
        exact Nat.le_of_lt (List.rel_of_pairwise_cons hrising.2.1 hy).1

theorem le_target (h : r.Nearest p x) (hLine : r.here.lineAt x.1 = r.here.lineAt p) :
    x.2 ≤ r.target p x := by
  rw [target, if_pos hLine]
  cases hnext : r.next? p with
  | none => exact Nat.le_add_right _ _
  | some y =>
    have hy := List.find?_some hnext
    simp only [Bool.and_eq_true, decide_eq_true_eq] at hy
    have hle := h.le
    have hxy := r.snd_le_of_fst_le h.mem (List.mem_of_find?_eq_some hnext) (by omega)
    simp only
    split <;> omega

/-- An anchor is carried to the other side of it. -/
theorem carry_anchor (hx : x ∈ r.anchors) : r.carry x.1 = .ok x.2 := by
  have h := nearest_self hx
  have hge := le_target h rfl
  have htarget : r.target x.1 x ≤ x.2 := by
    rw [target, if_pos rfl]
    split <;> (try split) <;> omega
  have hsize := r.inside x hx
  have hfits := r.fits
  have hstop := h.le_stopAt
  rw [carry_eq h (by omega)]
  congr 1
  omega

theorem le_carry (h : r.Nearest p x) (hLine : r.here.lineAt x.1 = r.here.lineAt p) {n : Nat}
    (hn : r.carry p = .ok n) : x.2 ≤ n := by
  have := eq_of_carry h hn
  have := le_target h hLine
  have := h.le_stopAt
  omega

/-- Nothing is carried past a later anchor of its line. -/
theorem carry_le_of_lt (h : r.Nearest p x) (hLine : r.here.lineAt x.1 = r.here.lineAt p)
    (hy : y ∈ r.anchors) (hlt : p < y.1) (hyLine : r.here.lineAt y.1 = r.here.lineAt p) {n : Nat}
    (hn : r.carry p = .ok n) : n ≤ y.2 := by
  obtain ⟨z, hz, hnext, hpz, hzy⟩ := next?_spec hy hlt hyLine
  have hcarry := eq_of_carry h hn
  have hle := h.le
  have hzy' := r.snd_le_of_fst_le hz hy hzy
  have hxz := r.snd_lt_of_fst_lt h.mem hz (by omega)
  by_cases hthere : r.there.lineAt z.2 = r.there.lineAt x.2
  · have htarget : r.target p x ≤ z.2 := by
      rw [target, if_pos hLine, hnext]
      simp only [hthere, if_true]
      exact Nat.min_le_right _ _
    omega
  · have hmono := r.thereProper.lineAt_mono (Nat.le_of_lt hxz)
    have hstop := r.thereProper.stopAt_lt_startAt (Nat.lt_of_le_of_ne hmono (Ne.symm hthere))
    have := r.thereProper.startAt_le z.2
    omega

/-- On one line, offsets that are measured from the same anchor keep their order. -/
theorem target_mono (hp : r.Nearest p x) (hq : r.Nearest q x) (hle : p ≤ q)
    (hpLine : r.here.lineAt x.1 = r.here.lineAt p) (hqLine : r.here.lineAt x.1 = r.here.lineAt q) :
    r.target p x ≤ r.target q x := by
  have hnext : r.next? p = r.next? q := by
    rw [next?, next?, ← List.head?_filter, ← List.head?_filter]
    congr 1
    refine List.filter_congr fun y hy => ?_
    have hqy := hq.last y hy
    have hpx := hp.le
    rw [← hpLine, ← hqLine, Bool.eq_iff_iff]
    simp only [Bool.and_eq_true, decide_eq_true_eq]
    refine and_congr_right fun _ => ⟨fun hlt => ?_, fun hlt => by omega⟩
    rcases Nat.lt_or_ge q y.1 with hlt' | hge
    · exact hlt'
    · have := hqy hge
      omega
  rw [target, target, if_pos hpLine, if_pos hqLine, hnext]
  split
  · split <;> omega
  · omega

theorem carry_blank (h : r.Nearest p x) (hBlank : r.there.IsBlankAt x.2) {n : Nat}
    (hn : r.carry p = .ok n) : n = x.2 := by
  have := eq_of_carry h hn
  have := r.startAt_le_target p x
  obtain ⟨hstart, hstop⟩ := hBlank
  omega

/-- Where the start of a line goes that is measured from an anchor on an earlier line. -/
theorem target_start (hLine : r.here.lineAt x.1 ≠ r.here.lineAt p)
    (hStart : r.here.startAt p = p) :
    r.target p x = r.there.startAt x.2 +
      ((x.2 - r.there.startAt x.2) - (x.1 - r.here.startAt x.1)) := by
  have hx := r.hereProper.startAt_le x.1
  have hx' := r.thereProper.startAt_le x.2
  rw [target, if_neg hLine, hStart]
  omega

/-- If the start of a line is measured from an anchor on an earlier line and goes to no offset
before it, the anchor starts a line here or there. -/
theorem starts_of_le_carry (h : r.Nearest p x) (hLine : r.here.lineAt x.1 ≠ r.here.lineAt p)
    (hStart : r.here.startAt p = p) {n : Nat} (hn : r.carry p = .ok n) (hle : x.2 ≤ n) :
    r.there.startAt x.2 = x.2 ∨ r.here.startAt x.1 = x.1 := by
  have hcarry := eq_of_carry h hn
  have htarget := target_start hLine hStart
  have hx := r.hereProper.startAt_le x.1
  have hx' := r.thereProper.startAt_le x.2
  omega

/-- If a line ends after an anchor, and the next line has no anchor at its start, then keeping the
order of these two offsets takes an anchor at the end of its line there. Moreover it must start a
line here or there. -/
theorem ends_of_carry_le (hp : r.Nearest p x) (hq : r.Nearest (p + 1) x) (hlt : x.1 < p)
    (hLine : r.here.lineAt x.1 = r.here.lineAt p)
    (hNext : r.here.lineAt p < r.here.lineAt (p + 1)) (hStart : r.here.startAt (p + 1) = p + 1)
    {m n : Nat} (hm : r.carry p = .ok m) (hn : r.carry (p + 1) = .ok n) (hle : m ≤ n) :
    r.there.stopAt x.2 = x.2 ∧ (r.there.startAt x.2 = x.2 ∨ r.here.startAt x.1 = x.1) := by
  have hmEq := eq_of_carry hp hm
  have hnEq := eq_of_carry hq hn
  have hstop := hp.le_stopAt
  have hx' := r.thereProper.startAt_le x.2
  have hnone : r.next? p = none := by
    rw [next?, List.find?_eq_none]
    intro y _ hy
    simp only [Bool.and_eq_true, beq_iff_eq, decide_eq_true_eq] at hy
    have := r.hereProper.lineAt_mono (show p + 1 ≤ y.1 from hy.2)
    omega
  have hend : r.target p x = x.2 + (p - x.1) := by rw [target, if_pos hLine, hnone]
  have hother : r.here.lineAt x.1 ≠ r.here.lineAt (p + 1) := by omega
  have hbegin := target_start hother hStart
  exact ⟨by omega, starts_of_le_carry hq hother hStart hn (by omega)⟩

/-- Carrying keeps the order of offsets if every offset on a line without an earlier anchor is
measured from an anchor on a blank line there, and a line there ends before the anchors of later
lines here. -/
theorem carry_mono (hGap : ∀ p x, r.Nearest p x → r.here.lineAt x.1 ≠ r.here.lineAt p →
      r.there.IsBlankAt x.2)
    (hEnd : ∀ p x y, r.Nearest p x → y ∈ r.anchors → p < y.1 →
      r.here.lineAt y.1 ≠ r.here.lineAt p → r.there.stopAt x.2 ≤ y.2)
    (hx : r.Nearest p x) (hle : p ≤ q) {m n : Nat} (hm : r.carry p = .ok m)
    (hn : r.carry q = .ok n) : m ≤ n := by
  obtain ⟨y, hy⟩ := Nearest.exists_of_mem hx.mem (Nat.le_trans hx.le hle)
  have hxy : x.1 ≤ y.1 := hy.last x hx.mem (Nat.le_trans hx.le hle)
  have hmx := eq_of_carry hx hm
  have hyn : y.2 ≤ n := by
    by_cases hline : r.here.lineAt y.1 = r.here.lineAt q
    · exact le_carry hy hline hn
    · exact Nat.le_of_eq (carry_blank hy (hGap q y hy hline) hn).symm
  rcases Nat.lt_or_ge p y.1 with hlt | hge
  · refine Nat.le_trans ?_ hyn
    by_cases hyLine : r.here.lineAt y.1 = r.here.lineAt p
    · by_cases hxLine : r.here.lineAt x.1 = r.here.lineAt p
      · exact carry_le_of_lt hx hxLine hy.mem hlt hyLine hm
      · rw [carry_blank hx (hGap p x hx hxLine) hm]
        exact r.snd_le_of_fst_le hx.mem hy.mem hxy
    · have := hEnd p x y hx hy.mem hlt hyLine
      omega
  · obtain rfl : x = y := hx.unique ⟨hy.mem, hge, fun z hz hzp => hy.last z hz (by omega)⟩
    by_cases hline : r.here.lineAt x.1 = r.here.lineAt q
    · have hpLine : r.here.lineAt x.1 = r.here.lineAt p := by
        have := r.hereProper.lineAt_mono hge
        have := r.hereProper.lineAt_mono hle
        omega
      have := target_mono hx hy hle hpLine hline
      have := eq_of_carry hy hn
      omega
    · have hblank := hGap q x hy hline
      rw [carry_blank hx hblank hm]
      exact hyn

end Rail

end BindBlocks
