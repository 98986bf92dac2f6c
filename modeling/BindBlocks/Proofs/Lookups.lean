import BindBlocks.Proofs.Anchors
import BindBlocks.Proofs.ForeignMaps

/-! When a lookup is refused. The pins of a map that comes from elsewhere can name any line and any
column, so where a lookup goes is said of pins in any order: `Measured` describes the pin that a
place is measured from. The answer is refused exactly if that pin leads to a line of the other text
and the start of the line and the column on it have no sum in 32 bits. -/

namespace BindBlocks

namespace Pin

/-- What a choice among the pins that satisfy `p` comes to, from left to right: each one before it
gives way to it, and it is kept against each one after it. -/
def Chosen (p : Pin → Bool) (keeps : Pin → Pin → Prop) (pins : List Pin) (a : Pin) : Prop :=
  ∃ front back, pins = front ++ a :: back ∧ p a = true ∧
    (∀ b ∈ front, p b = true → ¬ keeps b a) ∧ ∀ b ∈ back, p b = true → keeps a b

theorem Chosen.unique {p : Pin → Bool} {keeps : Pin → Pin → Prop} {pins : List Pin} {a b : Pin}
    (ha : Chosen p keeps pins a) (hb : Chosen p keeps pins b) : a = b := by
  obtain ⟨front, back, rfl, hpa, hfront, hback⟩ := ha
  obtain ⟨front', back', hsplit, hpb, hfront', hback'⟩ := hb
  rcases List.append_eq_append_iff.1 hsplit with ⟨middle, rfl, hrest⟩ | ⟨middle, rfl, hrest⟩
  · cases middle with
    | nil => exact (List.cons.inj hrest).1
    | cons c middle =>
      obtain ⟨rfl, rfl⟩ := List.cons.inj hrest
      exact absurd (hback b (by simp) hpb) (hfront' a (by simp) hpa)
  · cases middle with
    | nil => exact (List.cons.inj hrest).1.symm
    | cons c middle =>
      obtain ⟨rfl, rfl⟩ := List.cons.inj hrest
      exact absurd (hback' a (by simp) hpa) (hfront b (by simp) hpb)

/-- One step of a choice keeps the pin that it has or takes the next one. -/
structure Choice (step : Option Pin → Pin → Option Pin) (keeps : Pin → Pin → Prop) : Prop where
  first : ∀ a, step none a = some a
  stay : ∀ b a, keeps b a → step (some b) a = some b
  leave : ∀ b a, ¬ keeps b a → step (some b) a = some a
  trans : ∀ a b c, keeps a b → keeps b c → keeps a c
  trans_not : ∀ a b c, ¬ keeps a b → ¬ keeps b c → ¬ keeps a c

namespace Choice

variable {step : Option Pin → Pin → Option Pin} {keeps : Pin → Pin → Prop} {p : Pin → Bool}

theorem foldl_cases (h : Choice step keeps) (pins : List Pin) :
    ((pins.filter p).foldl step none = none ∧ ∀ a ∈ pins, p a = false) ∨
      ∃ a, (pins.filter p).foldl step none = some a ∧ Chosen p keeps pins a := by
  induction pins using List.reverseRecOn with
  | nil => exact .inl ⟨rfl, by simp⟩
  | append_singleton pins b ih =>
    cases hb : p b with
    | false =>
      rw [List.filter_append, List.filter_cons_of_neg (by simp [hb]), List.filter_nil,
        List.append_nil]
      rcases ih with ⟨hnone, hall⟩ | ⟨a, hsome, front, back, rfl, hpa, hfront, hback⟩
      · refine .inl ⟨hnone, fun a ha => ?_⟩
        rcases List.mem_append.1 ha with ha | ha
        · exact hall a ha
        · rw [List.mem_singleton.1 ha, hb]
      · refine .inr ⟨a, hsome, front, back ++ [b], by simp, hpa, hfront, fun c hc hpc => ?_⟩
        rcases List.mem_append.1 hc with hc | hc
        · exact hback c hc hpc
        · rw [List.mem_singleton.1 hc, hb] at hpc
          exact absurd hpc (by decide)
    | true =>
      rw [List.filter_append, List.filter_cons_of_pos hb, List.filter_nil, List.foldl_append,
        List.foldl_cons, List.foldl_nil]
      rcases ih with ⟨hnone, hall⟩ | ⟨a, hsome, front, back, rfl, hpa, hfront, hback⟩
      · rw [hnone, h.first]
        refine .inr ⟨b, rfl, pins, [], rfl, hb, fun c hc hpc => ?_, by simp⟩
        rw [hall c hc] at hpc
        exact absurd hpc (by decide)
      · rw [hsome]
        by_cases hkeep : keeps a b
        · rw [h.stay a b hkeep]
          refine .inr ⟨a, rfl, front, back ++ [b], by simp, hpa, hfront, fun c hc hpc => ?_⟩
          rcases List.mem_append.1 hc with hc | hc
          · exact hback c hc hpc
          · rwa [List.mem_singleton.1 hc]
        · rw [h.leave a b hkeep]
          refine .inr ⟨b, rfl, front ++ a :: back, [], rfl, hb, fun c hc hpc => ?_, by simp⟩
          rcases List.mem_append.1 hc with hc | hc
          · exact h.trans_not c a b (hfront c hc hpc) hkeep
          · rcases List.mem_cons.1 hc with rfl | hc
            · exact hkeep
            · exact fun hcb => hkeep (h.trans a c b (hback c hc hpc) hcb)

theorem foldl_eq_some_iff (h : Choice step keeps) {pins : List Pin} {a : Pin} :
    (pins.filter p).foldl step none = some a ↔ Chosen p keeps pins a := by
  rcases h.foldl_cases (p := p) pins with ⟨hnone, hall⟩ | ⟨b, hsome, hchosen⟩
  · rw [hnone]
    refine ⟨fun heq => absurd heq (by simp), fun hchosen => ?_⟩
    obtain ⟨front, back, rfl, hpa, -⟩ := hchosen
    rw [hall a (by simp)] at hpa
    exact absurd hpa (by decide)
  · rw [hsome, Option.some.injEq]
    exact ⟨fun heq => heq ▸ hchosen, fun ha => hchosen.unique ha⟩

theorem foldl_eq_none_iff (h : Choice step keeps) {pins : List Pin} :
    (pins.filter p).foldl step none = none ↔ ∀ a ∈ pins, p a = false := by
  rcases h.foldl_cases (p := p) pins with ⟨hnone, hall⟩ | ⟨b, hsome, front, back, rfl, hpb, -⟩
  · exact ⟨fun _ => hall, fun _ => hnone⟩
  · rw [hsome]
    refine ⟨fun heq => absurd heq (by simp), fun hall => ?_⟩
    rw [hall b (by simp)] at hpb
    exact absurd hpb (by decide)

end Choice

/-- The pin stands at or before a column of a line. -/
def reaches (line column : Nat) (a : Pin) : Bool := a.place.line == line && a.place.column ≤ column

/-- The pin stands behind a column of a line. -/
def passes (line column : Nat) (a : Pin) : Bool := a.place.line == line && column < a.place.column

/-- By column, and by target column of pins at the same column. -/
def IsLeftOf (a b : Pin) : Prop :=
  a.place.column < b.place.column ∨
    (a.place.column = b.place.column ∧ a.target.column < b.target.column)

theorem rightmost_choice : Choice rightmost fun b a => a.place.column < b.place.column where
  first _ := rfl
  stay _ _ h := if_pos h
  leave _ _ h := if_neg h
  trans := by omega
  trans_not := by omega

theorem lowermost_choice : Choice lowermost fun b a => a.place.line < b.place.line where
  first _ := rfl
  stay _ _ h := if_pos h
  leave _ _ h := if_neg h
  trans := by omega
  trans_not := by omega

theorem leftmost_choice : Choice leftmost fun b a => ¬ a.IsLeftOf b where
  first _ := rfl
  stay _ _ h := if_neg h
  leave _ _ h := if_pos (not_not.1 h)
  trans := by
    unfold IsLeftOf
    omega
  trans_not := by
    unfold IsLeftOf
    omega

/-- The pin that limits what is carried from a place: the leftmost behind it on its line, of equals
the first. -/
def Limited (pins : List Pin) (line column : Nat) : Option Pin → Prop
  | none => ∀ a ∈ pins, passes line column a = false
  | some next => Chosen (passes line column) (fun b a => ¬ a.IsLeftOf b) pins next

/-- The pin that a place is measured from: the rightmost at or before it on its line, and if there
is none, the lowest above its line; of equals the last. Only the former has a limit. -/
inductive Measured (pins : List Pin) (line column : Nat) : Pin → Option Pin → Prop
  | onLine {a : Pin} {next : Option Pin} :
      Chosen (reaches line column) (fun b a => a.place.column < b.place.column) pins a →
      Limited pins line column next → Measured pins line column a next
  | above {a : Pin} :
      (∀ b ∈ pins, reaches line column b = false) →
      Chosen (fun b => b.place.line < line) (fun b a => a.place.line < b.place.line) pins a →
      Measured pins line column a none

theorem nearest?_eq_some_iff {pins : List Pin} {line column : Nat} {a : Pin} :
    nearest? pins line column = some a ↔
      Chosen (reaches line column) (fun b a => a.place.column < b.place.column) pins a :=
  rightmost_choice.foldl_eq_some_iff

theorem nearest?_eq_none_iff {pins : List Pin} {line column : Nat} :
    nearest? pins line column = none ↔ ∀ a ∈ pins, reaches line column a = false :=
  rightmost_choice.foldl_eq_none_iff

theorem next?_eq_iff {pins : List Pin} {line column : Nat} {next : Option Pin} :
    next? pins line column = next ↔ Limited pins line column next := by
  cases next with
  | none => exact leftmost_choice.foldl_eq_none_iff
  | some a => exact leftmost_choice.foldl_eq_some_iff

theorem find?_eq_some_iff {pins : List Pin} {line column : Nat} {a : Pin} {next : Option Pin} :
    find? pins line column = some (a, next) ↔ Measured pins line column a next := by
  rw [find?]
  constructor
  · intro h
    split at h
    · rename_i b hnearest
      obtain ⟨rfl, hnext⟩ := Prod.mk.inj (Option.some.inj h)
      exact .onLine (nearest?_eq_some_iff.1 hnearest) (next?_eq_iff.1 hnext)
    · rename_i hnearest
      obtain ⟨b, hlast, heq⟩ := Option.map_eq_some_iff.1 h
      obtain ⟨rfl, rfl⟩ := Prod.mk.inj heq
      exact .above (nearest?_eq_none_iff.1 hnearest) (lowermost_choice.foldl_eq_some_iff.1 hlast)
  · rintro (⟨hchosen, hlimited⟩ | ⟨hnone, hchosen⟩)
    · rw [nearest?_eq_some_iff.2 hchosen, ← next?_eq_iff.2 hlimited]
    · have hlast : lastBefore? pins line = some a := lowermost_choice.foldl_eq_some_iff.2 hchosen
      rw [nearest?_eq_none_iff.2 hnone, hlast]
      rfl

end Pin

namespace LineTable

/-- The offset of a position by the start of its line, which there may not be. -/
theorem offsetWithin_cases (table : LineTable) (p : Position) :
    (table.start? p.line = none ∧ table.offsetWithin p = .ok table.size) ∨
      ∃ start, table.start? p.line = some start ∧
        (start + p.column < Offset.bound ∧
            table.offsetWithin p = .ok (min (start + p.column) table.size) ∨
          Offset.bound ≤ start + p.column ∧ table.offsetWithin p = .error .addOverflow) := by
  rw [offsetWithin, offset?]
  cases hstart : table.start? p.line with
  | none => exact .inl ⟨rfl, rfl⟩
  | some start =>
    refine .inr ⟨start, rfl, ?_⟩
    by_cases hfits : start + p.column < Offset.bound
    · simp only [Offset.add_eq_ok hfits]
      exact .inl ⟨hfits, rfl⟩
    · simp only [Offset.add, if_neg hfits]
      exact .inr ⟨Nat.le_of_not_lt hfits, rfl⟩

/-- Among the lines of all texts whose size is an offset, the number of a single one is none. -/
theorem bound_le_line_iff {t : Text} {offset : Nat} (hSize : Text.size t < Offset.bound)
    (hOffset : offset < Offset.bound) :
    Offset.bound ≤ ((ofText t).position offset).line + 1 ↔
      t = List.replicate (Offset.bound - 1) '\n' ∧ offset = Offset.bound - 1 := by
  have h := ofText_proper t
  rw [show ((ofText t).position offset).line = (ofText t).lineAt offset from rfl]
  constructor
  · intro hline
    have hcount := h.lt_count offset
    have hstart := h.line_le_start (h.spec offset).1
    have hle := h.startAt_le offset
    refine ⟨?_, by omega⟩
    by_contra hne
    have hlines := (Text.addressable_iff.2 ⟨hSize, hne⟩).lines
    omega
  · rintro ⟨ht, rfl⟩
    have hcount : (ofText t).count = Offset.bound := by
      rw [Text.count_ofText, ht, List.count_replicate_self]
      rfl
    have hlast : (ofText t).start? (Offset.bound - 1) = some _ :=
      List.getElem?_eq_getElem (show Offset.bound - 1 < (ofText t).starts.length by
        rw [← count, hcount]; decide)
    have hinside : _ ≤ Text.size t := h.inside _ (List.mem_iff_getElem?.2 ⟨_, hlast⟩)
    have hline : Offset.bound - 1 ≤ (ofText t).lineAt (Offset.bound - 1) :=
      h.le_lineAt hlast (by omega)
    omega

end LineTable

namespace Locator

/-- A lookup of an offset leads to a line of the other text, and to a column on it that has no
offset in 32 bits. -/
def Overshoots (pins : List Pin) (here there : LineTable) (offset : Nat) : Prop :=
  ∃ a next start,
    Pin.Measured pins ((here.position offset).line + 1) (here.position offset).column a next ∧
    there.start? (a.target.line - 1) = some start ∧
    Offset.bound ≤ start + (a.land next (here.position offset).column).column

/-- What a lookup comes to. The line that it looks for, counted from one, has 32 bits but at the end
of a single text, which is made of line feeds. Its column has 32 bits, and so has its answer unless
it is refused. -/
structure Answers (pins : List Pin) (here there : Text) (offset : Nat)
    (answer : Except Fault Nat) : Prop where
  line : Offset.bound ≤ ((LineTable.ofText here).position offset).line + 1 ↔
    here = List.replicate (Offset.bound - 1) '\n' ∧ offset = Offset.bound - 1
  column : ((LineTable.ofText here).position offset).column < Offset.bound
  refused : answer = .error .addOverflow ↔ Overshoots pins (.ofText here) (.ofText there) offset
  given : (∃ n < Offset.bound, answer = .ok n) ↔
    ¬ Overshoots pins (.ofText here) (.ofText there) offset

theorem overshoots_iff {pins : List Pin} {here there : LineTable} {offset : Nat} {a : Pin}
    {next : Option Pin}
    (h : Pin.Measured pins ((here.position offset).line + 1) (here.position offset).column a next) :
    Overshoots pins here there offset ↔
      ∃ start, there.start? (a.target.line - 1) = some start ∧
        Offset.bound ≤ start + (a.land next (here.position offset).column).column := by
  constructor
  · rintro ⟨b, next', start, hmeasured, hstart, hpast⟩
    have hsame := Pin.find?_eq_some_iff.2 h
    rw [Pin.find?_eq_some_iff.2 hmeasured, Option.some.injEq, Prod.mk.injEq] at hsame
    obtain ⟨rfl, rfl⟩ := hsame
    exact ⟨start, hstart, hpast⟩
  · rintro ⟨start, hstart, hpast⟩
    exact ⟨a, next, start, h, hstart, hpast⟩

/-- A lookup that goes somewhere is answered within the other text. -/
theorem carry_eq_ok {pins : List Pin} {here there : LineTable} {offset landed : Nat} {a : Pin}
    {next : Option Pin}
    (h : Pin.find? pins ((here.position offset).line + 1) (here.position offset).column =
      some (a, next))
    (hLanded : there.offsetWithin (a.land next (here.position offset).column) = .ok landed) :
    ∃ n ≤ landed, carry pins here there offset = .ok n := by
  simp only [carry, h, hLanded]
  cases there.stop? (a.land next (here.position offset).column).line with
  | none => exact ⟨landed, Nat.le_refl _, rfl⟩
  | some stop => exact ⟨min landed stop, Nat.min_le_left _ _, rfl⟩

theorem carry_cases (pins : List Pin) (here : LineTable) {there : LineTable} {offset : Nat}
    (hSize : there.size < Offset.bound) (hOffset : offset < Offset.bound) :
    (Overshoots pins here there offset ∧ carry pins here there offset = .error .addOverflow) ∨
      ¬ Overshoots pins here there offset ∧
        ∃ n < Offset.bound, carry pins here there offset = .ok n := by
  cases hfind : Pin.find? pins ((here.position offset).line + 1) (here.position offset).column with
  | none =>
    refine .inr ⟨?_, offset, hOffset, by simp only [carry, hfind]⟩
    rintro ⟨a, next, start, hmeasured, -⟩
    rw [Pin.find?_eq_some_iff.2 hmeasured] at hfind
    exact absurd hfind (by simp)
  | some found =>
    obtain ⟨a, next⟩ := found
    rw [overshoots_iff (Pin.find?_eq_some_iff.1 hfind)]
    rcases there.offsetWithin_cases (a.land next (here.position offset).column) with
      ⟨hnone, hlanded⟩ | ⟨start, hstart, ⟨hfits, hlanded⟩ | ⟨hpast, hlanded⟩⟩
    · obtain ⟨n, hn, hcarry⟩ := carry_eq_ok hfind hlanded
      refine .inr ⟨?_, n, by omega, hcarry⟩
      rintro ⟨start, hstart, -⟩
      exact absurd (hnone.symm.trans hstart) (by simp)
    · obtain ⟨n, hn, hcarry⟩ := carry_eq_ok hfind hlanded
      refine .inr ⟨?_, n, by omega, hcarry⟩
      rintro ⟨start', hstart', hpast⟩
      obtain rfl := Option.some.inj (hstart.symm.trans hstart')
      omega
    · refine .inl ⟨⟨start, hstart, hpast⟩, ?_⟩
      simp only [carry, hfind, hlanded]
      rfl

theorem carry_answers (pins : List Pin) {here there : Text} {offset : Nat}
    (hHere : Text.size here < Offset.bound) (hThere : Text.size there < Offset.bound)
    (hOffset : offset < Offset.bound) :
    Answers pins here there offset (carry pins (.ofText here) (.ofText there) offset) := by
  have hcases := carry_cases pins (.ofText here)
    (show (LineTable.ofText there).size < Offset.bound from hThere) hOffset
  refine ⟨LineTable.bound_le_line_iff hHere hOffset, ?_, ?_, ?_⟩
  · rw [(LineTable.ofText_proper here).position_eq]
    show offset - _ < _
    omega
  · rcases hcases with ⟨hover, hcarry⟩ | ⟨hover, n, -, hcarry⟩ <;> simp [hover, hcarry]
  · rcases hcases with ⟨hover, hcarry⟩ | ⟨hover, n, hn, hcarry⟩
    · simp [hover, hcarry]
    · exact ⟨fun _ => hover, fun _ => ⟨n, hn, hcarry⟩⟩

/-- Along any map, well formed or not, a lookup is answered exactly if it does not overshoot, and is
otherwise refused for the sum of a line start and a column. -/
theorem lookups_answered_iff (source generated mappings : Text) (offset : Nat)
    (hSource : Text.size source < Offset.bound) (hGenerated : Text.size generated < Offset.bound)
    (hOffset : offset < Offset.bound) :
    let l := ofEntries source generated (Mapping.decode mappings)
    (∀ e ∈ Mapping.decode mappings, e.mapping.Fits) ∧
      Answers l.fromSource source generated offset (l.toGenerated offset) ∧
      Answers l.fromGenerated generated source offset (l.toSource offset) := by
  intro l
  exact ⟨fun e => Mapping.decode_fits, carry_answers _ hSource hGenerated hOffset,
    carry_answers _ hGenerated hSource hOffset⟩

theorem lookups_answered_iff_last_column :
    let l := ofEntries "\n".toList "x".toList (Mapping.decode "AAC+/////H".toList)
    l.toSource 0 = .error .addOverflow ∧ ∃ n < Offset.bound, l.toGenerated 0 = .ok n := by
  obtain ⟨-, hthere, hback⟩ := lookups_answered_iff "\n".toList "x".toList "AAC+/////H".toList 0
    (by decide) (by decide) (by decide)
  have hdecode : Mapping.decode "AAC+/////H".toList =
      [⟨⟨1, 0⟩, ⟨2, 4294967295⟩, some 0, none⟩] := by decide +kernel
  simp only [hdecode, ofEntries, List.map_cons, List.map_nil] at hthere hback ⊢
  refine ⟨hback.refused.2 ⟨⟨⟨1, 0⟩, ⟨2, 4294967295⟩⟩, none, 1, ?_, rfl, by decide⟩,
    hthere.given.2 ?_⟩
  · exact .onLine ⟨[], [], rfl, rfl, by simp, by simp⟩ (by simp [Pin.Limited]; decide)
  · rintro ⟨a, next, start, hmeasured, -⟩
    rcases hmeasured with ⟨⟨front, back, hpins, ha, -⟩, -⟩ | ⟨-, front, back, hpins, ha, -⟩
    all_goals
      have hmem : a ∈ [(⟨⟨2, 4294967295⟩, ⟨1, 0⟩⟩ : Pin)] := by rw [hpins]; simp
      rw [List.mem_singleton.1 hmem] at ha
      exact absurd ha (by decide)

end Locator

end BindBlocks
