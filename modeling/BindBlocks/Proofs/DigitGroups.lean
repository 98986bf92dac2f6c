import BindBlocks.Proofs.Digits
import Mathlib.Data.Nat.Digits.Defs

/-! Segments as groups of digits. A group spells one number: digits that another one follows, and a
last digit. The numbers of a segment are read off the payloads of its groups, and how large they are
does not matter here. `decode?` reads nothing but groups, of at most thirteen digits, and keeps the
lowest 64 bits of each. So what is written is read back, nothing shorter is read in the same way,
and a number is misread if it spills over the last of thirteen digits. -/

namespace BindBlocks

namespace Vlq

/-- The numbers of 64 bits. -/
def Fits (n : Int) : Prop := -2 ^ 63 ≤ n ∧ n < 2 ^ 63

/-- A number as it is spelled: the payloads of the digits that another one follows, and that of the
last digit. -/
structure DigitGroup where
  more : List (Fin 32)
  last : Fin 32
  deriving DecidableEq, Repr

namespace DigitGroup

def text (g : DigitGroup) : Text := g.more.map (fun d => digit (d.val + 32)) ++ [digit g.last.val]

/-- The word that the payloads make up, however long it is. -/
def word (g : DigitGroup) : Nat := Nat.ofDigits 32 (g.more.map Fin.val ++ [g.last.val])

def value (g : DigitGroup) : Int := ofWord g.word

/-- The number that the lowest 64 bits of the word stand for. -/
def lowValue (g : DigitGroup) : Int := ofWord (g.word % 2 ^ 64)

/-- The last of thirteen digits has a bit that a word of 64 bits has no place for. -/
def Spills (g : DigitGroup) : Prop := g.more.length = 12 ∧ 16 ≤ g.last.val

end DigitGroup

/-- A segment of several numbers. -/
def spell (gs : List DigitGroup) : Text := gs.flatMap DigitGroup.text

theorem digitValue?_eq_some {c : Char} {d : Nat} (h : digitValue? c = some d) :
    d < 64 ∧ c = digit d := by
  obtain ⟨hd, hc, -⟩ := List.findIdx?_eq_some_iff_getElem.1 h
  refine ⟨hd, ?_⟩
  rw [digit, List.getD_eq_getElem?_getD, List.getElem?_eq_getElem hd, Option.getD_some]
  exact (beq_iff_eq.1 hc).symm

theorem digit_inj {m n : Nat} (hm : m < 64) (hn : n < 64) (h : digit m = digit n) : m = n := by
  have hvalue := digitValue?_digit m hm
  rw [h, digitValue?_digit n hn] at hvalue
  exact (Option.some.inj hvalue).symm

section Reading

variable {w shift : Nat}

/-- No number has more than thirteen digits. -/
theorem decodeFrom_late (hShift : 60 < shift) (c : Char) (t : Text) :
    decodeFrom w shift (c :: t) = none := by
  rw [decodeFrom]
  cases digitValue? c <;> simp [hShift]

theorem decodeFrom_more (hShift : shift ≤ 60) (d : Fin 32) (t : Text) :
    decodeFrom w shift (digit (d.val + 32) :: t) =
      decodeFrom ((w + d.val * 2 ^ shift) % 2 ^ 64) (shift + 5) t := by
  have hd := d.isLt
  rw [decodeFrom, digitValue?_digit _ (by omega)]
  simp only [show ¬ 60 < shift by omega, if_false, show 32 ≤ d.val + 32 by omega, if_true,
    show (d.val + 32) % 32 = d.val by omega, Nat.shiftLeft_eq, Nat.one_mul]

theorem decodeFrom_last (hShift : shift ≤ 60) (d : Fin 32) (t : Text) :
    decodeFrom w shift (digit d.val :: t) =
      (decodeFrom 0 0 t).map (ofWord ((w + d.val * 2 ^ shift) % 2 ^ 64) :: ·) := by
  have hd := d.isLt
  rw [decodeFrom, digitValue?_digit _ (by omega)]
  simp only [show ¬ 60 < shift by omega, if_false, show ¬ 32 ≤ d.val by omega,
    Nat.mod_eq_of_lt hd, Nat.shiftLeft_eq, Nat.one_mul]

end Reading

namespace DigitGroup

theorem text_cons (d : Fin 32) (more : List (Fin 32)) (last : Fin 32) :
    text ⟨d :: more, last⟩ = digit (d.val + 32) :: text ⟨more, last⟩ := rfl

theorem word_nil (last : Fin 32) : word ⟨[], last⟩ = last := Nat.ofDigits_singleton

theorem word_cons (d : Fin 32) (more : List (Fin 32)) (last : Fin 32) :
    word ⟨d :: more, last⟩ = d + 32 * word ⟨more, last⟩ := Nat.ofDigits_cons

theorem word_eq (g : DigitGroup) :
    g.word = Nat.ofDigits 32 (g.more.map Fin.val) + 32 ^ g.more.length * g.last := by
  rw [word, Nat.ofDigits_append, Nat.ofDigits_singleton, List.length_map]

theorem ofDigits_more_lt (g : DigitGroup) :
    Nat.ofDigits 32 (g.more.map Fin.val) < 32 ^ g.more.length := by
  have hlt := Nat.ofDigits_lt_base_pow_length (b := 32) (l := g.more.map Fin.val) (by decide)
  rw [List.length_map] at hlt
  apply hlt
  intro x hx
  obtain ⟨d, -, rfl⟩ := List.mem_map.1 hx
  exact d.isLt

theorem word_lt (g : DigitGroup) : g.word < 32 ^ (g.more.length + 1) := by
  have hmore := g.ofDigits_more_lt
  have hlast := Nat.mul_le_mul_left (32 ^ g.more.length) (Nat.le_of_lt_succ g.last.isLt)
  rw [word_eq, pow_succ]
  omega

/-- A group is read after the low bits `w` of its number, `shift` of them, if its digits end within
the thirteen. -/
theorem decodeFrom_text (g : DigitGroup) (w shift : Nat) (rest : Text) :
    decodeFrom w shift (g.text ++ rest) =
      if shift + 5 * g.more.length ≤ 60 then
        (decodeFrom 0 0 rest).map (ofWord ((w + g.word * 2 ^ shift) % 2 ^ 64) :: ·)
      else none := by
  obtain ⟨more, last⟩ := g
  induction more generalizing w shift with
  | nil =>
    rw [word_nil]
    by_cases hroom : shift ≤ 60
    · rw [if_pos (by simpa using hroom)]
      exact decodeFrom_last hroom last rest
    · rw [if_neg (by simpa using hroom)]
      exact decodeFrom_late (by omega) _ rest
  | cons d more ih =>
    rw [text_cons, List.cons_append]
    by_cases hroom : shift ≤ 60
    · have hword : ((w + d.val * 2 ^ shift) % 2 ^ 64 +
          word ⟨more, last⟩ * 2 ^ (shift + 5)) % 2 ^ 64 =
            (w + word ⟨d :: more, last⟩ * 2 ^ shift) % 2 ^ 64 := by
        rw [Nat.mod_add_mod, word_cons, pow_add]
        congr 1
        ring
      rw [decodeFrom_more hroom, ih, hword]
      exact if_congr (by simp only [List.length_cons]; omega) rfl rfl
    · rw [decodeFrom_late (by omega), if_neg (by simp only [List.length_cons]; omega)]

end DigitGroup

theorem decode?_spell (gs : List DigitGroup) :
    decode? (spell gs) =
      if ∀ g ∈ gs, g.more.length ≤ 12 then some (gs.map DigitGroup.lowValue) else none := by
  induction gs with
  | nil => rfl
  | cons g gs ih =>
    rw [decode?] at ih ⊢
    rw [spell, List.flatMap_cons, g.decodeFrom_text, ← spell, ih]
    simp only [Nat.zero_add, pow_zero, Nat.mul_one, List.forall_mem_cons, List.map_cons]
    by_cases hfirst : g.more.length ≤ 12
    · rw [if_pos (by omega)]
      split <;> simp_all [DigitGroup.lowValue]
    · rw [if_neg (by omega), if_neg (fun h => hfirst h.1)]

/-- Whatever is read is spelled by groups, and the digits of a number that has begun belong to one
of them. -/
theorem exists_spell_of_decodeFrom {w shift : Nat} {s : Text} {values : List Int}
    (h : decodeFrom w shift s = some values) : ∃ gs, s = spell gs ∧ (shift ≠ 0 → gs ≠ []) := by
  induction s generalizing w shift values with
  | nil =>
    refine ⟨[], rfl, fun hshift => ?_⟩
    rw [decodeFrom, if_neg hshift] at h
    exact absurd h (by simp)
  | cons c t ih =>
    rw [decodeFrom] at h
    cases hdigit : digitValue? c with
    | none => simp [hdigit] at h
    | some d =>
      obtain ⟨hd, rfl⟩ := digitValue?_eq_some hdigit
      simp only [hdigit] at h
      split at h
      · exact absurd h (by simp)
      · split at h
        · rename_i hmore
          obtain ⟨gs, rfl, hne⟩ := ih h
          obtain ⟨g, gs, rfl⟩ := List.exists_cons_of_ne_nil (hne (by omega))
          refine ⟨⟨⟨d - 32, by omega⟩ :: g.more, g.last⟩ :: gs, ?_, by simp⟩
          simp only [spell, List.flatMap_cons, DigitGroup.text_cons, List.cons_append,
            Nat.sub_add_cancel hmore]
        · rename_i hlast
          obtain ⟨values, hrest, -⟩ := Option.map_eq_some_iff.1 h
          obtain ⟨gs, rfl, -⟩ := ih hrest
          exact ⟨⟨[], ⟨d, by omega⟩⟩ :: gs, rfl, by simp⟩

theorem decode?_eq_some_iff {s : Text} {values : List Int} :
    decode? s = some values ↔
      ∃ gs, s = spell gs ∧ (∀ g ∈ gs, g.more.length ≤ 12) ∧
        values = gs.map DigitGroup.lowValue := by
  constructor
  · intro h
    obtain ⟨gs, rfl, -⟩ := exists_spell_of_decodeFrom h
    rw [decode?_spell] at h
    split at h
    · rename_i hshort
      exact ⟨gs, rfl, hshort, (Option.some.inj h).symm⟩
    · exact absurd h (by simp)
  · rintro ⟨gs, rfl, hshort, rfl⟩
    rw [decode?_spell, if_pos hshort]

theorem natAbs_ofWord (w : Nat) : (ofWord w).natAbs = w / 2 := by
  rw [ofWord]
  split <;> omega

section Shortest

theorem utf8Size_digit (n : Nat) : (digit n).utf8Size = 1 := by
  have hall : alphabet.all (·.utf8Size == 1) = true := by decide +kernel
  exact beq_iff_eq.1 (List.all_eq_true.1 hall _ (digit_mem n))

theorem DigitGroup.size_text (g : DigitGroup) : Text.size g.text = g.more.length + 1 := by
  obtain ⟨more, last⟩ := g
  induction more with
  | nil => exact utf8Size_digit last
  | cons d more ih =>
    rw [text_cons, Text.size_cons, ih, utf8Size_digit]
    exact Nat.add_comm 1 (more.length + 1)

theorem size_digits_le {w k : Nat} (h : w < 32 ^ (k + 1)) : Text.size (digits w) ≤ k + 1 := by
  induction k generalizing w with
  | zero =>
    rw [digits, if_pos (by simpa using h), Text.size_cons, utf8Size_digit]
    exact Nat.le_refl 1
  | succ k ih =>
    rw [digits]
    split
    · rw [Text.size_cons, utf8Size_digit, Text.size_nil]
      omega
    · have hrest := ih (w := w / 32) (by rw [pow_succ] at h; omega)
      rw [Text.size_cons, utf8Size_digit]
      omega

/-- A number is written with its own word, or with a smaller one: zero has no sign. -/
theorem word_ofWord_le {w : Nat} (h : w < 2 ^ 64) : word (ofWord w) ≤ w := by
  have habs := natAbs_ofWord w
  have hmod : 2 * (w / 2) % 2 ^ 64 = 2 * (w / 2) := Nat.mod_eq_of_lt (by omega)
  rw [word, Nat.shiftLeft_eq, Nat.one_mul, habs, hmod]
  split
  · rename_i hneg
    rw [ofWord] at hneg
    split at hneg <;> omega
  · omega

/-- What is read of a group is written with no more digits. -/
theorem size_encode_le (g : DigitGroup) : Text.size (encode g.lowValue) ≤ Text.size g.text := by
  have hlow : word g.lowValue ≤ g.word % 2 ^ 64 := word_ofWord_le (Nat.mod_lt _ (by decide))
  have hword : word g.lowValue < 32 ^ (g.more.length + 1) :=
    Nat.lt_of_le_of_lt (Nat.le_trans hlow (Nat.mod_le _ _)) g.word_lt
  rw [g.size_text]
  exact size_digits_le hword

theorem size_encode_le_spell (gs : List DigitGroup) :
    Text.size ((gs.map DigitGroup.lowValue).flatMap encode) ≤ Text.size (spell gs) := by
  induction gs with
  | nil => exact Nat.le_refl 0
  | cons g gs ih =>
    have hfirst := size_encode_le g
    rw [spell] at ih ⊢
    simp only [List.map_cons, List.flatMap_cons, Text.size_append]
    omega

/-- The least number of 64 bits is the only one that is not written. -/
theorem natAbs_lt_iff {n : Int} : n.natAbs < 2 ^ 63 ↔ Fits n ∧ n ≠ -2 ^ 63 := by
  rw [Fits]
  omega

theorem decode?_flatMap_encode {values : List Int} (h : ∀ n ∈ values, n.natAbs < 2 ^ 63) :
    decode? (values.flatMap encode) = some values := by
  induction values with
  | nil => rfl
  | cons n values ih =>
    rw [List.forall_mem_cons] at h
    rw [decode?, List.flatMap_cons, decodeFrom_encode h.1, ← decode?, ih h.2]
    rfl

/-- What is written is read back, and whatever is read can be written with no more digits. -/
theorem decode?_shortest :
    (∀ values : List Int, (∀ n ∈ values, Fits n ∧ n ≠ -2 ^ 63) →
        decode? (values.flatMap encode) = some values) ∧
      ∀ (s : Text) (values : List Int), decode? s = some values →
        (∀ n ∈ values, Fits n ∧ n ≠ -2 ^ 63) ∧
          Text.size (values.flatMap encode) ≤ Text.size s ∧
          decode? (values.flatMap encode) = some values := by
  refine ⟨fun values h => decode?_flatMap_encode fun n hn => natAbs_lt_iff.2 (h n hn), ?_⟩
  intro s values h
  obtain ⟨gs, rfl, -, rfl⟩ := decode?_eq_some_iff.1 h
  have hfits : ∀ n ∈ gs.map DigitGroup.lowValue, n.natAbs < 2 ^ 63 := by
    intro n hn
    obtain ⟨g, -, rfl⟩ := List.mem_map.1 hn
    have := Nat.mod_lt g.word (show 2 ^ 64 > 0 by decide)
    rw [DigitGroup.lowValue, natAbs_ofWord]
    omega
  exact ⟨fun n hn => natAbs_lt_iff.1 (hfits n hn), size_encode_le_spell gs,
    decode?_flatMap_encode hfits⟩

/-- The number next to the least one comes back, and a padded zero and a zero with a sign are
written with fewer digits. -/
theorem decode?_shortest_zeros :
    decode? ([-2 ^ 63 + 1, 16].flatMap encode) = some [-2 ^ 63 + 1, 16] ∧
      decode? "gAB".toList = some [0, 0] ∧
      Text.size ([0, 0].flatMap encode) ≤ Text.size "gAB".toList := by
  have hread : decode? "gAB".toList = some [0, 0] := by decide +kernel
  exact ⟨decode?_shortest.1 _ (by simp [Fits]), hread, (decode?_shortest.2 _ _ hread).2.1⟩

end Shortest

section Misread

/-- The groups of a segment are determined by its digits. -/
theorem DigitGroup.text_append_inj {g g' : DigitGroup} {s s' : Text}
    (h : g.text ++ s = g'.text ++ s') : g = g' ∧ s = s' := by
  obtain ⟨more, last⟩ := g
  obtain ⟨more', last'⟩ := g'
  have hlast := last.isLt
  have hlast' := last'.isLt
  induction more generalizing more' with
  | nil =>
    cases more' with
    | nil =>
      obtain ⟨hdigit, hrest⟩ := List.cons.inj h
      obtain rfl : last = last' := Fin.ext (digit_inj (by omega) (by omega) hdigit)
      exact ⟨rfl, hrest⟩
    | cons d' more' =>
      have := digit_inj (by omega) (by omega) (List.cons.inj h).1
      omega
  | cons d more ih =>
    cases more' with
    | nil =>
      have := digit_inj (by omega) (by omega) (List.cons.inj h).1
      omega
    | cons d' more' =>
      obtain ⟨hdigit, hrest⟩ := List.cons.inj h
      have hd := digit_inj (by omega) (by omega) hdigit
      obtain rfl : d = d' := Fin.ext (Nat.add_right_cancel hd)
      obtain ⟨hsame, hs⟩ := ih more' hrest
      obtain ⟨rfl, rfl⟩ := DigitGroup.mk.inj hsame
      exact ⟨rfl, hs⟩

theorem spell_inj {gs gs' : List DigitGroup} (h : spell gs = spell gs') : gs = gs' := by
  have hne : ∀ g : DigitGroup, ∀ s, g.text ++ s ≠ [] := by simp [DigitGroup.text]
  induction gs generalizing gs' with
  | nil =>
    cases gs' with
    | nil => rfl
    | cons g' gs' => exact absurd h.symm (hne g' _)
  | cons g gs ih =>
    cases gs' with
    | nil => exact absurd h (hne g _)
    | cons g' gs' =>
      obtain ⟨rfl, hrest⟩ := DigitGroup.text_append_inj h
      rw [ih hrest]

/-- The word of at most thirteen digits has 64 bits, unless it spills. -/
theorem DigitGroup.word_lt_iff {g : DigitGroup} (hShort : g.more.length ≤ 12) :
    g.word < 2 ^ 64 ↔ ¬ g.Spills := by
  have hmore := g.ofDigits_more_lt
  rw [DigitGroup.Spills, g.word_eq]
  rcases Nat.lt_or_eq_of_le hShort with hlt | heq
  · have hpower : 32 ^ (g.more.length + 1) ≤ 32 ^ 12 := Nat.pow_le_pow_right (by decide) hlt
    have hword := g.word_lt
    rw [g.word_eq] at hword
    omega
  · rw [heq] at hmore ⊢
    omega

/-- Reading keeps the number of a word of 64 bits, and of no other. -/
theorem DigitGroup.lowValue_eq_iff (g : DigitGroup) : g.lowValue = g.value ↔ g.word < 2 ^ 64 := by
  constructor
  · intro h
    have hlow := natAbs_ofWord (g.word % 2 ^ 64)
    have hvalue := natAbs_ofWord g.word
    rw [DigitGroup.lowValue, DigitGroup.value] at h
    rw [h, hvalue] at hlow
    omega
  · intro h
    rw [DigitGroup.lowValue, Nat.mod_eq_of_lt h, DigitGroup.value]

theorem DigitGroup.fits_value {g : DigitGroup} (h : g.word < 2 ^ 64) : Fits g.value := by
  have hvalue := natAbs_ofWord g.word
  rw [← DigitGroup.value] at hvalue
  rw [Fits]
  omega

/-- What is read of a segment are the numbers of its groups, and nothing is read of it if one of
them has no 64 bits. -/
structure Faithful (s : Text) : Prop where
  numbers : ∀ values, decode? s = some values →
    ∃ gs, s = spell gs ∧ values = gs.map DigitGroup.value
  refused : ∀ gs, s = spell gs → (∃ g ∈ gs, ¬ Fits g.value) → decode? s = none

/-- What is read of a segment are the lowest 64 bits of its numbers, of at most thirteen digits
each. So it is read faithfully unless one of them spills. -/
theorem decode?_faithful_iff (s : Text) :
    (∀ values, decode? s = some values ↔ ∃ gs, s = spell gs ∧ (∀ g ∈ gs, g.more.length ≤ 12) ∧
        values = gs.map DigitGroup.lowValue) ∧
      (Faithful s ↔ ∀ gs, s = spell gs → (∀ g ∈ gs, g.more.length ≤ 12) →
        ∀ g ∈ gs, ¬ g.Spills) := by
  refine ⟨fun values => decode?_eq_some_iff, fun h gs hs hshort g hg => ?_, fun h => ⟨?_, ?_⟩⟩
  · obtain ⟨gs', hs', hvalues⟩ :=
      h.numbers _ (decode?_eq_some_iff.2 ⟨gs, hs, hshort, rfl⟩)
    obtain rfl := spell_inj (hs.symm.trans hs')
    have hsame := (List.map_inj_left.1 hvalues) g hg
    exact (DigitGroup.word_lt_iff (hshort g hg)).1 (g.lowValue_eq_iff.1 hsame)
  · intro values hread
    obtain ⟨gs, hs, hshort, rfl⟩ := decode?_eq_some_iff.1 hread
    refine ⟨gs, hs, List.map_congr_left fun g hg => g.lowValue_eq_iff.2 ?_⟩
    exact (DigitGroup.word_lt_iff (hshort g hg)).2 (h gs hs hshort g hg)
  · rintro gs rfl ⟨g, hg, hwide⟩
    rw [decode?_spell, if_neg]
    intro hshort
    have hword := (DigitGroup.word_lt_iff (hshort g hg)).2 (h gs rfl hshort g hg)
    exact hwide (DigitGroup.fits_value hword)

/-- Thirteen digits spell a number of 65 bits, which is read as zero. -/
theorem decode?_faithful_iff_lost_bit :
    decode? "ggggggggggggQ".toList = some [0] ∧ ¬ Faithful "ggggggggggggQ".toList := by
  have hspell : "ggggggggggggQ".toList = spell [⟨List.replicate 12 0, 16⟩] := by decide +kernel
  obtain ⟨hread, hfaithful⟩ := decode?_faithful_iff "ggggggggggggQ".toList
  refine ⟨(hread [0]).2 ⟨_, hspell, by decide, by decide +kernel⟩, fun h => ?_⟩
  exact hfaithful.1 h _ hspell (by decide) _ List.mem_cons_self ⟨rfl, by decide⟩

end Misread

end Vlq

end BindBlocks
