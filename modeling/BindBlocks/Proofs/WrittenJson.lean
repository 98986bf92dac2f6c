import BindBlocks.Json.Reader.Shape
import BindBlocks.Json.Writer

/-! Written JSON values are read back. A string is read to its closing quote whatever it spells, a
number to the first character that is no digit, and a list to its closing bracket. `Reads` states
this of a reader with all that can follow the value, so the laws of the readers compose as the
readers do. -/

namespace BindBlocks

namespace Json

theorem skipBlanks_cons {c : Char} (h : isBlank c = false) (t : Text) :
    skipBlanks (c :: t) = c :: t :=
  List.dropWhile_cons_of_neg (by simp [h])

theorem hexValue?_hexDigit : ∀ n < 16, hexValue? (hexDigit n) = some n := by decide

theorem codeUnit_hexDigit {n : Nat} (h : n < 32) (t : Text) :
    codeUnit ('0' :: '0' :: hexDigit (n / 16) :: hexDigit (n % 16) :: t) = .ok (n, t) := by
  have hzero : hexValue? '0' = some 0 := by decide
  simp only [codeUnit, hzero, hexValue?_hexDigit (n / 16) (by omega),
    hexValue?_hexDigit (n % 16) (by omega)]
  rw [show ((0 * 16 + 0) * 16 + n / 16) * 16 + n % 16 = n by omega]

/-- A character is written plainly, or as an escape that is read as this character. -/
theorem escape_cases (c : Char) :
    (∃ u, escape c = '\\' :: u ∧ ∀ care t, escaped care (u ++ t) = .ok (c, t)) ∨
      (escape c = [c] ∧ c ≠ '\x22' ∧ c ≠ '\\' ∧ ¬ c.toNat < 32) := by
  fun_cases escape c with
  | case1 | case2 | case3 | case4 | case5 | case6 | case7 =>
    subst_vars
    exact .inl ⟨_, rfl, fun care t => rfl⟩
  | case8 _ _ _ _ _ _ _ hcontrol =>
    refine .inl ⟨_, rfl, fun care t => ?_⟩
    show unitEscape care ('0' :: '0' :: hexDigit (c.toNat / 16) :: hexDigit (c.toNat % 16) :: t) = _
    have hplain : (isLeading c.toNat || isTrailing c.toNat) = false := by
      simp only [isLeading, isTrailing, Bool.or_eq_false_iff, Bool.and_eq_false_iff,
        decide_eq_false_iff_not]
      omega
    simp only [unitEscape, codeUnit_hexDigit hcontrol, hplain, Bool.false_eq_true, if_false,
      Char.ofNat_toNat]
  | case9 hquote hslash _ _ _ _ _ hcontrol => exact .inr ⟨rfl, hquote, hslash, hcontrol⟩

theorem quoted_backslash {care : Care} {t rest : Text} {c : Char}
    (h : escaped care t = .ok (c, rest)) :
    quoted care ('\\' :: t) = (quoted care rest).map (Prod.map (c :: ·) id) := by
  rw [quoted, if_neg (by decide), if_pos rfl]
  split
  · rename_i fault hfault
    exact absurd (h.symm.trans hfault) (by simp)
  · rename_i d rest' hescaped
    obtain ⟨rfl, rfl⟩ := Prod.mk.inj (Except.ok.inj (h.symm.trans hescaped))
    rfl

/-- What is escaped is read back, whatever it spells. -/
theorem quoted_escape (care : Care) (c : Char) (t : Text) :
    quoted care (escape c ++ t) = (quoted care t).map (Prod.map (c :: ·) id) := by
  rcases escape_cases c with ⟨u, hescape, hescaped⟩ | ⟨hescape, hquote, hslash, hcontrol⟩
  · rw [hescape]
    exact quoted_backslash (hescaped care t)
  · rw [hescape, List.singleton_append, quoted, if_neg hquote, if_neg hslash, if_neg hcontrol]
    rfl

theorem quoted_flatMap_escape (care : Care) (s rest : Text) :
    quoted care (s.flatMap escape ++ '\x22' :: rest) = .ok (s, rest) := by
  induction s with
  | nil => rw [List.flatMap_nil, List.nil_append, quoted, if_pos rfl]
  | cons c s ih =>
    rw [List.flatMap_cons, List.append_assoc, quoted_escape, ih]
    rfl

theorem isDigit_decimalDigit : ∀ n < 10, Text.isDigit (decimalDigit n) = true := by decide

theorem digitValue_decimalDigit : ∀ n < 10, digitValue (decimalDigit n) = n := by decide

theorem isDigit_of_mem_decimal {n : Nat} : ∀ c ∈ decimal n, Text.isDigit c = true := by
  fun_induction decimal n with
  | case1 n hsmall =>
    intro c hc
    rw [List.mem_singleton.1 hc]
    exact isDigit_decimalDigit n hsmall
  | case2 n hlarge ih =>
    intro c hc
    rcases List.mem_append.1 hc with hc | hc
    · exact ih c hc
    · rw [List.mem_singleton.1 hc]
      exact isDigit_decimalDigit _ (Nat.mod_lt n (by decide))

theorem digitsValue_decimal (n : Nat) : digitsValue (decimal n) = n := by
  fun_induction decimal n with
  | case1 n hsmall =>
    rw [digitsValue, List.foldl_cons, List.foldl_nil, digitValue_decimalDigit n hsmall]
    omega
  | case2 n hlarge ih =>
    rw [digitsValue, List.foldl_append, ← digitsValue, ih, List.foldl_cons, List.foldl_nil,
      digitValue_decimalDigit _ (Nat.mod_lt n (by decide))]
    omega

/-- The first digit of a number; it is a zero only if it stands alone. -/
theorem decimal_head (n : Nat) :
    ∃ c t, decimal n = c :: t ∧ Text.isDigit c = true ∧ (c = '0' → t = []) := by
  fun_induction decimal n with
  | case1 n hsmall => exact ⟨_, [], rfl, isDigit_decimalDigit n hsmall, fun _ => rfl⟩
  | case2 n hlarge ih =>
    obtain ⟨c, t, hdecimal, hdigit, hzero⟩ := ih
    refine ⟨c, t ++ [decimalDigit (n % 10)], by rw [hdecimal]; rfl, hdigit, fun hc => ?_⟩
    have hvalue := digitsValue_decimal (n / 10)
    rw [hdecimal, hzero hc, hc] at hvalue
    have hnone : digitsValue ['0'] = 0 := by decide
    omega

theorem ne_of_isDigit {c d : Char} (h : Text.isDigit c = true) (hd : Text.isDigit d = false) :
    c ≠ d := by
  rintro rfl
  rw [hd] at h
  exact absurd h (by decide)

theorem le_foldl_digits (ds : Text) (s : Nat) :
    s ≤ ds.foldl (fun n d => 10 * n + digitValue d) s := by
  induction ds generalizing s with
  | nil => exact Nat.le_refl s
  | cons d ds ih =>
    have hnext := ih (10 * s + digitValue d)
    rw [List.foldl_cons]
    omega

/-- A number of 64 bits is absorbed in full. -/
theorem absorb_eq {s : Nat} {ds : Text}
    (h : ds.foldl (fun n d => 10 * n + digitValue d) s < 1 <<< 64) :
    absorb s ds = (ds.foldl (fun n d => 10 * n + digitValue d) s, 0) := by
  induction ds generalizing s with
  | nil => rfl
  | cons d ds ih =>
    have hnext := le_foldl_digits ds (10 * s + digitValue d)
    rw [List.foldl_cons] at h ⊢
    rw [absorb, if_pos (Nat.lt_of_le_of_lt hnext h)]
    exact ih h

theorem not_tooLarge {n : Nat} (h : n < Offset.bound) :
    Numeral.tooLarge ⟨false, decimal n, none, none⟩ = false := by
  have hvalue : (decimal n).foldl (fun n d => 10 * n + digitValue d) 0 = n := digitsValue_decimal n
  have habsorb : absorb 0 (decimal n) = (n, 0) := by
    rw [absorb_eq (by rw [hvalue]; exact Nat.lt_trans h (by decide)), hvalue]
  have hmagnitude : Numeral.magnitude ⟨false, decimal n, none, none⟩ = (n, 0) := by
    simp only [Numeral.magnitude, habsorb]
    rfl
  have hround : roundBinary n = n := if_pos (Nat.lt_trans h (by decide))
  have hone : roundBinary (Nat.pow 10 (Int.toNat 0)) = 1 := by decide
  have hless : ¬ 1 <<< 1024 - 1 <<< 970 ≤ n * 1 := by
    have hbound : Offset.bound ≤ 1 <<< 1024 - 1 <<< 970 := by decide
    omega
  simp only [Numeral.tooLarge, hmagnitude, hround, hone, hless]
  simp

/-- What can follow a value inside of another, or at the end of the text. -/
inductive Follows : Text → Prop
  | stop : Follows []
  | comma (t : Text) : Follows (',' :: t)
  | bracket (t : Text) : Follows (']' :: t)
  | brace (t : Text) : Follows ('}' :: t)

theorem Follows.takeWhile_isDigit {rest : Text} (h : Follows rest) :
    rest.takeWhile Text.isDigit = [] := by
  cases h <;> rfl

theorem Follows.dropWhile_isDigit {rest : Text} (h : Follows rest) :
    rest.dropWhile Text.isDigit = rest := by
  cases h <;> rfl

theorem whole_decimal (n : Nat) {rest : Text} (h : Follows rest) :
    whole (decimal n ++ rest) = .ok (decimal n, rest) := by
  obtain ⟨c, t, hdecimal, -, hzero⟩ := decimal_head n
  have hdigits := isDigit_of_mem_decimal (n := n)
  rw [hdecimal] at hdigits ⊢
  obtain ⟨hc, ht⟩ := List.forall_mem_cons.1 hdigits
  by_cases hlead : c = '0'
  · rw [hlead, hzero hlead]
    cases h <;> rfl
  · have hwhole : whole (c :: t ++ rest) = digits (c :: (t ++ rest)) := by
      unfold whole
      split
      · rename_i heq
        exact absurd (List.cons.inj heq).1 hlead
      · rfl
    rw [hwhole, digits, if_pos hc, List.takeWhile_append_of_pos ht, List.dropWhile_append_of_pos ht,
      h.takeWhile_isDigit, h.dropWhile_isDigit, List.append_nil]

theorem numeral_decimal (n : Nat) {rest : Text} (h : Follows rest) :
    numeral (decimal n ++ rest) = .ok (⟨false, decimal n, none, none⟩, rest) := by
  have hfraction : fraction rest = .ok (none, rest) := by cases h <;> rfl
  have hexponent : exponent rest = .ok (none, rest) := by cases h <;> rfl
  have hunsigned : unsigned false (decimal n ++ rest) =
      .ok (⟨false, decimal n, none, none⟩, rest) := by
    simp only [unsigned, whole_decimal n h, hfraction, hexponent, bind, Except.bind]
    rfl
  rw [← hunsigned]
  unfold numeral
  split
  · rename_i heq
    obtain ⟨c, t, hdecimal, hdigit, -⟩ := decimal_head n
    rw [hdecimal] at heq
    exact absurd (List.cons.inj heq).1 (ne_of_isDigit hdigit rfl)
  · rfl

theorem scalar_decimal {n : Nat} (hFits : n < Offset.bound) {rest : Text} (h : Follows rest) :
    scalar .kept (decimal n ++ rest) = .ok (.int n, rest) := by
  have hnumber : number .kept (decimal n ++ rest) =
      .ok (⟨false, decimal n, none, none⟩, rest) := by
    simp only [number, numeral_decimal n h, not_tooLarge hFits]
    rfl
  have hint : Numeral.int? ⟨false, decimal n, none, none⟩ = some (n : Int) := by
    simp only [Numeral.int?, digitsValue_decimal]
    rfl
  obtain ⟨c, t, hdecimal, hdigit, -⟩ := decimal_head n
  have hstarts : startsNumber c = true := by simp [startsNumber, hdigit]
  rw [hdecimal, List.cons_append] at hnumber ⊢
  rw [scalar, if_neg (ne_of_isDigit hdigit rfl), if_neg (ne_of_isDigit hdigit rfl),
    if_neg (ne_of_isDigit hdigit rfl), if_neg (ne_of_isDigit hdigit rfl), if_pos hstarts, hnumber]
  simp only [Except.map, ← hdecimal, hint]

/-- The reader takes a value off the front of a text that starts with its spelling. No blank stands
in front of a spelling, and no closing bracket. -/
structure Reads {α : Type} (read : Reader α) (spelling : Text) (value : α) : Prop where
  head : ∃ c t, spelling = c :: t ∧ isBlank c = false ∧ c ≠ ']'
  run : ∀ {rest : Text}, Follows rest → read (spelling ++ rest) = .ok (value, rest)

theorem readString_reads (s : String) : Reads readString (write (.str s)) s where
  head := ⟨'\x22', _, by rw [write, writeString]; rfl, by decide, by decide⟩
  run := by
    intro rest _
    rw [write, writeString, List.append_assoc, List.cons_append, readString,
      skipBlanks_cons (by decide)]
    simp only [List.singleton_append, quoted_flatMap_escape, if_true]
    rw [Except.map, String.ofList_toList]

theorem readBelow_reads {n : Nat} (h : n < Offset.bound) :
    Reads (readBelow Offset.bound) (write (.int n)) n := by
  have hwrite : write (.int n) = decimal n := by
    rw [write, writeInt, if_neg (by omega), Int.natAbs_natCast]
  obtain ⟨c, t, hdecimal, hdigit, -⟩ := decimal_head n
  have hblank : isBlank c = false := by
    simp only [isBlank, Bool.or_eq_false_iff, decide_eq_false_iff_not]
    exact ⟨⟨⟨ne_of_isDigit hdigit rfl, ne_of_isDigit hdigit rfl⟩, ne_of_isDigit hdigit rfl⟩,
      ne_of_isDigit hdigit rfl⟩
  rw [hwrite]
  refine ⟨⟨c, t, hdecimal, hblank, ne_of_isDigit hdigit rfl⟩, fun {rest} hrest => ?_⟩
  have hskip : skipBlanks (decimal n ++ rest) = decimal n ++ rest := by
    rw [hdecimal]
    exact skipBlanks_cons hblank _
  simp only [readBelow, hskip, scalar_decimal h hrest]
  rw [if_pos ⟨by omega, by omega⟩, Int.toNat_natCast]

section Nullable

variable {α : Type} {read : Reader α}

theorem readNullable_reads_none : Reads (readNullable read) (write .null) none where
  head := ⟨'n', ['u', 'l', 'l'], by rw [write], by decide, by decide⟩
  run := by
    intro rest _
    rw [write]
    rfl

theorem readNullable_reads_some {spelling : Text} {value : α} (h : Reads read spelling value)
    (hNull : ∀ t, spelling ≠ 'n' :: t) : Reads (readNullable read) spelling (some value) where
  head := h.head
  run := by
    intro rest hrest
    obtain ⟨c, t, rfl, hblank, -⟩ := h.head
    rw [readNullable, List.cons_append, skipBlanks_cons hblank]
    split
    · rename_i heq
      exact absurd (congrArg (· :: t) (List.cons.inj heq).1) (hNull t)
    · rw [← List.cons_append, h.run hrest]
      rfl

end Nullable

section Lists

variable {α : Type} {read : Reader α} {toJson : α → Json}

theorem exists_write_arr (items : List Json) : ∃ t, write (.arr items) = '[' :: t := by
  cases items with
  | nil => exact ⟨_, by rw [write]⟩
  | cons item items => exact ⟨_, by rw [write]; rfl⟩

theorem length_lt_writeItems (items : List Json) : items.length < (writeItems items).length := by
  induction items with
  | nil => rw [writeItems]; decide
  | cons item items ih =>
    rw [writeItems]
    simp only [List.cons_append, List.length_cons, List.length_append]
    omega

theorem follows_writeItems (items : List Json) (rest : Text) :
    Follows (writeItems items ++ rest) := by
  cases items with
  | nil => rw [writeItems]; exact .bracket rest
  | cons item items => rw [writeItems]; exact .comma _

/-- One item more, with its comma unless it is the first. -/
theorem readItems_cons (first : Bool) {fuel : Nat} {a : α} {as : List α} {spelling t rest : Text}
    (hItem : Reads read spelling a) (hFollows : Follows t)
    (hRest : readItems read fuel false t = .ok (as, rest)) :
    readItems read (fuel + 1) first ((if first then [] else [',']) ++ spelling ++ t) =
      .ok (a :: as, rest) := by
  obtain ⟨c, u, hspelling, hblank, hbracket⟩ := hItem.head
  have hnext : nextItem first ((if first then [] else [',']) ++ spelling ++ t) =
      .ok (true, spelling ++ t) := by
    rw [hspelling]
    cases first with
    | true =>
      simp only [nextItem, if_true, List.nil_append, List.cons_append, skipBlanks_cons hblank,
        if_neg hbracket]
    | false =>
      have hcomma : isBlank ',' = false := by decide
      simp [nextItem, skipBlanks_cons hblank, skipBlanks_cons hcomma, hbracket]
  rw [readItems, hnext]
  simp only [bind, Except.bind, if_true, hItem.run hFollows, hRest]
  rfl

theorem readItems_writeItems {as : List α} (h : ∀ a ∈ as, Reads read (write (toJson a)) a)
    {fuel : Nat} (hFuel : as.length < fuel) (rest : Text) :
    readItems read fuel false (writeItems (as.map toJson) ++ rest) = .ok (as, rest) := by
  induction as generalizing fuel with
  | nil =>
    obtain ⟨fuel, rfl⟩ := Nat.exists_eq_add_of_lt hFuel
    rw [List.map_nil, writeItems]
    rfl
  | cons a as ih =>
    obtain ⟨hitem, hitems⟩ := List.forall_mem_cons.1 h
    cases fuel with
    | zero => exact absurd hFuel (Nat.not_lt_zero _)
    | succ fuel =>
      rw [List.map_cons, writeItems, List.append_assoc]
      exact readItems_cons false hitem (follows_writeItems _ rest)
        (ih hitems (Nat.lt_of_succ_lt_succ hFuel))

theorem readList_reads {as : List α} (h : ∀ a ∈ as, Reads read (write (toJson a)) a) :
    Reads (readList read) (write (.arr (as.map toJson))) as := by
  cases as with
  | nil =>
    rw [List.map_nil, write]
    exact ⟨⟨'[', [']'], rfl, by decide, by decide⟩, fun _ => rfl⟩
  | cons a as =>
    obtain ⟨hitem, hitems⟩ := List.forall_mem_cons.1 h
    rw [List.map_cons, write]
    refine ⟨⟨'[', _, rfl, by decide, by decide⟩, fun {rest} _ => ?_⟩
    rw [List.append_assoc, List.cons_append, readList, skipBlanks_cons (by decide)]
    have hlength := length_lt_writeItems (as.map toJson)
    rw [List.length_map] at hlength
    exact readItems_cons true hitem (follows_writeItems _ rest)
      (readItems_writeItems hitems (by simp only [List.length_append]; omega) rest)

end Lists

end Json

end BindBlocks
