import BindBlocks.Proofs.Codec
import BindBlocks.Proofs.DigitGroups

/-! What is read of a map that comes from elsewhere. A segment moves all the totals that it has
fields for, or none: `Skips` lists why a segment moves none, and such a segment may as well not be
there. What is read has line numbers from one on and goes down the generated lines, so writing it
again gives a form that stays as it is. -/

namespace BindBlocks

namespace Text

/-- Two texts that are put together share a piece, unless a separator is between them. -/
theorem splitOn_join {separator : Char} (p : Text) {q first : Text} {rest : List Text}
    (h : splitOn separator q = first :: rest) :
    ∃ front last, splitOn separator p = front ++ [last] ∧
      splitOn separator (p ++ q) = front ++ (last ++ first) :: rest := by
  induction p with
  | nil => exact ⟨[], [], rfl, h⟩
  | cons c p ih =>
    obtain ⟨front, last, hp, hpq⟩ := ih
    by_cases hc : c = separator
    · refine ⟨[] :: front, last, ?_, ?_⟩
      · rw [hc, splitOn_separator, hp]
        rfl
      · rw [hc, List.cons_append, splitOn_separator, hpq]
        rfl
    · rw [List.cons_append, splitOn, splitOn, if_neg hc, if_neg hc, hp, hpq]
      cases front with
      | nil => exact ⟨[], c :: last, rfl, rfl⟩
      | cons piece front => exact ⟨(c :: piece) :: front, last, rfl, rfl⟩

theorem splitOn_append_separator (separator : Char) (p q : Text) :
    splitOn separator (p ++ separator :: q) = splitOn separator p ++ splitOn separator q := by
  obtain ⟨front, last, hp, hpq⟩ := splitOn_join p (splitOn_separator separator q)
  rw [hpq, hp, List.append_nil, List.append_assoc]
  rfl

end Text

namespace Mapping

namespace Totals

/-- The totals in the order of the fields that are added to them. -/
def sums (t : Totals) : List Int :=
  [t.generatedColumn, t.sourceIndex, t.sourceLine, t.sourceColumn, t.nameIndex]

/-- Why a segment changes nothing: it is not made of numbers, it has too few or too many of them, or
one of them takes its total out of 64 bits. -/
inductive Skips (t : Totals) (segment : Text) : Prop
  | unreadable : Vlq.decode? segment = none → Skips t segment
  | miscounted {fields : List Int} : Vlq.decode? segment = some fields →
      fields.length ∉ [1, 4, 5] → Skips t segment
  | overflowing {fields : List Int} {sum : Int} : Vlq.decode? segment = some fields →
      fields.length ∈ [1, 4, 5] → sum ∈ List.zipWith (· + ·) t.sums fields → ¬ Vlq.Fits sum →
      Skips t segment

/-- A segment adds each of its fields to its total and leaves the other totals as they are. -/
def Moves (t : Totals) (segment : Text) (next : Totals) : Prop :=
  ∃ fields, Vlq.decode? segment = some fields ∧ fields.length ∈ [1, 4, 5] ∧
    (∀ sum ∈ List.zipWith (· + ·) t.sums fields, Vlq.Fits sum) ∧
    next.sums = List.zipWith (· + ·) t.sums fields ++ t.sums.drop fields.length

/-- The totals after some lines. -/
def afterLines (t : Totals) (line : Nat) : List Text → Totals
  | [] => t
  | l :: ls =>
    ({ t with generatedColumn := 0 }.readLine line (Text.splitOn ',' l)).1.afterLines (line + 1) ls

/-- The totals at the end of a text, which is on its last line. -/
def reached (mappings : Text) : Totals := zero.afterLines 1 (Text.splitOn ';' mappings)

section Step

theorem Moves.not_skips {t next : Totals} {segment : Text} (h : t.Moves segment next) :
    ¬ t.Skips segment := by
  obtain ⟨fields, hdecode, hcount, hfits, -⟩ := h
  rintro (hnone | ⟨hfields, hmiscount⟩ | ⟨hfields, -, hsum, hwide⟩)
  · exact absurd (hnone.symm.trans hdecode) (by simp)
  · obtain rfl := Option.some.inj (hdecode.symm.trans hfields)
    exact hmiscount hcount
  · obtain rfl := Option.some.inj (hdecode.symm.trans hfields)
    exact hwide (hfits _ hsum)

theorem add?_cases (total difference : Int) :
    (¬ Vlq.Fits (total + difference) ∧ add? total difference = none) ∨
      Vlq.Fits (total + difference) ∧ add? total difference = some (total + difference) := by
  rw [add?, Vlq.Fits]
  simp only [Nat.shiftLeft_eq, Nat.one_mul]
  split <;> simp <;> omega

/-- The four totals of a full segment are all moved, or one of them would leave the 64 bits. -/
theorem advance?_cases (t : Totals) (column index line sourceColumn : Int) :
    let moved := [t.generatedColumn + column, t.sourceIndex + index, t.sourceLine + line,
      t.sourceColumn + sourceColumn]
    (t.advance? column index line sourceColumn = none ∧ ∃ sum ∈ moved, ¬ Vlq.Fits sum) ∨
      t.advance? column index line sourceColumn =
        some ⟨t.generatedColumn + column, t.sourceIndex + index, t.sourceLine + line,
          t.sourceColumn + sourceColumn, t.nameIndex⟩ ∧ ∀ sum ∈ moved, Vlq.Fits sum := by
  intro moved
  rw [advance?]
  rcases add?_cases t.generatedColumn column with ⟨hwide, h₁⟩ | ⟨hcolumn, h₁⟩
  · exact .inl ⟨by rw [h₁]; rfl, _, by simp [moved], hwide⟩
  rcases add?_cases t.sourceIndex index with ⟨hwide, h₂⟩ | ⟨hindex, h₂⟩
  · exact .inl ⟨by rw [h₁, h₂]; rfl, _, by simp [moved], hwide⟩
  rcases add?_cases t.sourceLine line with ⟨hwide, h₃⟩ | ⟨hline, h₃⟩
  · exact .inl ⟨by rw [h₁, h₂, h₃]; rfl, _, by simp [moved], hwide⟩
  rcases add?_cases t.sourceColumn sourceColumn with ⟨hwide, h₄⟩ | ⟨hsource, h₄⟩
  · exact .inl ⟨by rw [h₁, h₂, h₃, h₄]; rfl, _, by simp [moved], hwide⟩
  · refine .inr ⟨by rw [h₁, h₂, h₃, h₄]; rfl, ?_⟩
    simp [moved, hcolumn, hindex, hline, hsource]

/-- A segment is skipped, or it moves the totals that it has fields for, and its entry, if it has
one, is a record of the new totals. -/
theorem read_cases (t : Totals) (line : Nat) (segment : Text) :
    (t.Skips segment ∧ t.read line segment = (t, none)) ∨
      ∃ next, t.Moves segment next ∧ (t.read line segment = (next, none) ∨
        ∃ name, t.read line segment = (next, next.record? line name)) := by
  unfold read
  split
  · rename_i column hdecode
    rcases add?_cases t.generatedColumn column with ⟨hwide, hadd⟩ | ⟨hfits, hadd⟩
    · rw [hadd]
      exact .inl ⟨.overflowing hdecode (by simp) (List.mem_cons_self ..) hwide, rfl⟩
    · rw [hadd]
      have hall := List.forall_mem_singleton.2 hfits
      exact .inr ⟨_, ⟨_, hdecode, by simp, hall, rfl⟩, .inl rfl⟩
  · rename_i column index sourceLine sourceColumn hdecode
    rcases t.advance?_cases column index sourceLine sourceColumn with
      ⟨hadvance, sum, hsum, hwide⟩ | ⟨hadvance, hfits⟩
    · rw [hadvance]
      exact .inl ⟨.overflowing hdecode (by simp) hsum hwide, rfl⟩
    · rw [hadvance]
      exact .inr ⟨_, ⟨_, hdecode, by simp, hfits, rfl⟩, .inr ⟨none, rfl⟩⟩
  · rename_i column index sourceLine sourceColumn name hdecode
    rcases t.advance?_cases column index sourceLine sourceColumn with
      ⟨hadvance, sum, hsum, hwide⟩ | ⟨hadvance, hfits⟩
    · rw [hadvance]
      exact .inl ⟨.overflowing hdecode (by simp) (List.mem_append_left _ hsum) hwide, rfl⟩
    · rw [hadvance]
      rcases add?_cases t.nameIndex name with ⟨hwide, hadd⟩ | ⟨hname, hadd⟩
      · rw [hadd]
        exact .inl ⟨.overflowing hdecode (by simp) (by simp [sums]) hwide, rfl⟩
      · rw [hadd]
        have hall := List.forall_mem_append.2 ⟨hfits, List.forall_mem_singleton.2 hname⟩
        exact .inr ⟨_, ⟨_, hdecode, by simp, hall, rfl⟩, .inr ⟨some (t.nameIndex + name), rfl⟩⟩
  · rename_i hone hfour hfive
    refine .inl ⟨?_, rfl⟩
    cases hdecode : Vlq.decode? segment with
    | none => exact .unreadable hdecode
    | some fields =>
      refine .miscounted hdecode fun hcount => ?_
      rcases fields with _ | ⟨a, _ | ⟨b, _ | ⟨c, _ | ⟨d, _ | ⟨e, _ | ⟨f, fields⟩⟩⟩⟩⟩⟩
      · exact absurd hcount (by simp)
      · exact hone a hdecode
      · exact absurd hcount (by simp)
      · exact absurd hcount (by simp)
      · exact hfour a b c d hdecode
      · exact hfive a b c d e hdecode
      · exact absurd hcount (by simp)

theorem read_of_skips {t : Totals} {segment : Text} (h : t.Skips segment) (line : Nat) :
    t.read line segment = (t, none) := by
  rcases t.read_cases line segment with ⟨-, hread⟩ | ⟨next, hmoves, -⟩
  · exact hread
  · exact absurd h hmoves.not_skips

theorem moves_of_not_skips {t : Totals} {segment : Text} (h : ¬ t.Skips segment) (line : Nat) :
    t.Moves segment (t.read line segment).1 := by
  rcases t.read_cases line segment with ⟨hskips, -⟩ | ⟨next, hmoves, hread | ⟨name, hread⟩⟩
  · exact absurd hskips h
  · rwa [hread]
  · rwa [hread]

/-- The entry of a segment is a record of some totals. -/
theorem exists_record_of_read {t : Totals} {line : Nat} {segment : Text} {e : MapEntry}
    (h : (t.read line segment).2 = some e) : ∃ u name, record? u line name = some e := by
  rcases t.read_cases line segment with ⟨-, hread⟩ | ⟨next, -, hread | ⟨name, hread⟩⟩
  · exact absurd (hread ▸ h) (by simp)
  · exact absurd (hread ▸ h) (by simp)
  · exact ⟨next, name, by rw [← h, hread]⟩

end Step

section Run

theorem readLine_append (t : Totals) (line : Nat) (front back : List Text) :
    t.readLine line (front ++ back) =
      (((t.readLine line front).1.readLine line back).1,
        (t.readLine line front).2 ++ ((t.readLine line front).1.readLine line back).2) := by
  induction front generalizing t with
  | nil => rfl
  | cons segment front ih => simp only [List.cons_append, readLine, ih, List.append_assoc]

theorem readLines_append (t : Totals) (line : Nat) (front back : List Text) :
    t.readLines line (front ++ back) =
      t.readLines line front ++ (t.afterLines line front).readLines (line + front.length) back := by
  induction front generalizing t line with
  | nil => rfl
  | cons l front ih =>
    simp only [List.cons_append, readLines, afterLines, ih, List.append_assoc, List.length_cons]
    rw [Nat.add_assoc, Nat.add_comm 1]

theorem afterLines_append (t : Totals) (line : Nat) (front back : List Text) :
    t.afterLines line (front ++ back) =
      (t.afterLines line front).afterLines (line + front.length) back := by
  induction front generalizing t line with
  | nil => rfl
  | cons l front ih =>
    simp only [List.cons_append, afterLines, ih, List.length_cons]
    rw [Nat.add_assoc, Nat.add_comm 1]

end Run

/-- What stands behind a comma is read with the totals that are reached before it. -/
theorem decode_comma (p q : Text) :
    decode (p ++ ',' :: q) =
      decode p ++ (reached p).readOn (Text.splitOn ';' p).length q := by
  obtain ⟨l, ls, hq⟩ := List.exists_cons_of_ne_nil (Text.splitOn_ne_nil ';' q)
  have hcomma : Text.splitOn ';' (',' :: q) = (',' :: l) :: ls :=
    Text.splitOn_append (show ∀ c ∈ [','], c ≠ ';' by simp) hq
  obtain ⟨front, last, hp, hpq⟩ := Text.splitOn_join p hcomma
  rw [decode, decode, reached, readOn, hq, hp, hpq, readLines_append, readLines_append,
    afterLines_append, List.append_assoc, List.length_append, List.length_singleton,
    Nat.add_comm front.length]
  simp only [readLines, afterLines, Text.splitOn_append_separator, readLine_append, List.append_nil,
    List.append_assoc]

/-- A segment behind a comma moves the totals that are reached before it. -/
theorem reached_comma (p : Text) {segment : Text} (h : ∀ c ∈ segment, c ≠ ',' ∧ c ≠ ';') :
    reached (p ++ ',' :: segment) =
      ((reached p).read (Text.splitOn ';' p).length segment).1 := by
  have hline : Text.splitOn ';' (',' :: segment) = [',' :: segment] :=
    Text.splitOn_eq_singleton (List.forall_mem_cons.2 ⟨by decide, fun c hc => (h c hc).2⟩)
  have hsegment : Text.splitOn ',' segment = [segment] :=
    Text.splitOn_eq_singleton fun c hc => (h c hc).1
  obtain ⟨front, last, hp, hpq⟩ := Text.splitOn_join p hline
  rw [reached, reached, hp, hpq, afterLines_append, afterLines_append, List.length_append,
    List.length_singleton, Nat.add_comm front.length]
  simp only [afterLines, Text.splitOn_append_separator, readLine_append, hsegment, readLine]

end Totals

/-- A segment between two others is skipped as if it were not there, or it moves all the totals that
it has fields for. -/
theorem decode_skips (p x : Text) (hSegment : ∀ c ∈ x, c ≠ ',' ∧ c ≠ ';') :
    ((Totals.reached p).Skips x →
        Totals.reached (p ++ ',' :: x) = Totals.reached p ∧
          ∀ s, decode (p ++ ',' :: x ++ ',' :: s) = decode (p ++ ',' :: s)) ∧
      (¬ (Totals.reached p).Skips x →
        (Totals.reached p).Moves x (Totals.reached (p ++ ',' :: x))) := by
  rw [Totals.reached_comma p hSegment]
  refine ⟨fun hskips => ?_, fun hmoves => Totals.moves_of_not_skips hmoves _⟩
  have hread := Totals.read_of_skips hskips (Text.splitOn ';' p).length
  refine ⟨by rw [hread], fun s => ?_⟩
  calc decode (p ++ ',' :: x ++ ',' :: s)
      = decode p ++ (Totals.reached p).readOn (Text.splitOn ';' p).length (x ++ ',' :: s) := by
        rw [List.append_assoc, List.cons_append, Totals.decode_comma]
    _ = decode p ++ (Totals.reached p).readOn (Text.splitOn ';' p).length s := by
        rw [Totals.readOn_segment _ _ hSegment (.inr ⟨s, .inl rfl⟩), hread, Totals.readOn_comma]
        rfl
    _ = decode (p ++ ',' :: s) := (Totals.decode_comma p s).symm

/-- The fifth field of a segment takes the index of the name out of 64 bits, so the four before it
are not added either. -/
theorem decode_skips_name :
    let big := "ggggggggggggI".toList
    let p := "AAAA".toList ++ big
    let x := "CAAC".toList ++ big
    Vlq.decode? x = some [1, 0, 0, 1, 2 ^ 62] ∧ (Totals.reached p).sums = [0, 0, 0, 0, 2 ^ 62] ∧
      decode (p ++ ',' :: x ++ ',' :: "EAAE".toList) = decode (p ++ ',' :: "EAAE".toList) := by
  intro big p x
  have hdecode : Vlq.decode? x = some [1, 0, 0, 1, 2 ^ 62] := by decide +kernel
  have hreached : (Totals.reached p).sums = [0, 0, 0, 0, 2 ^ 62] := by decide +kernel
  have hcomma : ',' ∉ x := by decide +kernel
  have hsemicolon : ';' ∉ x := by decide +kernel
  have hskips : (Totals.reached p).Skips x :=
    .overflowing hdecode (by simp) (show 2 ^ 63 ∈ _ by simp [hreached]) (by simp [Vlq.Fits])
  have hboth := decode_skips p x fun c hc =>
    ⟨fun h => hcomma (h ▸ hc), fun h => hsemicolon (h ▸ hc)⟩
  exact ⟨hdecode, hreached, (hboth.1 hskips).2 _⟩

namespace Totals

theorem coordinate?_eq_some {n : Int} {m : Nat} (h : coordinate? n = some m) :
    (m : Int) = n ∧ m < Offset.bound := by
  rw [coordinate?] at h
  split at h
  · obtain rfl := Option.some.inj h
    omega
  · exact absurd h (by simp)

/-- A record is made of the line and of the totals, and its source line is not before the first. -/
theorem record?_eq_some {t : Totals} {line : Nat} {name : Option Int} {e : MapEntry}
    (h : t.record? line name = some e) :
    e.mapping.Fits ∧ e.generated.line = line ∧ 0 < e.source.line := by
  have hchecked : ∃ nameIndex, ∃ l, coordinate? line = some l ∧
      ∃ c, coordinate? t.generatedColumn = some c ∧ ∃ l', coordinate? (t.sourceLine + 1) = some l' ∧
      ∃ c', coordinate? t.sourceColumn = some c' ∧ ∃ i, coordinate? t.sourceIndex = some i ∧
      (if 0 < l' then some (⟨⟨l, c⟩, ⟨l', c'⟩, some i, nameIndex⟩ : MapEntry) else none) =
        some e := by
    unfold record? at h
    simp only [Option.bind_eq_bind, Option.pure_def] at h
    split at h
    all_goals
      simp only [Option.bind_eq_some_iff] at h
      obtain ⟨nameIndex, -, h⟩ := h
      exact ⟨nameIndex, h⟩
  obtain ⟨nameIndex, l, hline, c, hcolumn, l', hline', c', hcolumn', i, -, h⟩ := hchecked
  split at h
  · rename_i hpos
    obtain rfl := Option.some.inj h
    obtain ⟨hsame, hfits⟩ := coordinate?_eq_some hline
    exact ⟨⟨hfits, (coordinate?_eq_some hcolumn).2, (coordinate?_eq_some hline').2,
      (coordinate?_eq_some hcolumn').2⟩, Int.ofNat.inj hsame, hpos⟩
  · exact absurd h (by simp)

theorem exists_record_of_readLine {t : Totals} {line : Nat} {segments : List Text} {e : MapEntry}
    (h : e ∈ (t.readLine line segments).2) : ∃ u name, record? u line name = some e := by
  induction segments generalizing t with
  | nil => exact absurd h (by simp [readLine])
  | cons segment segments ih =>
    rcases List.mem_append.1 h with h | h
    · exact exists_record_of_read (Option.mem_toList.1 h)
    · exact ih h

theorem exists_record_of_readLines {t : Totals} {line : Nat} {ls : List Text} {e : MapEntry}
    (h : e ∈ t.readLines line ls) :
    ∃ u line' name, line ≤ line' ∧ record? u line' name = some e := by
  induction ls generalizing t line with
  | nil => exact absurd h (by simp [readLines])
  | cons l ls ih =>
    rcases List.mem_append.1 h with h | h
    · obtain ⟨u, name, hrecord⟩ := exists_record_of_readLine h
      exact ⟨u, line, name, Nat.le_refl line, hrecord⟩
    · obtain ⟨u, line', name, hle, hrecord⟩ := ih h
      exact ⟨u, line', name, Nat.le_of_succ_le hle, hrecord⟩

/-- The entries of a line stand before those of the lines below it. -/
theorem readLines_descending (t : Totals) (line : Nat) (ls : List Text) :
    (t.readLines line ls).Pairwise fun e f => e.generated.line ≤ f.generated.line := by
  induction ls generalizing t line with
  | nil => exact .nil
  | cons l ls ih =>
    have hline : ∀ {t : Totals} {segments : List Text}, ∀ e ∈ (t.readLine line segments).2,
        e.generated.line = line := by
      intro t segments e he
      obtain ⟨u, name, hrecord⟩ := exists_record_of_readLine he
      exact (record?_eq_some hrecord).2.1
    refine List.pairwise_append.2 ⟨?_, ih _ _, fun e he f hf => ?_⟩
    · refine List.pairwise_of_forall_mem_list fun e he f hf => ?_
      rw [hline e he, hline f hf]
    · obtain ⟨u, line', name, hle, hrecord⟩ := exists_record_of_readLines hf
      rw [hline e he, (record?_eq_some hrecord).2.1]
      omega

end Totals

/-- Whatever is decoded, its coordinates have 32 bits. -/
theorem decode_fits {mappings : Text} {e : MapEntry} (h : e ∈ decode mappings) :
    e.mapping.Fits := by
  obtain ⟨u, line, name, -, hrecord⟩ := Totals.exists_record_of_readLines h
  exact (Totals.record?_eq_some hrecord).1

/-- Whatever is decoded, its lines are counted from one. -/
theorem decode_lines {mappings : Text} {e : MapEntry} (h : e ∈ decode mappings) :
    1 ≤ e.generated.line ∧ 1 ≤ e.source.line := by
  obtain ⟨u, line, name, hle, hrecord⟩ := Totals.exists_record_of_readLines h
  obtain ⟨-, hline, hsource⟩ := Totals.record?_eq_some hrecord
  exact ⟨hline ▸ hle, hsource⟩

theorem dedupeAfter_dedupeAfter (last : Option Position) (table : List Mapping) :
    dedupeAfter last (dedupeAfter last table) = dedupeAfter last table := by
  induction table generalizing last with
  | nil => rfl
  | cons m ms ih =>
    rw [dedupeAfter]
    split
    · exact ih last
    · rename_i hnew
      rw [dedupeAfter, if_neg hnew, ih]

/-- What is written is already in the order in which it is written. -/
theorem normalize_normalize (table : List Mapping) :
    normalize (normalize table) = normalize table := by
  have hlines : (normalize table).filter (fun m => 0 < m.generated.line) = normalize table :=
    List.filter_eq_self.2 fun m hm => decide_eq_true (mem_of_mem_normalize hm).2
  rw [normalize, hlines, List.mergeSort_of_pairwise (normalize_sorted table), normalize,
    dedupeAfter_dedupeAfter]

/-- The written form of what is read. -/
def reencode (mappings : Text) : Text := encode ((decode mappings).map MapEntry.mapping)

/-- Reading the new form gives the same mappings, as far as they are written. -/
theorem decode_reencode (mappings : Text) :
    (decode (reencode mappings)).map MapEntry.mapping =
      normalize ((decode mappings).map MapEntry.mapping) := by
  rw [reencode]
  generalize htable : (decode mappings).map MapEntry.mapping = table
  have hread : ∀ m ∈ table, m.Fits ∧ 0 < m.source.line := by
    intro m hm
    rw [← htable] at hm
    obtain ⟨e, he, rfl⟩ := List.mem_map.1 hm
    exact ⟨decode_fits he, (decode_lines he).2⟩
  have hsource : (normalize table).filter (fun m => 0 < m.source.line) = normalize table :=
    List.filter_eq_self.2 fun m hm => decide_eq_true (hread m (mem_of_mem_normalize hm).1).2
  rw [decode_encode_eq fun m hm => (hread m hm).1, hsource, List.map_map,
    show MapEntry.mapping ∘ MapEntry.ofMapping = id from rfl, List.map_id]

/-- Whatever is decoded has its lines counted from one and goes down the generated lines, and
writing it again gives a form that stays as it is. -/
theorem reencode_stable (mappings : Text) :
    (∀ e ∈ decode mappings, 1 ≤ e.generated.line ∧ 1 ≤ e.source.line) ∧
      (decode mappings).Pairwise (fun e f => e.generated.line ≤ f.generated.line) ∧
      reencode (reencode mappings) = reencode mappings := by
  refine ⟨fun e => decode_lines, Totals.readLines_descending _ _ _, ?_⟩
  rw [reencode, decode_reencode, encode, normalize_normalize, ← encode, ← reencode]

end Mapping

end BindBlocks
