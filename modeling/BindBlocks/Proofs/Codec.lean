import BindBlocks.Mapping.Codec
import BindBlocks.Proofs.Digits
import Mathlib.Data.List.Sort

/-! Decoding an encoded table gives back what was written. Writing and reading keep their running
values apart: `Totals.ofPen` are the totals that a reader has where a writer holds the pen, and
`Totals.readOn` reads on from the middle of a line, so that both can be followed one segment at a
time. What is read is what was written: the table in order of its generated positions, and of
each position the mapping that came first in the table. -/

namespace BindBlocks

theorem Position.le_antisymm {p q : Position} (hpq : p.le q = true) (hqp : q.le p = true) :
    p = q := by
  obtain ⟨line, column⟩ := p
  obtain ⟨line', column'⟩ := q
  simp only [le, Bool.or_eq_true, decide_eq_true_eq, Bool.and_eq_true, beq_iff_eq] at hpq hqp
  simp only [Position.mk.injEq]
  omega

namespace Mapping

/-- Every coordinate of the mapping has 32 bits. -/
structure Fits (m : Mapping) : Prop where
  line : m.generated.line < Offset.bound
  column : m.generated.column < Offset.bound
  sourceLine : m.source.line < Offset.bound
  sourceColumn : m.source.column < Offset.bound

instance (m : Mapping) : Decidable m.Fits :=
  decidable_of_iff
    (m.generated.line < Offset.bound ∧ m.generated.column < Offset.bound ∧
      m.source.line < Offset.bound ∧ m.source.column < Offset.bound)
    ⟨fun h => ⟨h.1, h.2.1, h.2.2.1, h.2.2.2⟩,
      fun h => ⟨h.line, h.column, h.sourceLine, h.sourceColumn⟩⟩

namespace Totals

/-- The entries of a text that follows on a line after its first segments. -/
def readOn (t : Totals) (line : Nat) (text : Text) : List MapEntry :=
  match Text.splitOn ';' text with
  | [] => []
  | l :: ls =>
    (t.readLine line (Text.splitOn ',' l)).2 ++
      (t.readLine line (Text.splitOn ',' l)).1.readLines (line + 1) ls

theorem decode_eq_readOn (mappings : Text) : decode mappings = zero.readOn 1 mappings := by
  rw [decode, readOn]
  cases h : Text.splitOn ';' mappings with
  | nil => rfl
  | cons l ls => rfl

theorem readLine_nil_cons (t : Totals) (line : Nat) (segments : List Text) :
    t.readLine line ([] :: segments) = t.readLine line segments := rfl

theorem readOn_semicolon (t : Totals) (line : Nat) (rest : Text) :
    t.readOn line (';' :: rest) = { t with generatedColumn := 0 }.readOn (line + 1) rest := by
  rw [readOn, readOn, Text.splitOn_separator]
  cases h : Text.splitOn ';' rest with
  | nil => exact absurd h (Text.splitOn_ne_nil ';' rest)
  | cons l ls => rfl

theorem readOn_comma (t : Totals) (line : Nat) (rest : Text) :
    t.readOn line (',' :: rest) = t.readOn line rest := by
  rw [readOn, readOn]
  cases h : Text.splitOn ';' rest with
  | nil => exact absurd h (Text.splitOn_ne_nil ';' rest)
  | cons l ls =>
    rw [show ',' :: rest = [','] ++ rest from rfl, Text.splitOn_append (by simp) h]
    simp only [List.singleton_append, Text.splitOn_separator, readLine_nil_cons]

/-- What may follow a segment. -/
def Separated (rest : Text) : Prop := rest = [] ∨ ∃ r, rest = ',' :: r ∨ rest = ';' :: r

theorem readOn_segment (t : Totals) (line : Nat) {segment rest : Text}
    (hSegment : ∀ c ∈ segment, c ≠ ',' ∧ c ≠ ';') (hRest : Separated rest) :
    t.readOn line (segment ++ rest) =
      (t.read line segment).2.toList ++ (t.read line segment).1.readOn line rest := by
  obtain ⟨l, ls, segments, hlines, hsegments⟩ : ∃ l ls segments,
      Text.splitOn ';' rest = l :: ls ∧ Text.splitOn ',' l = [] :: segments := by
    rcases hRest with rfl | ⟨r, rfl | rfl⟩
    · exact ⟨[], [], [], rfl, rfl⟩
    · obtain ⟨l, ls, hr⟩ := List.exists_cons_of_ne_nil (Text.splitOn_ne_nil ';' r)
      exact ⟨',' :: l, ls, _, Text.splitOn_append (show ∀ c ∈ [','], c ≠ ';' by simp) hr,
        Text.splitOn_separator ',' l⟩
    · exact ⟨[], _, [], Text.splitOn_separator ';' r, rfl⟩
  rw [readOn, readOn, Text.splitOn_append (fun c hc => (hSegment c hc).2) hlines, hlines]
  simp only
  rw [Text.splitOn_append (fun c hc => (hSegment c hc).1) hsegments, hsegments, List.append_nil,
    readLine_nil_cons]
  simp only [readLine, List.append_assoc]

/-- The totals of a reader where a writer holds the pen. -/
def ofPen (pen : Pen) : Totals := ⟨pen.generatedColumn, 0, pen.sourceLine, pen.sourceColumn, 0⟩

theorem readOn_lineEnds (pen : Pen) (line : Nat) (hLine : pen.line ≤ line) (rest : Text) :
    (ofPen pen).readOn pen.line (List.replicate (line - pen.line) ';' ++ rest) =
      (ofPen (pen.moveTo line)).readOn line rest := by
  have hends : ∀ (n at_ : Nat) (t : Totals), t.readOn at_ (List.replicate n ';' ++ rest) =
      if n = 0 then t.readOn at_ rest
      else { t with generatedColumn := 0 }.readOn (at_ + n) rest := by
    intro n
    induction n with
    | zero => intro at_ t; rfl
    | succ n ih =>
      intro at_ t
      rw [List.replicate_succ, List.cons_append, readOn_semicolon, ih, if_neg (Nat.succ_ne_zero n)]
      split
      · subst n
        rfl
      · rw [Nat.add_assoc, Nat.add_comm 1 n]
  rw [hends, Pen.moveTo]
  by_cases hlt : pen.line < line
  · rw [if_neg (by omega), if_pos hlt, show pen.line + (line - pen.line) = line by omega]
    rfl
  · rw [if_pos (by omega), if_neg hlt, show line = pen.line by omega]

end Totals

/-- The values that a pen holds between mappings of 32 bits. -/
structure Pen.Fits (pen : Pen) : Prop where
  column : 0 ≤ pen.generatedColumn ∧ pen.generatedColumn < Offset.bound
  sourceLine : -1 ≤ pen.sourceLine ∧ pen.sourceLine < Offset.bound
  sourceColumn : 0 ≤ pen.sourceColumn ∧ pen.sourceColumn < Offset.bound

/-- The pen after a mapping. -/
def Pen.after (m : Mapping) : Pen :=
  ⟨m.generated.line, false, m.generated.column, (m.source.line : Int) - 1, m.source.column⟩

theorem Pen.after_fits {m : Mapping} (h : m.Fits) : (Pen.after m).Fits := by
  obtain ⟨-, hcolumn, hline, hsource⟩ := h
  exact ⟨⟨by simp [after], by simp only [after]; omega⟩,
    ⟨by simp only [after]; omega, by simp only [after]; omega⟩,
    ⟨by simp [after], by simp only [after]; omega⟩⟩

theorem Pen.moveTo_fits {pen : Pen} (h : pen.Fits) (line : Nat) : (pen.moveTo line).Fits := by
  rw [moveTo]
  split
  · exact ⟨show (0 : Int) ≤ 0 ∧ (0 : Int) < Offset.bound by decide, h.sourceLine, h.sourceColumn⟩
  · exact h

theorem Pen.moveTo_line {pen : Pen} {line : Nat} (h : pen.line ≤ line) :
    (pen.moveTo line).line = line := by
  rw [moveTo]
  split
  · rfl
  · omega

theorem ne_separator_of_mem_segment {pen : Pen} {m : Mapping} :
    ∀ c ∈ segment pen m, c ≠ ',' ∧ c ≠ ';' := by
  intro c hc
  simp only [segment, List.mem_append] at hc
  rcases hc with ((hc | hc) | hc) | hc <;> exact Vlq.ne_separator_of_mem_encode hc

theorem encodeFrom_cons {pen : Pen} {m : Mapping} {ms : List Mapping}
    (hLine : pen.line ≤ m.generated.line) :
    encodeFrom pen (m :: ms) = List.replicate (m.generated.line - pen.line) ';' ++
      ((if (pen.moveTo m.generated.line).fresh then [] else [',']) ++
        (segment (pen.moveTo m.generated.line) m ++ encodeFrom (Pen.after m) ms)) := by
  rw [encodeFrom]
  simp only [Pen.moveTo_line hLine, List.append_assoc, Pen.after]

theorem separated_encodeFrom {pen : Pen} {ms : List Mapping} (hFresh : pen.fresh = false)
    (hLines : ∀ m ∈ ms, pen.line ≤ m.generated.line) : Totals.Separated (encodeFrom pen ms) := by
  cases ms with
  | nil => exact .inl rfl
  | cons m ms =>
    have hline := hLines m List.mem_cons_self
    rw [encodeFrom_cons hline]
    rcases Nat.lt_or_eq_of_le hline with hlt | heq
    · obtain ⟨n, hn⟩ :=
        Nat.exists_eq_succ_of_ne_zero (show m.generated.line - pen.line ≠ 0 by omega)
      rw [hn]
      exact .inr ⟨_, .inr rfl⟩
    · have hstay : pen.moveTo m.generated.line = pen := if_neg (by omega)
      rw [hstay, hFresh, show m.generated.line - pen.line = 0 by omega]
      exact .inr ⟨_, .inl rfl⟩

theorem Totals.add?_eq {total difference : Int} (sum : Int) (h : total + difference = sum)
    (hFits : -1 ≤ sum ∧ sum < Offset.bound) : add? total difference = some sum := by
  have hbound : (Offset.bound : Int) = 2 ^ 32 := rfl
  rw [add?, h]
  exact if_pos ⟨by omega, by omega⟩

/-- The totals for the pen after the mapping, and the mapping's entry. -/
theorem Totals.read_segment {pen : Pen} {m : Mapping} (hPen : pen.Fits) (hFits : m.Fits) :
    (ofPen pen).read m.generated.line (segment pen m) =
      (ofPen (Pen.after m), if 0 < m.source.line then some (MapEntry.ofMapping m) else none) := by
  obtain ⟨hpenColumn, hpenLine, hpenSource⟩ := hPen
  obtain ⟨hline, hcolumn, hsourceLine, hsourceColumn⟩ := hFits
  have hbound : (Offset.bound : Int) = 2 ^ 32 := rfl
  have hdecode : Vlq.decode? (segment pen m) = some [m.generated.column - pen.generatedColumn, 0,
      (m.source.line : Int) - 1 - pen.sourceLine, m.source.column - pen.sourceColumn] := by
    rw [Vlq.decode?, segment, ← List.append_nil (_ ++ Vlq.encode (_ - pen.sourceColumn))]
    simp only [List.append_assoc]
    rw [Vlq.decodeFrom_encode (by omega), Vlq.decodeFrom_encode (by decide),
      Vlq.decodeFrom_encode (by omega), Vlq.decodeFrom_encode (by omega)]
    rfl
  have hadvance : (ofPen pen).advance? (m.generated.column - pen.generatedColumn) 0
      ((m.source.line : Int) - 1 - pen.sourceLine) (m.source.column - pen.sourceColumn) =
      some (ofPen (Pen.after m)) := by
    simp only [advance?, ofPen, Pen.after]
    rw [add?_eq m.generated.column (by omega) (by omega),
      add?_eq 0 (by omega) (by decide),
      add?_eq ((m.source.line : Int) - 1) (by omega) (by omega),
      add?_eq m.source.column (by omega) (by omega)]
    rfl
  have hentry : (ofPen (Pen.after m)).record? m.generated.line none =
      if 0 < m.source.line then some (MapEntry.ofMapping m) else none := by
    have hcoordinate : ∀ n : Nat, n < Offset.bound → coordinate? n = some n := by
      intro n hn
      rw [coordinate?, if_pos ⟨by omega, by omega⟩, Int.toNat_natCast]
    simp only [record?, ofPen, Pen.after, Int.sub_add_cancel, hcoordinate _ hline,
      hcoordinate _ hcolumn, hcoordinate _ hsourceLine, hcoordinate _ hsourceColumn,
      show coordinate? 0 = some 0 from rfl, Option.bind_eq_bind, Option.bind_some]
    split <;> rfl
  rw [read, hdecode]
  simp only [hadvance, hentry]

/-- Reading on where the pen stands gives the entries of the mappings that are written from there,
less those without a source line. -/
theorem Totals.readOn_encodeFrom {pen : Pen} {ms : List Mapping} (hPen : pen.Fits)
    (hFits : ∀ m ∈ ms, m.Fits) (hLines : ∀ m ∈ ms, pen.line ≤ m.generated.line)
    (hSorted : ms.Pairwise fun m n => m.generated.line ≤ n.generated.line) :
    (ofPen pen).readOn pen.line (encodeFrom pen ms) =
      (ms.filter fun m => 0 < m.source.line).map MapEntry.ofMapping := by
  induction ms generalizing pen with
  | nil => rfl
  | cons m ms ih =>
    have hline := hLines m List.mem_cons_self
    have hfits := hFits m List.mem_cons_self
    have hlater : ∀ n ∈ ms, m.generated.line ≤ n.generated.line := fun n hn =>
      List.rel_of_pairwise_cons hSorted hn
    have hcomma : ∀ (t : Totals) (fresh : Bool) (rest : Text),
        t.readOn m.generated.line ((if fresh then [] else [',']) ++ rest) =
          t.readOn m.generated.line rest := by
      intro t fresh rest
      cases fresh
      · exact readOn_comma t _ rest
      · rfl
    have hrest := ih (Pen.after_fits hfits) (fun n hn => hFits n (List.mem_cons_of_mem m hn))
      hlater hSorted.tail
    rw [encodeFrom_cons hline, readOn_lineEnds pen _ hline, hcomma,
      readOn_segment _ _ ne_separator_of_mem_segment (separated_encodeFrom rfl hlater),
      read_segment (Pen.moveTo_fits hPen _) hfits]
    simp only
    rw [show m.generated.line = (Pen.after m).line from rfl, hrest, List.filter_cons]
    by_cases hsource : 0 < m.source.line <;> simp [hsource]

theorem dedupeAfter_sublist (last : Option Position) (table : List Mapping) :
    (dedupeAfter last table).Sublist table := by
  induction table generalizing last with
  | nil => exact List.Sublist.refl []
  | cons m ms ih =>
    rw [dedupeAfter]
    split
    · exact (ih _).cons m
    · exact (ih _).cons_cons m

theorem sorted_mergeSort (table : List Mapping) :
    (table.mergeSort fun m n => m.generated.le n.generated).Pairwise
      fun m n => m.generated.le n.generated = true := by
  refine List.pairwise_mergeSort ?_ ?_ table
  · intro a b c hab hbc
    simp only [Position.le, Bool.or_eq_true, decide_eq_true_eq, Bool.and_eq_true, beq_iff_eq]
      at hab hbc ⊢
    omega
  · intro a b
    simp only [Position.le, Bool.or_eq_true, decide_eq_true_eq, Bool.and_eq_true, beq_iff_eq]
    omega

theorem normalize_sorted (table : List Mapping) :
    (normalize table).Pairwise fun m n => m.generated.le n.generated = true :=
  (sorted_mergeSort _).sublist (dedupeAfter_sublist none _)

theorem mem_of_mem_normalize {table : List Mapping} {m : Mapping} (h : m ∈ normalize table) :
    m ∈ table ∧ 0 < m.generated.line := by
  have hmem := (List.mergeSort_perm _ _).mem_iff.1 ((dedupeAfter_sublist none _).subset h)
  obtain ⟨htable, hline⟩ := List.mem_filter.1 hmem
  exact ⟨htable, of_decide_eq_true hline⟩

/-- Decoding gives back the mappings that are written and have a source line. -/
theorem decode_encode_eq {table : List Mapping} (hFits : ∀ m ∈ table, m.Fits) :
    decode (encode table) =
      ((normalize table).filter fun m => 0 < m.source.line).map MapEntry.ofMapping := by
  have hstart : Pen.start.Fits := ⟨by decide, by decide, by decide⟩
  rw [Totals.decode_eq_readOn, encode]
  refine Totals.readOn_encodeFrom hstart (fun m hm => hFits m (mem_of_mem_normalize hm).1)
    (fun m hm => (mem_of_mem_normalize hm).2) ((normalize_sorted table).imp ?_)
  intro m n hle
  simp only [Position.le, Bool.or_eq_true, decide_eq_true_eq, Bool.and_eq_true, beq_iff_eq] at hle
  omega

/-- Two mappings share their generated position. -/
def sharesPlace (m n : Mapping) : Bool := m.generated == n.generated

/-- In the order of generated positions the mappings of one position stand together, so the first of
each run is the first of all. -/
theorem dedupeAfter_eq_eraseDupsBy {last : Option Position} {table : List Mapping}
    (hSorted : table.Pairwise fun m n => m.generated.le n.generated = true)
    (hLast : ∀ p, last = some p → ∀ m ∈ table, p.le m.generated = true) :
    dedupeAfter last table =
      (table.filter fun m => some m.generated ≠ last).eraseDupsBy sharesPlace := by
  induction table generalizing last with
  | nil => rfl
  | cons m ms ih =>
    have hlater : ∀ n ∈ ms, m.generated.le n.generated = true := fun n hn =>
      List.rel_of_pairwise_cons hSorted hn
    rw [dedupeAfter]
    by_cases hsame : last = some m.generated
    · rw [if_pos hsame, List.filter_cons_of_neg (by simp [hsame])]
      exact ih hSorted.tail fun p hp n hn => hLast p hp n (List.mem_cons_of_mem m hn)
    · have hfresh : ms.filter (fun n => some n.generated ≠ last) = ms := by
        rw [List.filter_eq_self]
        intro n hn
        refine decide_eq_true fun heq => hsame ?_
        have hback := hLast n.generated heq.symm m List.mem_cons_self
        rw [← heq, Position.le_antisymm hback (hlater n hn)]
      rw [if_neg hsame, ih hSorted.tail fun p hp n hn => Option.some.inj hp ▸ hlater n hn,
        List.filter_cons_of_pos (by simpa using Ne.symm hsame), hfresh, List.eraseDupsBy_cons]
      congr 2
      refine List.filter_congr fun n _ => ?_
      simp [sharesPlace]

/-- Decoding an encoded table gives its mappings in the order of their generated positions, of each
position the first one, and without those that lack a generated or a source line. -/
theorem decode_encode_firsts (table : List Mapping) (hFits : ∀ m ∈ table, m.Fits) :
    decode (encode table) =
      ((((table.filter fun m => 0 < m.generated.line).mergeSort fun m n =>
        m.generated.le n.generated).eraseDupsBy sharesPlace).filter fun m =>
          0 < m.source.line).map MapEntry.ofMapping := by
  have hfirsts : normalize table = ((table.filter fun m => 0 < m.generated.line).mergeSort
      fun m n => m.generated.le n.generated).eraseDupsBy sharesPlace := by
    rw [normalize, dedupeAfter_eq_eraseDupsBy (sorted_mergeSort _) (by simp)]
    simp
  rw [decode_encode_eq hFits, hfirsts]

/-- Four of seven mappings are lost: one has no generated line, two come after others at their
position, and one of those others has no source line. -/
theorem decode_encode_firsts_mixed :
    decode (encode [⟨⟨3, 7⟩, ⟨4294967295, 0⟩⟩, ⟨⟨0, 1⟩, ⟨1, 1⟩⟩, ⟨⟨1, 4294967295⟩, ⟨0, 4294967295⟩⟩,
        ⟨⟨3, 7⟩, ⟨2, 2⟩⟩, ⟨⟨1, 2⟩, ⟨5, 0⟩⟩, ⟨⟨1, 4294967295⟩, ⟨8, 9⟩⟩, ⟨⟨3, 2⟩, ⟨1, 1⟩⟩]) =
      [⟨⟨1, 2⟩, ⟨5, 0⟩, some 0, none⟩, ⟨⟨3, 2⟩, ⟨1, 1⟩, some 0, none⟩,
        ⟨⟨3, 7⟩, ⟨4294967295, 0⟩, some 0, none⟩] := by
  rw [decode_encode_firsts _ (by decide)]
  have hsorted : ([⟨⟨3, 7⟩, ⟨4294967295, 0⟩⟩, ⟨⟨0, 1⟩, ⟨1, 1⟩⟩,
      ⟨⟨1, 4294967295⟩, ⟨0, 4294967295⟩⟩, ⟨⟨3, 7⟩, ⟨2, 2⟩⟩, ⟨⟨1, 2⟩, ⟨5, 0⟩⟩,
      ⟨⟨1, 4294967295⟩, ⟨8, 9⟩⟩, ⟨⟨3, 2⟩, ⟨1, 1⟩⟩].filter fun m : Mapping =>
        0 < m.generated.line).mergeSort (fun m n => m.generated.le n.generated) =
      [⟨⟨1, 2⟩, ⟨5, 0⟩⟩, ⟨⟨1, 4294967295⟩, ⟨0, 4294967295⟩⟩, ⟨⟨1, 4294967295⟩, ⟨8, 9⟩⟩,
        ⟨⟨3, 2⟩, ⟨1, 1⟩⟩, ⟨⟨3, 7⟩, ⟨4294967295, 0⟩⟩, ⟨⟨3, 7⟩, ⟨2, 2⟩⟩] := by
    simp [List.mergeSort, Position.le]
  rw [hsorted]
  decide

end Mapping

end BindBlocks
