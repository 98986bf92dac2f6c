import BindBlocks.Proofs.Lines
import BindBlocks.Text.Pieces

/-! The rows of a text: what stands between its line feeds, each with the offset at which it starts.
A text is one row, or a row and a line feed in front of another text; what is said of texts row by
row follows by induction along that division. -/

namespace BindBlocks

namespace Text

/-- The rows of a text that starts at `offset`. -/
def rowsFrom (offset : Nat) (t : Text) : List (Nat × Text) :=
  (offset :: LineTable.breaksFrom offset t).zip (splitOn '\n' t)

/-- The pieces between the line feeds of a text, each with the offset at which it starts. -/
def rows (t : Text) : List (Nat × Text) := (LineTable.ofText t).starts.zip (splitOn '\n' t)

theorem rows_eq (t : Text) : rows t = rowsFrom 0 t := rfl

/-- Induction along the line feeds of a text. -/
theorem row_induction {motive : Text → Prop} (last : ∀ u, '\n' ∉ u → motive u)
    (feed : ∀ u t, '\n' ∉ u → motive t → motive (u ++ '\n' :: t)) (t : Text) : motive t := by
  induction hn : t.length using Nat.strongRecOn generalizing t with
  | ind n ih =>
    subst hn
    by_cases hmem : '\n' ∈ t
    · obtain ⟨u, rest, rfl, hu⟩ := List.eq_append_cons_of_mem hmem
      refine feed u rest hu (ih rest.length ?_ rest rfl)
      simp only [List.length_append, List.length_cons]
      omega
    · exact last t hmem

section Feeds

variable {u : Text} (hu : '\n' ∉ u)
include hu

theorem splitOn_feed (t : Text) : splitOn '\n' (u ++ '\n' :: t) = u :: splitOn '\n' t := by
  rw [splitOn_append (List.forall_mem_ne'.2 hu) (splitOn_separator '\n' t), List.append_nil]

theorem splitOn_single : splitOn '\n' u = [u] :=
  splitOn_eq_singleton (List.forall_mem_ne'.2 hu)

theorem breaksFrom_append (offset : Nat) (t : Text) :
    LineTable.breaksFrom offset (u ++ t) = LineTable.breaksFrom (offset + size u) t := by
  induction u generalizing offset with
  | nil => rfl
  | cons c u ih =>
    have hc := List.ne_of_not_mem_cons hu
    have hu := List.not_mem_of_not_mem_cons hu
    rw [List.cons_append, LineTable.breaksFrom, if_neg (Ne.symm hc), ih hu, size_cons,
      Nat.add_assoc]

theorem rowsFrom_feed (offset : Nat) (t : Text) :
    rowsFrom offset (u ++ '\n' :: t) = (offset, u) :: rowsFrom (offset + size u + 1) t := by
  rw [rowsFrom, splitOn_feed hu, breaksFrom_append hu, LineTable.breaksFrom, if_pos rfl]
  rfl

theorem rowsFrom_single (offset : Nat) : rowsFrom offset u = [(offset, u)] := by
  rw [rowsFrom, splitOn_single hu, List.zip_cons_cons, List.zip_nil_right]

theorem lines_feed (t : Text) : lines (u ++ '\n' :: t) = (u ++ ['\n']) :: lines t := by
  induction u with
  | nil => rw [List.nil_append, lines, if_pos rfl]; rfl
  | cons c u ih =>
    have hc := List.ne_of_not_mem_cons hu
    have hu := List.not_mem_of_not_mem_cons hu
    rw [List.cons_append, lines, if_neg (Ne.symm hc), ih hu]
    rfl

theorem lines_single (hNil : u ≠ []) : lines u = [u] := by
  induction u with
  | nil => exact absurd rfl hNil
  | cons c u ih =>
    have hc := List.ne_of_not_mem_cons hu
    have hu := List.not_mem_of_not_mem_cons hu
    rw [lines, if_neg (Ne.symm hc)]
    cases u with
    | nil => rfl
    | cons d u => rw [ih hu (List.cons_ne_nil d u)]

end Feeds

theorem start_of_mem_rowsFrom {offset : Nat} {t : Text} {row : Nat × Text}
    (h : row ∈ rowsFrom offset t) : offset ≤ row.1 := by
  induction t using row_induction generalizing offset with
  | last u hu =>
    rw [rowsFrom_single hu, List.mem_singleton] at h
    exact Nat.le_of_eq (congrArg Prod.fst h).symm
  | feed u t hu ih =>
    rw [rowsFrom_feed hu] at h
    rcases List.mem_cons.1 h with rfl | h
    · exact Nat.le_refl _
    · have := ih h
      omega

/-- A row is over before the next one starts. -/
theorem rowsFrom_apart (offset : Nat) (t : Text) :
    (rowsFrom offset t).Pairwise fun row later => row.1 + size row.2 < later.1 := by
  induction t using row_induction generalizing offset with
  | last u hu =>
    rw [rowsFrom_single hu]
    exact List.pairwise_singleton _ _
  | feed u t hu ih =>
    rw [rowsFrom_feed hu]
    refine .cons (fun later hlater => ?_) (ih _)
    have := start_of_mem_rowsFrom hlater
    simp only
    omega

/-- Every line start has its row. -/
theorem map_fst_rowsFrom (offset : Nat) (t : Text) :
    (rowsFrom offset t).map Prod.fst = offset :: LineTable.breaksFrom offset t := by
  induction t using row_induction generalizing offset with
  | last u hu =>
    have hbreaks := breaksFrom_append hu offset []
    rw [List.append_nil] at hbreaks
    rw [rowsFrom_single hu, hbreaks]
    rfl
  | feed u t hu ih =>
    rw [rowsFrom_feed hu, List.map_cons, ih, breaksFrom_append hu, LineTable.breaksFrom, if_pos rfl]
    rfl

/-- A row stands in the text at its offset. -/
theorem exists_split_of_mem_rowsFrom {offset : Nat} {t : Text} {row : Nat × Text}
    (h : row ∈ rowsFrom offset t) :
    ∃ front back, t = front ++ (row.2 ++ back) ∧ row.1 = offset + size front := by
  induction t using row_induction generalizing offset with
  | last u hu =>
    rw [rowsFrom_single hu, List.mem_singleton] at h
    exact ⟨[], [], by rw [h, List.append_nil]; rfl, by rw [h]; rfl⟩
  | feed u t hu ih =>
    rw [rowsFrom_feed hu] at h
    rcases List.mem_cons.1 h with rfl | h
    · exact ⟨[], '\n' :: t, rfl, rfl⟩
    · obtain ⟨front, back, hsplit, hstart⟩ := ih h
      refine ⟨u ++ '\n' :: front, back, ?_, ?_⟩
      · rw [hsplit, List.append_assoc, List.cons_append]
      · have hfeed : '\n'.utf8Size = 1 := rfl
        simp only [hstart, size_append, size_cons, hfeed]
        omega

/-- An offset lies on one row. -/
theorem eq_of_mem_rows {t : Text} {row other : Nat × Text} (h : row ∈ rows t)
    (hOther : other ∈ rows t) {o : Nat} (hRow : row.1 ≤ o ∧ o ≤ row.1 + size row.2)
    (hOn : other.1 ≤ o ∧ o ≤ other.1 + size other.2) : row = other := by
  have hall : ∀ ⦃r⦄, r ∈ rows t → ∀ ⦃s⦄, s ∈ rows t →
      r.1 ≤ o ∧ o ≤ r.1 + size r.2 → s.1 ≤ o ∧ o ≤ s.1 + size s.2 → r = s :=
    List.Pairwise.forall_of_forall_of_flip (fun _ _ _ _ => rfl)
      ((rowsFrom_apart 0 t).imp fun hlt hr hs => absurd hs.1 (by omega))
      ((rowsFrom_apart 0 t).imp fun hlt hr hs => absurd hr.1 (by omega))
  exact hall h hOther hRow hOn

/-- The line of an offset starts where its row does. -/
theorem startAt_of_mem_rows {t : Text} {row : Nat × Text} (h : row ∈ rows t) {o : Nat}
    (hLow : row.1 ≤ o) (hHigh : o ≤ row.1 + size row.2) :
    (LineTable.ofText t).startAt o = row.1 := by
  have hproper := LineTable.ofText_proper t
  have hle := hproper.startAt_le o
  have hge := hproper.le_startAt (List.of_mem_zip h).1 hLow
  have hmem : (LineTable.ofText t).startAt o ∈ (rowsFrom 0 t).map Prod.fst := by
    rw [map_fst_rowsFrom]
    exact hproper.startAt_mem o
  obtain ⟨other, hother, hstart⟩ := List.mem_map.1 hmem
  have hsame := eq_of_mem_rows h hother (o := other.1) ⟨by omega, by omega⟩
    ⟨Nat.le_refl _, Nat.le_add_right _ _⟩
  rw [← hstart, hsame]

end Text

end BindBlocks
