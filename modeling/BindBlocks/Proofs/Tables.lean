import BindBlocks.Proofs.Anchors
import BindBlocks.Text.Pieces
import Mathlib.Data.List.Sort

/-! The table of a revision, whatever its edits. One drift is advanced along the whole source, and
gives each boundary the place that a drift of its own would give it; the positions of the source
are counted along, and are those of its lines, column by column. -/

namespace BindBlocks

namespace Text

theorem mem_boundaries_iff {t : Text} {o : Nat} : o ∈ boundaries t ↔ isBoundary t o = true := by
  rw [mem_boundaries, isBoundary_iff]
  simp only [eq_comm (a := o)]

/-- The boundaries of a text are the offsets up to its size that are boundaries, in order. -/
theorem boundaries_eq_filter (t : Text) :
    boundaries t = (List.range (size t + 1)).filter t.isBoundary := by
  refine (boundaries_rising t).eq_of_mem_iff (List.pairwise_lt_range.filter _) fun o => ?_
  rw [List.mem_filter, List.mem_range, ← mem_boundaries_iff, and_iff_right_of_imp]
  exact fun ho => Nat.lt_succ_of_le (le_size_of_mem_boundaries ho)

theorem length_boundariesFrom (offset : Nat) (t : Text) :
    (boundariesFrom offset t).length = t.length + 1 := by
  induction t generalizing offset with
  | nil => rfl
  | cons c t ih => rw [boundariesFrom, List.length_cons, ih, List.length_cons]

/-- The positions of the boundaries of rows, of which the first is line `first`. -/
def positions (first : Nat) (rows : List Text) : List Position :=
  (rows.zipIdx first).flatMap fun row => (boundaries row.1).map (Position.mk row.2)

theorem positions_cons (first : Nat) (row : Text) (rows : List Text) :
    positions first (row :: rows) =
      (boundaries row).map (Position.mk first) ++ positions (first + 1) rows := by
  rw [positions, List.zipIdx_cons, List.flatMap_cons, positions]

end Text

namespace Revision

/-- From a column of a line on, the table goes on with the rest of the line and then with the lines
behind it. -/
theorem source_tableFrom {t row : Text} {rows : List Text}
    (hRows : Text.splitOn '\n' t = row :: rows) (generated : LineTable) (d : Drift)
    (offset line column : Nat) :
    (tableFrom generated d offset ⟨line, column⟩ t).map (·.source) =
      ((Text.boundariesFrom column row).map (Position.mk line) ++
        Text.positions (line + 1) rows).map Position.numbered := by
  induction t generalizing row rows d offset line column with
  | nil =>
    obtain ⟨rfl, rfl⟩ := List.cons.inj hRows
    rfl
  | cons c t ih =>
    obtain ⟨first, rest, hrest⟩ := List.exists_cons_of_ne_nil (Text.splitOn_ne_nil '\n' t)
    rw [Text.splitOn, hrest] at hRows
    rw [tableFrom, List.map_cons, Position.after]
    by_cases hc : c = '\n'
    · rw [if_pos hc] at hRows ⊢
      obtain ⟨rfl, rfl⟩ := List.cons.inj hRows
      rw [ih hrest, Text.positions_cons]
      rfl
    · rw [if_neg hc] at hRows ⊢
      obtain ⟨rfl, rfl⟩ := List.cons.inj hRows
      rw [ih hrest]
      rfl

/-- The table runs through the source line by line, and through each line from its start to its
end. -/
theorem source_table (r : Revision) :
    r.table.map (·.source) =
      (Text.positions 0 (Text.splitOn '\n' r.source)).map Position.numbered := by
  obtain ⟨row, rows, hrows⟩ := List.exists_cons_of_ne_nil (Text.splitOn_ne_nil '\n' r.source)
  rw [hrows, Text.positions_cons]
  exact source_tableFrom hrows _ _ 0 0 0

theorem place_lt (r : Revision) (o : Nat) : r.place o < Offset.bound :=
  Nat.mod_lt _ (by decide)

end Revision

namespace Draft

theorem source_of_commit {d : Draft} {r : Revision} (h : d.commit = .ok r) :
    r.source = d.source := by
  obtain ⟨text, -, hr⟩ := Fault.bind_eq_ok_iff.1 h
  rw [← Except.ok.inj hr]

/-- Whatever the edits of a draft are, if they can be made and both texts have offsets and line
numbers of 32 bits, the table of the result has one mapping for each boundary of the source, in
order: from the position of the place where the boundary goes to its own position. These are the
columns of the lines of the source, and the numbers in the table have 32 bits. -/
theorem commit_table (source : Text) (edits : List Edit) (r : Revision)
    (hCommit : ((ofText source).pushAll edits).commit = .ok r)
    (hSource : source.Addressable) (hText : r.text.Addressable) :
    r.table = ((List.range (Text.size source + 1)).filter source.isBoundary).map (fun o =>
      ⟨((LineTable.ofText r.text).position (r.place o)).numbered,
        ((LineTable.ofText source).position o).numbered⟩) ∧
    r.table.length = source.length + 1 ∧
    r.table.map (·.source) =
      (Text.positions 0 (Text.splitOn '\n' source)).map Position.numbered ∧
    ∀ m ∈ r.table, m.Fits := by
  obtain rfl : r.source = source := by
    rw [source_of_commit hCommit, pushAll_eq]
    rfl
  refine ⟨?_, ?_, r.source_table, fun m hm => ?_⟩
  · rw [r.table_eq, Text.boundaries_eq_filter]
    rfl
  · rw [r.table_eq, List.length_map]
    exact Text.length_boundariesFrom 0 r.source
  · rw [r.table_eq] at hm
    obtain ⟨o, ho, rfl⟩ := List.mem_map.1 hm
    have hle := Text.le_size_of_mem_boundaries ho
    exact Revision.mappingAt_fits hSource hText (Nat.lt_of_le_of_lt hle hSource.size) (r.place_lt o)

/-- A line feed grows to three, and the replacement that overlaps it takes all of them away. -/
theorem commit_table_overlapping :
    let edits := [.replace ⟨0, 4⟩ ['Y'], .replace ⟨1, 2⟩ ['\n', '\n', '\n']]
    let r : Revision := ⟨['a', '\n', 'é'], ['Y', 'é'], edits⟩
    ((ofText ['a', '\n', 'é']).pushAll edits).commit = .ok r ∧
    r.table = [⟨⟨1, 0⟩, ⟨1, 0⟩⟩, ⟨⟨1, 0⟩, ⟨1, 1⟩⟩, ⟨⟨1, 0⟩, ⟨2, 0⟩⟩, ⟨⟨1, 3⟩, ⟨2, 2⟩⟩] := by
  intro edits r
  have hmaking : makingOrder edits =
      [.replace ⟨1, 2⟩ ['\n', '\n', '\n'], .replace ⟨0, 4⟩ ['Y']] := by
    change [Edit.replace ⟨0, 4⟩ ['Y'], .replace ⟨1, 2⟩ ['\n', '\n', '\n']].mergeSort _ = _
    simp [List.mergeSort, Edit.start]
  have hreading : readingOrder edits = edits := by
    simp [edits, readingOrder, List.mergeSort, Edit.start]
  have hedits : ((ofText ['a', '\n', 'é']).pushAll edits).edits = edits := by decide
  have hcommit : ((ofText ['a', '\n', 'é']).pushAll edits).commit = .ok r := by
    rw [commit, hedits, hmaking, hreading]
    rfl
  refine ⟨hcommit, ?_⟩
  rw [(commit_table ['a', '\n', 'é'] edits r hcommit (Text.addressable_of_size (by decide))
    (Text.addressable_of_size (by decide))).1]
  decide

end Draft

end BindBlocks
