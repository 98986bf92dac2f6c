import BindBlocks.Proofs.OpenCode
import Mathlib.Data.List.Forall2

/-! Expanding a content row by row. `Becomes` says what a row may turn into, as far as its
characters go: it stays as it is, or `const` stands in front of its target and `= yield*` in place
of its arrow, or `yield*` in place of an arrow without a target. Indentation, spacing, semicolons
and carriage returns stay, and a blank is put where the new words would touch. A row changes exactly
where it holds an open binding. -/

namespace BindBlocks

theorem Text.trimEnd_concat {p : Char → Bool} {t u : Text} {c : Char}
    (h : Text.trimEnd p t = u ++ [c]) : p c = false := by
  induction t generalizing u with
  | nil => exact absurd h (by simp [Text.trimEnd])
  | cons d t ih =>
    rw [Text.trimEnd] at h
    split at h
    · split at h
      · exact absurd h (by simp)
      · rename_i hd
        have hlast : [] ++ [d] = u ++ [c] := h
        obtain ⟨-, hc⟩ := List.append_inj' hlast rfl
        rw [← (List.cons.inj hc).1]
        simpa using hd
    · rename_i hrest
      cases u with
      | nil => exact absurd (List.cons.inj h).2 hrest
      | cons e u => exact ih (List.cons.inj h).2

namespace Binding

/-- What a line holds behind its arrow has been read from there. -/
theorem exists_afterArrow?_of_parse? {line : Text} {b : Binding} (h : parse? line = some b) :
    ∃ t, afterArrow? t = some (b.lead, b.expression, b.tail) := by
  unfold parse? at h
  simp only at h
  split at h
  · rename_i t _
    obtain ⟨parts, hafter, rfl⟩ := Option.map_eq_some_iff.1 h
    exact ⟨t, hafter⟩
  · exact absurd h (by simp)

theorem expression_ne_nil {line : Text} {b : Binding} (h : parse? line = some b) :
    b.expression ≠ [] := by
  obtain ⟨t, hafter⟩ := exists_afterArrow?_of_parse? h
  unfold afterArrow? at hafter
  split at hafter
  · split at hafter
    · exact absurd hafter (by simp)
    · simp only [Option.some.injEq, Prod.mk.injEq] at hafter
      rw [← hafter.2.1]
      exact List.cons_ne_nil _ _
  · simp only [Option.some.injEq, Prod.mk.injEq] at hafter
    rw [← hafter.2.1, ne_eq, List.take_eq_nil_iff]
    simp only [reduceCtorEq, or_false]
    omega

end Binding

namespace Content

/-- What stands behind an arrow and the blank that is put in front of it. There is something in it
besides carriage returns at its end, and it starts with a blank or is given one. -/
structure Separated (blank rest : Text) : Prop where
  single : blank = [] ∨ blank = [' ']
  filled : ∃ c ∈ rest, c ≠ '\r'
  apart : ∃ g u, blank ++ rest = g :: u ∧ Text.isGap g = true

end Content

end BindBlocks
