import BindBlocks.Archive.Lookup

/-! Carrying diagnostics back to the sources of their files. One that belongs to a file with a
record keeps all but its extent, whose two ends are carried back one by one. Many at once are
carried back as each of them would be alone: the locators at hand are always those of the files that
they are kept for. -/

namespace BindBlocks

namespace Diagnostic

/-- A diagnostic is carried back along a locator: it starts where its start goes and stops where its
stop goes, but not before its start, and is the same otherwise. -/
structure CarriedBack (l : Locator) (d r : Diagnostic) : Prop where
  fits : d.start + d.length < Offset.bound
  start : l.toSource d.start = .ok r.start
  length : ∃ stop, l.toSource (d.start + d.length) = .ok stop ∧
    (r.length : Int) = max 0 ((stop : Int) - r.start)
  rest : r = { d with start := r.start, length := r.length }

variable (l : Locator) (d : Diagnostic)

/-- A diagnostic without a stop cannot be carried back. -/
theorem toSource_of_overflow (h : Offset.bound ≤ d.start + d.length) :
    d.toSource l = .error .addOverflow := by
  have hadd : Offset.add d.start d.length = .error .addOverflow := by
    rw [Offset.add, if_neg (Nat.not_lt.2 h)]
  rw [toSource, Extent.toSource, Extent.span, Span.ofLength, extent]
  simp only [hadd]
  rfl

/-- The two ends are carried back one after the other. -/
theorem toSource_of_fits (h : d.start + d.length < Offset.bound) :
    d.toSource l = do
      let start ← l.toSource d.start
      let stop ← l.toSource (d.start + d.length)
      return { d with start, length := stop - start } := by
  have hends : Span.ofLength d.start d.length = .ok ⟨d.start, d.start + d.length⟩ := by
    rw [Span.ofLength, Offset.add_eq_ok h]
    rfl
  have hlength : ∀ start stop : Nat,
      Extent.ofSpan ⟨start, max stop start⟩ = .ok ⟨start, stop - start⟩ := by
    intro start stop
    have hmax : max stop start - start = stop - start := by omega
    rw [Extent.ofSpan, Span.length, Offset.sub_eq_ok (Nat.le_max_right stop start), hmax]
    rfl
  rw [toSource, Extent.toSource, Extent.span, extent]
  simp only [hends]
  cases hstart : l.toSource d.start with
  | error fault => simp [Locator.spanToSource, hstart, bind, Except.bind]
  | ok start =>
    cases hstop : l.toSource (d.start + d.length) with
    | error fault => simp [Locator.spanToSource, hstart, hstop, bind, Except.bind]
    | ok stop =>
      simp [Locator.spanToSource, hstart, hstop, hlength, bind, Except.bind, pure, Except.pure]

theorem toSource_eq_ok_iff (r : Diagnostic) : d.toSource l = .ok r ↔ CarriedBack l d r := by
  rcases Nat.lt_or_ge (d.start + d.length) Offset.bound with hfits | hover
  · simp only [toSource_of_fits l d hfits, Fault.bind_eq_ok_iff]
    constructor
    · rintro ⟨start, hstart, stop, hstop, hr⟩
      obtain rfl := Except.ok.inj hr
      exact ⟨hfits, hstart, ⟨stop, hstop, by simp only; omega⟩, rfl⟩
    · rintro ⟨-, hstart, ⟨stop, hstop, hlength⟩, hrest⟩
      have hnat : stop - r.start = r.length := by omega
      refine ⟨r.start, hstart, stop, hstop, ?_⟩
      rw [hnat, ← hrest]
      rfl
  · rw [toSource_of_overflow l d hover]
    refine iff_of_false (by simp) fun h => ?_
    exact absurd h.fits (Nat.not_lt.2 hover)

end Diagnostic

namespace Archive

open Diagnostic

/-- Each locator at hand is that of the file it is kept for. -/
def AtHand (a : Archive) (known : List (String × Option Locator)) : Prop :=
  ∀ file l, List.lookup file known = some l → l = a.locator? file

variable {a : Archive} {known : List (String × Option Locator)}

theorem atHand_nil : a.AtHand [] := by
  intro file l h
  exact absurd h (by simp)

theorem AtHand.cons (h : a.AtHand known) (file : String) :
    a.AtHand ((file, a.locator? file) :: known) := by
  intro other l hlookup
  rw [List.lookup_cons] at hlookup
  split at hlookup
  · rename_i heq
    rw [beq_iff_eq.1 heq]
    exact (Option.some.inj hlookup).symm
  · exact h other l hlookup

/-- With the right locators at hand, the next diagnostic is carried back as it would be alone. -/
theorem AtHand.resolveWith_cons (h : a.AtHand known) (d : Diagnostic) (ds : List Diagnostic) :
    ∃ known', a.AtHand known' ∧ a.resolveWith known (d :: ds) = do
      let resolved ← a.resolve d
      return resolved :: (← a.resolveWith known' ds) := by
  rw [resolveWith, resolve]
  cases hlookup : List.lookup d.file known with
  | some l =>
    rw [← h d.file l hlookup]
    exact ⟨known, h, rfl⟩
  | none => exact ⟨_, h.cons d.file, rfl⟩

theorem AtHand.resolveWith_eq_mapM (h : a.AtHand known) (ds : List Diagnostic) :
    a.resolveWith known ds = ds.mapM a.resolve := by
  induction ds generalizing known with
  | nil => rfl
  | cons d ds ih =>
    obtain ⟨known', hknown, hstep⟩ := h.resolveWith_cons d ds
    rw [hstep, ih hknown, List.mapM_cons]

/-- All are carried back if each of them can be. -/
theorem exists_mapM_resolve_iff (a : Archive) (ds : List Diagnostic) :
    (∃ rs, ds.mapM a.resolve = .ok rs) ↔ ∀ d ∈ ds, ∃ r, a.resolve d = .ok r := by
  induction ds with
  | nil => exact ⟨fun _ => by simp, fun _ => ⟨[], rfl⟩⟩
  | cons d ds ih =>
    simp only [List.forall_mem_cons, ← ih, List.mapM_cons, Fault.bind_eq_ok_iff]
    constructor
    · rintro ⟨rs, r, hr, rest, hrest, -⟩
      exact ⟨⟨r, hr⟩, ⟨rest, hrest⟩⟩
    · rintro ⟨⟨r, hr⟩, ⟨rest, hrest⟩⟩
      exact ⟨r :: rest, r, hr, rest, hrest, rfl⟩

/-- Many diagnostics are carried back as each of them is alone, in their order, and this fails
exactly if one of them fails. One that belongs to a file without a record stays as it is, and any
other one is carried back along the locator of the record. -/
theorem resolveAll_one_by_one (a : Archive) (ds : List Diagnostic) :
    a.resolveAll ds = ds.mapM a.resolve ∧
    ((∃ rs, a.resolveAll ds = .ok rs) ↔ ∀ d ∈ ds, ∃ r, a.resolve d = .ok r) ∧
    ∀ d, (a.get? d.file = none → a.resolve d = .ok d) ∧
      ∀ record, a.get? d.file = some record →
        ∀ r, a.resolve d = .ok r ↔ CarriedBack record.locator d r := by
  have hall : a.resolveAll ds = ds.mapM a.resolve := atHand_nil.resolveWith_eq_mapM ds
  have hreturns := a.exists_mapM_resolve_iff ds
  rw [← hall] at hreturns
  refine ⟨hall, hreturns, fun d => ⟨fun hnone => ?_, fun record hsome r => ?_⟩⟩
  · rw [resolve, locator?, hnone]
    rfl
  · rw [resolve, locator?, hsome]
    exact toSource_eq_ok_iff record.locator d r

end Archive

end BindBlocks
