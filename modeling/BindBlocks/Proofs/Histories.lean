import BindBlocks.Archive.Lookup
import BindBlocks.Proofs.Blockwise
import Mathlib.Data.List.Induction

/-! What an archive holds after any history of actions. For each key, one action counts: the last of
those that store under it and those that remove what is stored under it. If that one stores, its
record is held and all lookups go through it, and otherwise the key has no record. -/

namespace BindBlocks

namespace Archive

/-- What changes an archive. -/
inductive Action where
  | store (key : String) (source generated : Text) (map : MapDocument)
  | keep (key : String) (source : Text) (expansion : Expansion)
  | expand (key : String) (source : Text) (settings : Settings)
  | erase (key : String)
  | clear

/-- An expansion that is refused leaves the archive as it is. -/
def perform (a : Archive) : Action → Archive
  | .store key source generated map => a.put (Record.make key source generated map)
  | .keep key source expansion => a.put (recordOf key source expansion)
  | .expand key source settings =>
    match Archive.expand key source settings with
    | .ok r => a.put r
    | .error _ => a
  | .erase key => a.erase key
  | .clear => empty

/-- The archive after a history that starts with nothing. -/
def run (actions : List Action) : Archive := actions.foldl perform empty

/-- What is stored under a key: two texts and the map between them. -/
structure Version where
  source : Text
  generated : Text
  map : MapDocument

namespace Action

/-- The action stores a version under a key. An expansion goes by its key if the settings name no
file. -/
inductive Stores : Action → String → Version → Prop
  | store (key : String) (source generated : Text) (map : MapDocument) :
    Stores (.store key source generated map) key ⟨source, generated, map⟩
  | keep (key : String) (source : Text) (e : Expansion) :
    Stores (.keep key source e) key ⟨source, e.code, e.map⟩
  | expand (key : String) (source : Text) (settings : Settings) (e : Expansion) :
    Expansion.ofText source { settings with filename := some (settings.filename.getD key) } =
      .ok e →
    Stores (.expand key source settings) key ⟨source, e.code, e.map⟩

/-- The action removes what is stored under a key. -/
inductive Removes : Action → String → Prop
  | erase (key : String) : Removes (.erase key) key
  | clear (key : String) : Removes .clear key

def Concerns (x : Action) (key : String) : Prop := (∃ v, x.Stores key v) ∨ x.Removes key

end Action

/-- The last action of a history that concerns a key stores a version under it. -/
def LastStored (actions : List Action) (key : String) (v : Version) : Prop :=
  ∃ before x after, actions = before ++ x :: after ∧ x.Stores key v ∧
    ∀ y ∈ after, ¬ y.Concerns key

/-- An archive agrees with a history: it holds the versions that were stored last, with the mappings
of their maps, and its lookups are those through these versions. -/
structure Follows (a : Archive) (actions : List Action) : Prop where
  get?_eq_some_iff : ∀ key r, a.get? key = some r ↔
    ∃ v, LastStored actions key v ∧
      r = ⟨key, v.source, v.generated, v.map, Mapping.decode v.map.mappings.toList⟩
  size_eq : ∃ keys : List String, keys.Nodup ∧
    (∀ key, key ∈ keys ↔ ∃ v, LastStored actions key v) ∧ a.size = keys.length
  found : ∀ key v, LastStored actions key v → ∀ offset,
    a.toGenerated key offset =
        ((Locator.ofDocument v.source v.generated v.map).toGenerated offset).map some ∧
      a.toSource key offset =
        ((Locator.ofDocument v.source v.generated v.map).toSource offset).map some
  missing : ∀ key, (∀ v, ¬ LastStored actions key v) → ∀ offset,
    a.toGenerated key offset = .ok none ∧ a.toSource key offset = .ok none

theorem mem_keys_iff (a : Archive) (key : String) : key ∈ a.keys ↔ ∃ r, a.get? key = some r := by
  rw [keys, Std.TreeMap.mem_keys, Std.TreeMap.mem_iff_isSome_getElem?, Option.isSome_iff_exists]
  rfl

/-- What is held of a version. -/
def Version.record (v : Version) (key : String) : Record :=
  Record.make key v.source v.generated v.map

section Steps

variable {x : Action} {key : String} {v : Version}

/-- A store puts the record of what it stores. -/
theorem perform_of_stores (h : x.Stores key v) (a : Archive) :
    a.perform x = a.put (v.record key) := by
  cases h with
  | store => rfl
  | keep => rfl
  | expand _ source settings e hExpand =>
    have hrecord : Archive.expand key source settings = .ok (recordOf key source e) := by
      rw [Archive.expand, hExpand]
      rfl
    rw [perform, hrecord]
    rfl

/-- An action that stores nothing removes something or changes nothing. -/
theorem perform_cases (x : Action) :
    (∃ key v, x.Stores key v) ∨ (∃ key, x = .erase key) ∨ x = .clear ∨
      ∀ a : Archive, a.perform x = a := by
  cases x with
  | store key source generated map => exact .inl ⟨_, _, .store key source generated map⟩
  | keep key source e => exact .inl ⟨_, _, .keep key source e⟩
  | expand key source settings =>
    cases hExpand : Expansion.ofText source
        { settings with filename := some (settings.filename.getD key) } with
    | ok e => exact .inl ⟨_, _, .expand key source settings e hExpand⟩
    | error f =>
      refine .inr (.inr (.inr fun a => ?_))
      have hrefused : Archive.expand key source settings = .error f := by
        rw [Archive.expand, hExpand]
        rfl
      rw [perform, hrefused]
  | erase key => exact .inr (.inl ⟨key, rfl⟩)
  | clear => exact .inr (.inr (.inl rfl))

theorem get?_perform_of_stores (h : x.Stores key v) (a : Archive) :
    (a.perform x).get? key = some (v.record key) := by
  rw [perform_of_stores h, get?_put]
  exact if_pos rfl

theorem get?_perform_of_removes (h : x.Removes key) (a : Archive) :
    (a.perform x).get? key = none := by
  cases h with
  | erase => rw [perform, get?_erase, if_pos rfl]
  | clear => exact get?_empty key

theorem get?_perform_of_not_concerns (h : ¬ x.Concerns key) (a : Archive) :
    (a.perform x).get? key = a.get? key := by
  rcases perform_cases x with ⟨other, v, hstores⟩ | ⟨other, rfl⟩ | rfl | hsame
  · have hne : other ≠ key := by
      rintro rfl
      exact h (.inl ⟨v, hstores⟩)
    rw [perform_of_stores hstores, get?_put]
    exact if_neg hne
  · have hne : other ≠ key := by
      rintro rfl
      exact h (.inr (.erase other))
    rw [perform, get?_erase, if_neg hne]
  · exact absurd (.inr (.clear key)) h
  · rw [hsame]

end Steps

section Runs

variable {x : Action} {actions : List Action} {key : String} {v : Version}

theorem not_lastStored_nil : ¬ LastStored [] key v := by
  rintro ⟨before, x, after, hsplit, -, -⟩
  exact absurd hsplit (by simp)

theorem lastStored_snoc_iff :
    LastStored (actions ++ [x]) key v ↔
      x.Stores key v ∨ ¬ x.Concerns key ∧ LastStored actions key v := by
  constructor
  · rintro ⟨before, y, after, hsplit, hstores, hafter⟩
    rcases List.eq_nil_or_concat after with rfl | ⟨after, z, rfl⟩
    · obtain ⟨-, hlast⟩ := List.append_inj' hsplit rfl
      rw [List.singleton_inj.1 hlast]
      exact .inl hstores
    · rw [List.concat_eq_append, ← List.cons_append, ← List.append_assoc] at hsplit
      obtain ⟨rfl, hlast⟩ := List.append_inj' hsplit rfl
      rw [List.singleton_inj.1 hlast]
      exact .inr ⟨hafter z (by simp), before, y, after, rfl, hstores,
        fun w hw => hafter w (by simp [hw])⟩
  · rintro (hstores | ⟨hnot, before, y, after, rfl, hstores, hafter⟩)
    · exact ⟨actions, x, [], rfl, hstores, by simp⟩
    · refine ⟨before, y, after ++ [x], by simp, hstores, fun w hw => ?_⟩
      rcases List.mem_append.1 hw with hw | hw
      · exact hafter w hw
      · rw [List.mem_singleton.1 hw]
        exact hnot

/-- After any history, a key has the record of the version that was stored last. -/
theorem get?_run (actions : List Action) (key : String) (r : Record) :
    (run actions).get? key = some r ↔ ∃ v, LastStored actions key v ∧ v.record key = r := by
  induction actions using List.reverseRecOn with
  | nil =>
    refine iff_of_false (fun h => ?_) fun ⟨v, h, _⟩ => not_lastStored_nil h
    rw [run, List.foldl_nil, get?_empty] at h
    exact absurd h (by simp)
  | append_singleton actions x ih =>
    simp only [lastStored_snoc_iff]
    rw [run, List.foldl_append, List.foldl_cons, List.foldl_nil, ← run]
    by_cases hstores : ∃ v, x.Stores key v
    · obtain ⟨v, hv⟩ := hstores
      constructor
      · intro h
        rw [get?_perform_of_stores hv] at h
        exact ⟨v, .inl hv, Option.some.inj h⟩
      · rintro ⟨w, hw | ⟨hnot, -⟩, rfl⟩
        · exact get?_perform_of_stores hw _
        · exact absurd (.inl ⟨v, hv⟩) hnot
    by_cases hremoves : x.Removes key
    · rw [get?_perform_of_removes hremoves]
      refine iff_of_false (by simp) ?_
      rintro ⟨w, hw | ⟨hnot, -⟩, -⟩
      · exact hstores ⟨w, hw⟩
      · exact hnot (.inr hremoves)
    · have hnot : ¬ x.Concerns key := not_or.2 ⟨hstores, hremoves⟩
      rw [get?_perform_of_not_concerns hnot, ih]
      simp only [not_exists.1 hstores, hnot, not_false_eq_true, true_and, false_or]

theorem get?_run_of_lastStored (h : LastStored actions key v) :
    (run actions).get? key = some (v.record key) :=
  (get?_run actions key _).2 ⟨v, h, rfl⟩

theorem get?_run_eq_none (h : ∀ v, ¬ LastStored actions key v) : (run actions).get? key = none := by
  rw [Option.eq_none_iff_forall_ne_some]
  intro r hr
  obtain ⟨v, hv, -⟩ := (get?_run actions key r).1 hr
  exact h v hv

end Runs

/-- A text whose size has 32 bits is expanded, and so it is stored. -/
theorem Action.exists_stores_of_expand (key : String) {source : Text} (settings : Settings)
    (hFits : Text.size source < Offset.bound) :
    ∃ v, (Action.expand key source settings).Stores key v := by
  obtain ⟨bs, r, hrevised⟩ := Expansion.exists_revised settings.wrapping hFits
  exact ⟨_, .expand key source settings _ (hrevised.ofText_eq
    { settings with filename := some (settings.filename.getD key) })⟩

/-- After any history that starts with nothing, an archive agrees with it. Each expansion of a text
counts as a store, if the lines of the text and those of its code have numbers of 32 bits. -/
theorem run_follows (actions : List Action) :
    (run actions).Follows actions ∧
      ∀ key source settings, source.Addressable →
        (∀ r, Expansion.revision source settings.wrapping = .ok r →
          (LineTable.ofText r.text).count < Offset.bound) →
        ∃ v, (Action.expand key source settings).Stores key v := by
  refine ⟨⟨?_, ?_, ?_, ?_⟩, fun key source settings hSource _ =>
    Action.exists_stores_of_expand key settings hSource.size⟩
  · intro key r
    rw [get?_run]
    exact exists_congr fun v => and_congr_right fun _ => eq_comm
  · refine ⟨(run actions).keys, Std.TreeMap.nodup_keys, fun key => ?_, Std.TreeMap.length_keys.symm⟩
    simp only [mem_keys_iff, get?_run]
    exact ⟨fun ⟨_, v, hv, _⟩ => ⟨v, hv⟩, fun ⟨v, hv⟩ => ⟨_, v, hv, rfl⟩⟩
  · intro key v hv offset
    rw [toGenerated, toSource, locator?, get?_run_of_lastStored hv]
    exact ⟨rfl, rfl⟩
  · intro key hnone offset
    rw [toGenerated, toSource, locator?, get?_run_eq_none hnone]
    exact ⟨rfl, rfl⟩

end Archive

end BindBlocks
