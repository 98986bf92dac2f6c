import BindBlocks.MapDocument.Reader
import BindBlocks.Proofs.WrittenJson

/-! Written map documents are read back. The members of a document are read one after another into
the fields read so far; `Fills` relates the fields before and after. What has been left out is read
as absent, and only the version and the number of sources can refuse the document. -/

namespace BindBlocks

namespace MapDocument

open Json (Follows Reads write writeMembers)

namespace Partial

/-- Reading these members one after another takes the fields from `p` to `q`. -/
inductive Fills : Partial → List (String × Json) → Partial → Prop
  | nil (p : Partial) : Fills p [] p
  | cons (field : Field) {p next q : Partial} {name : String} {value : Json}
      {members : List (String × Json)} (named : Field.ofName? name = some field)
      (absent : p.has field = false) (reads : Reads (p.read field) (write value) next)
      (rest : Fills next members q) : Fills p ((name, value) :: members) q

theorem Fills.append {p q r : Partial} {ms ns : List (String × Json)} (h : Fills p ms q)
    (h' : Fills q ns r) : Fills p (ms ++ ns) r := by
  induction h with
  | nil p => exact h'
  | cons field named absent reads _ ih => exact .cons field named absent reads (ih h')

theorem length_lt_writeMembers (members : List (String × Json)) :
    members.length < (writeMembers members).length := by
  induction members with
  | nil => rw [writeMembers]; decide
  | cons member members ih =>
    rw [writeMembers]
    simp only [List.cons_append, List.length_cons, List.length_append]
    omega

theorem follows_writeMembers (members : List (String × Json)) (rest : Text) :
    Follows (writeMembers members ++ rest) := by
  cases members with
  | nil => rw [writeMembers]; exact .brace rest
  | cons member members => rw [writeMembers]; exact .comma _

/-- One member more, with its comma unless it is the first. -/
theorem readMembers_cons (first : Bool) {fuel : Nat} {p next q : Partial} {name : String}
    {field : Field} {spelling t rest : Text} (hNamed : Field.ofName? name = some field)
    (hAbsent : p.has field = false) (hReads : Reads (p.read field) spelling next)
    (hFollows : Follows t) (hRest : next.readMembers false fuel t = .ok (q, rest)) :
    p.readMembers first (fuel + 1)
        ((if first then [] else [',']) ++ Json.writeString name ++ ':' :: spelling ++ t) =
      .ok (q, rest) := by
  have hnext : Json.nextMember first
      ((if first then [] else [',']) ++ Json.writeString name ++ ':' :: spelling ++ t) =
      .ok (true, name.toList.flatMap Json.escape ++ '\x22' :: ':' :: (spelling ++ t)) := by
    have hquote : Json.isBlank '\x22' = false := by decide
    have hcomma : Json.isBlank ',' = false := by decide
    cases first <;>
      simp [Json.nextMember, Json.writeString, Json.skipBlanks_cons hquote,
        Json.skipBlanks_cons hcomma]
  have hmark : Json.mark ':' (':' :: (spelling ++ t)) = .ok (spelling ++ t) := by
    simp [Json.mark, Json.skipBlanks_cons (show Json.isBlank ':' = false by decide)]
  rw [readMembers, hnext]
  simp only [bind, Except.bind, if_true, Json.quoted_flatMap_escape, String.ofList_toList, hNamed,
    hAbsent, hmark, hReads.run hFollows, hRest]
  rfl

theorem Fills.readMembers_eq {p q : Partial} {members : List (String × Json)}
    (h : Fills p members q) {fuel : Nat} (hFuel : members.length < fuel) (rest : Text) :
    p.readMembers false fuel (writeMembers members ++ rest) = .ok (q, rest) := by
  induction h generalizing fuel with
  | nil p =>
    obtain ⟨fuel, rfl⟩ := Nat.exists_eq_add_of_lt hFuel
    rw [writeMembers]
    rfl
  | cons field named absent reads _ ih =>
    cases fuel with
    | zero => exact absurd hFuel (Nat.not_lt_zero _)
    | succ fuel =>
      rw [writeMembers, List.append_assoc]
      exact readMembers_cons false named absent reads (follows_writeMembers _ rest)
        (ih (Nat.lt_of_succ_lt_succ hFuel))

/-- The fields of a document as they stand when it has been read. -/
def ofDocument (d : MapDocument) : Partial :=
  ⟨some d.version, d.file.map some, some d.sources, d.contents.map some, some d.names,
    some d.mappings⟩

theorem complete_ofDocument (d : MapDocument) : (ofDocument d).complete = .ok d := by
  obtain ⟨version, file, sources, contents, names, mappings⟩ := d
  cases file <;> cases contents <;> rfl

section Reading

variable {p next : Partial} {field : Field} {α : Type} {reader : Json.Reader α}

/-- A field is read by the reader of its value. -/
theorem reads_field {spelling : Text} {value : α} (h : Reads reader spelling value)
    (hField : ∀ t rest, reader t = .ok (value, rest) → p.read field t = .ok (next, rest)) :
    Reads (p.read field) spelling next :=
  ⟨h.head, fun hrest => hField _ _ (h.run hrest)⟩

end Reading

theorem reads_content (content : Option String) :
    Reads (Json.readNullable Json.readString) (write (content.elim .null .str)) content := by
  cases content with
  | none => exact Json.readNullable_reads_none
  | some s =>
    refine Json.readNullable_reads_some (Json.readString_reads s) fun t ht => ?_
    rw [Option.elim, write] at ht
    exact absurd (List.cons.inj ht).1 (by decide)

theorem reads_contents (contents : List (Option String)) :
    Reads (Json.readNullable (Json.readList (Json.readNullable Json.readString)))
      (write (.arr (contents.map fun content => content.elim .null .str))) (some contents) := by
  refine Json.readNullable_reads_some (Json.readList_reads fun content _ => reads_content content)
    fun t ht => ?_
  obtain ⟨u, hu⟩ := Json.exists_write_arr (contents.map fun content => content.elim .null .str)
  rw [hu] at ht
  exact absurd (List.cons.inj ht).1 (by decide)

/-- The members of a written document fill all its fields. -/
theorem fills_ofDocument {d : MapDocument} (h : d.version < Offset.bound) :
    ∃ members, d.toJson = .obj members ∧ Fills empty members (ofDocument d) := by
  have hversion : Fills empty [("version", .int d.version)]
      ⟨some d.version, none, none, none, none, none⟩ :=
    .cons .version (by decide) rfl
      (reads_field (Json.readBelow_reads h) fun _ _ ht => congrArg (Except.map _) ht) (.nil _)
  have hfile : Fills ⟨some d.version, none, none, none, none, none⟩
      (d.file.toList.map fun file => ("file", .str file))
      ⟨some d.version, d.file.map some, none, none, none, none⟩ := by
    cases d.file with
    | none => exact .nil _
    | some file =>
      exact .cons .file (by decide) rfl
        (reads_field (reads_content (some file)) fun _ _ ht => congrArg (Except.map _) ht) (.nil _)
  have hsources : Fills ⟨some d.version, d.file.map some, none, none, none, none⟩
      [("sources", .arr (d.sources.map .str))]
      ⟨some d.version, d.file.map some, some d.sources, none, none, none⟩ :=
    .cons .sources (by decide) rfl
      (reads_field (Json.readList_reads fun s _ => Json.readString_reads s)
        fun _ _ ht => congrArg (Except.map _) ht) (.nil _)
  have hcontents : Fills ⟨some d.version, d.file.map some, some d.sources, none, none, none⟩
      (d.contents.toList.map fun contents =>
        ("sourcesContent", .arr (contents.map fun content => content.elim .null .str)))
      ⟨some d.version, d.file.map some, some d.sources, d.contents.map some, none, none⟩ := by
    cases d.contents with
    | none => exact .nil _
    | some contents =>
      exact .cons .contents (by decide) rfl
        (reads_field (reads_contents contents) fun _ _ ht => congrArg (Except.map _) ht) (.nil _)
  have hmappings : Fills
      ⟨some d.version, d.file.map some, some d.sources, d.contents.map some, some d.names, none⟩
      [("mappings", .str d.mappings)] (ofDocument d) :=
    .cons .mappings (by decide) rfl
      (reads_field (Json.readString_reads d.mappings) fun _ _ ht => congrArg (Except.map _) ht)
      (.nil _)
  have hnames : Fills
      ⟨some d.version, d.file.map some, some d.sources, d.contents.map some, none, none⟩
      [("names", .arr (d.names.map .str)), ("mappings", .str d.mappings)] (ofDocument d) :=
    .cons .names (by decide) rfl
      (reads_field (Json.readList_reads fun s _ => Json.readString_reads s)
        fun _ _ ht => congrArg (Except.map _) ht) hmappings
  exact ⟨_, rfl, (((hversion.append hfile).append hsources).append hcontents).append hnames⟩

end Partial

/-- An object whose members fill the fields of a document is read as that document. -/
theorem readRecord_write {members : List (String × Json)} {d : MapDocument}
    (h : Partial.Fills .empty members (.ofDocument d)) :
    readRecord (write (.obj members)) = .ok (d, []) := by
  cases h with
  | @cons field _ next _ name value members named absent reads rest =>
    generalize htext : Json.writeString name ++ ':' :: write value ++ writeMembers members = text
    have hfuel : members.length < text.length := by
      have hlength := Partial.length_lt_writeMembers members
      rw [← htext, List.length_append]
      omega
    have hfollows := Partial.follows_writeMembers members []
    have hrest := rest.readMembers_eq hfuel []
    rw [List.append_nil] at hfollows hrest
    have hmembers := Partial.readMembers_cons true named absent reads hfollows hrest
    rw [if_pos rfl, List.nil_append, htext] at hmembers
    rw [write, readRecord, List.cons_append, List.cons_append, htext,
      Json.skipBlanks_cons (by decide)]
    simp only [hmembers, Partial.complete_ofDocument, bind, Except.bind]
    rfl

/-- A written document is read back, and refused only for its version or the number of its
sources. -/
theorem parse_render (d : MapDocument) (hVersion : d.version < Offset.bound) :
    parse d.render =
      if d.version ≠ 3 then .error (.unsupportedVersion d.version)
      else if 1 < d.sources.length then .error (.multipleSources d.sources.length)
      else .ok d := by
  obtain ⟨members, hjson, hfills⟩ := Partial.fills_ofDocument hVersion
  have hread : readRecord d.render.toList = .ok (d, []) := by
    rw [render, Json.render, String.toList_ofList, hjson]
    exact readRecord_write hfills
  rw [parse, hread]
  rfl

theorem parse_render_escaped :
    let d : MapDocument := ⟨3, some "null", ["\x22,\\\x01\nλ"], some [none, some "\x7d]"], [], ""⟩
    let e : MapDocument := { d with version := 4294967295, sources := ["", ""] }
    parse d.render = .ok d ∧ parse e.render = .error (.unsupportedVersion 4294967295) := by
  intro d e
  exact ⟨parse_render d (by decide), parse_render e (by decide)⟩

end MapDocument

end BindBlocks
