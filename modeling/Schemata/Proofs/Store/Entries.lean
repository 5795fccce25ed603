import Schemata.Proofs.Toml.Records
import Schemata.Store

/-!
# Entries of the store are read back

The entry that is written for a digest and some dependencies is read as that digest and those
dependencies, whatever the names of the modules are made of.
-/

namespace Schemata

namespace Store

open Toml

/-- The key that an entry keeps of a dependency. -/
def recorded (dep : ModuleKey × Digest) : ModuleKey := ⟨dep.1.name, dep.1.commit, .known dep.2⟩

/-! ### The document of an entry -/

/-- What an entry says of a dependency. -/
def fieldsOf (dep : ModuleKey × Digest) : Fields :=
  commitFields dep.1.name dep.1.commit (some dep.2)

def entryRecords (x : Digest) (deps : List (ModuleKey × Digest)) : Records where
  first := ("digest", x.text)
  key := "deps"
  items := deps.map fieldsOf

theorem text_entryRecords (x : Digest) (deps : List (ModuleKey × Digest)) :
    (entryRecords x deps).text = entryText x deps := by
  have hitem : Records.itemText "deps" ∘ fieldsOf = depText := by
    funext dep
    apply String.toList_inj.1
    simp [Records.itemText, Fields.text, fieldsOf, commitFields, depText]
  unfold Records.text entryRecords entryText
  simp only [List.isEmpty_map, List.map_map, hitem]
  rfl

theorem plain_entryRecords (x : Digest) (deps : List (ModuleKey × Digest)) :
    (entryRecords x deps).Plain where
  first := Fields.plain_singleton (by decide) x.newline_not_mem_text
  key := by
    simp only [entryRecords]
    decide
  different := by simp [entryRecords]
  items := by
    intro fields hfields
    obtain ⟨dep, _, rfl⟩ := List.mem_map.1 hfields
    exact plain_commitFields _ _ _

/-- What the store writes as an entry is a document. -/
theorem parse_entryText (x : Digest) (deps : List (ModuleKey × Digest)) :
    Toml.parse (entryText x deps) = some (entryRecords x deps).value := by
  rw [← text_entryRecords]
  exact parse_records (plain_entryRecords x deps)

/-! ### The content of an entry -/

theorem readDep_fieldsOf (dep : ModuleKey × Digest) :
    readDep (fieldsOf dep).value = some (recorded dep) := by
  unfold readDep fieldsOf
  simp only [fields?_commitFields, Option.bind_eq_bind, Option.bind_some, Option.map_some, required,
    Value.text?, ModuleName.parse_text, CommitId.parse_text, Digest.parse_text, Except.toOption]
  rfl

theorem mapM_readDep (deps : List (ModuleKey × Digest)) :
    ((deps.map fieldsOf).map Fields.value).mapM readDep = some (deps.map recorded) := by
  induction deps with
  | nil => rfl
  | cons dep deps ih =>
    rw [List.map_cons, List.map_cons, List.mapM_cons, readDep_fieldsOf, ih]
    rfl

/-- An entry is read as what it was written for. -/
theorem readEntry_entryText (x : Digest) (deps : List (ModuleKey × Digest)) :
    readEntry (entryText x deps).toUTF8 = some (x, deps.map recorded) := by
  have htext : String.fromUTF8? (entryText x deps).toUTF8 = some (entryText x deps) := by
    simp only [String.fromUTF8?, String.toUTF8_eq_toByteArray, dif_pos (entryText x deps).isValidUTF8]
    rfl
  have hfields : (entryRecords x deps).value.fields? ["digest", "deps"] =
      some [some (.string x.text), some (.array ((deps.map fieldsOf).map Fields.value))] := rfl
  unfold readEntry
  simp only [htext, Option.bind_eq_bind, Option.bind_some, parse_entryText, hfields, required,
    Value.text?, Toml.optional, Value.items?, mapM_readDep, Digest.parse_text, Except.toOption]
  rfl

end Store

end Schemata
