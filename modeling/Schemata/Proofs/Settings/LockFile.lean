import Schemata.Proofs.Except
import Schemata.Proofs.Sorted
import Schemata.Proofs.Toml.Records
import Schemata.Settings.LockFile

/-!
# Lock files are read back

A lock file is written as a document of records, and each record is read as the dependency that it
was written for. So reading gives the dependencies in the order of their names, and what was once
read is written and read without change.
-/

namespace Schemata.Settings.LockFile

open Toml

variable {f : LockFile}

/-! ### The document of a lock file -/

def fieldsOf (d : LockedModule) : Fields := commitFields d.name d.commit d.digest

def records (f : LockFile) : Records where
  first := ("version", f.version.text)
  key := "deps"
  items := (ordered f.deps).map fieldsOf

theorem text_records (f : LockFile) : f.records.text = f.text := by
  have hitem : Records.itemText "deps" ∘ fieldsOf = depText := by
    funext d
    apply String.toList_inj.1
    cases hdigest : d.digest with
    | none => simp [Records.itemText, Fields.text, fieldsOf, commitFields, depText, hdigest]
    | some x => simp [Records.itemText, Fields.text, fieldsOf, commitFields, depText, hdigest]
  have hempty : (ordered f.deps).isEmpty = f.deps.isEmpty :=
    (sortedByTexts_perm _ f.deps).isEmpty_eq
  unfold Records.text records text
  simp only [List.isEmpty_map, List.map_map, hitem, hempty]
  rfl

theorem plain_records (f : LockFile) : f.records.Plain where
  first := Fields.plain_singleton (by decide) (by cases f.version <;> decide)
  key := by
    simp only [records]
    decide
  different := by simp [records]
  items := by
    intro fields hfields
    obtain ⟨d, _, rfl⟩ := List.mem_map.1 hfields
    exact plain_commitFields _ _ _

theorem readDocument_text (f : LockFile) : readDocument fileName f.text = .ok f.records.value := by
  rw [readDocument, ← text_records, parse_records f.plain_records]
  rfl

theorem readVersion_records (f : LockFile) :
    readVersion fileName f.records.value = .ok (some f.version) := by
  have hversion := Version.ofText?_text f.version
  simp [readVersion, Records.value, records, hversion]

/-! ### Its dependencies -/

/-- The table that a dependency is written as. -/
def tableOf (d : LockedModule) : DepTable := ⟨d.name.text, d.commit.text, d.digest.map Digest.text⟩

theorem read_fieldsOf (d : LockedModule) : DepTable.read (fieldsOf d).value = some (tableOf d) := by
  unfold DepTable.read fieldsOf tableOf
  rw [fields?_commitFields]
  cases d.digest with
  | none => rfl
  | some x => rfl

theorem mapM_read (deps : List LockedModule) :
    ((deps.map fieldsOf).map Fields.value).mapM DepTable.read = some (deps.map tableOf) := by
  induction deps with
  | nil => rfl
  | cons d deps ih =>
    rw [List.map_cons, List.map_cons, List.mapM_cons, read_fieldsOf, ih]
    rfl

theorem readTables_records (f : LockFile) :
    readTables f.records.value = some ((ordered f.deps).map tableOf) := by
  have hfields : f.records.value.fields? ["version", "deps"] = some [some (.string f.version.text),
      some (.array (((ordered f.deps).map fieldsOf).map Fields.value))] := rfl
  unfold readTables
  simp only [hfields, Option.bind_eq_bind, Option.bind_some, required, Settings.string, Value.text?,
    Toml.optional, Value.items?, mapM_read]

/-- Whether the digests of a lock file are such as its version wants. -/
def Checked (version : Version) (d : LockedModule) : Prop :=
  checkDigest version d.name d.digest = .ok ()

theorem checked_iff {version : Version} {d : LockedModule} :
    Checked version d ↔ (version = .v2 → ∃ x, d.digest = some x ∧ x.type = .b5) := by
  unfold Checked checkDigest
  cases d.digest with
  | none =>
    by_cases h : version = .v2
    · simp [h]
    · simp [h]
  | some x =>
    by_cases h : version = .v2
    · simp [h]
    · simp [h]

theorem locked_tableOf {version : Version} {d : LockedModule} (h : Checked version d) :
    (tableOf d).locked version = .ok d := by
  obtain ⟨name, commit, digest⟩ := d
  have hcheck : checkDigest version name digest = .ok () := h
  unfold DepTable.locked tableOf
  cases digest with
  | none =>
    simp only [ModuleName.parse_text, CommitId.parse_text, Except.mapError, Option.map_none]
    simp [bind, Except.bind, pure, Except.pure, hcheck]
  | some x =>
    simp only [ModuleName.parse_text, CommitId.parse_text, Digest.parse_text, Except.mapError,
      Option.map_some]
    simp [bind, Except.bind, pure, Except.pure, hcheck]

/-- What is accepted as a dependency has a digest such as the version wants. -/
theorem checked_of_locked {version : Version} {t : DepTable} {d : LockedModule}
    (h : t.locked version = .ok d) : Checked version d := by
  unfold DepTable.locked at h
  obtain ⟨name, _, h⟩ := bind_eq_ok.1 h
  obtain ⟨commit, _, h⟩ := bind_eq_ok.1 h
  have hrest {digest : Option Digest} (h : (do
      checkDigest version name digest
      return ⟨name, commit, digest⟩ : Except Error LockedModule) = .ok d) : Checked version d := by
    obtain ⟨_, hcheck, heq⟩ := bind_eq_ok.1 h
    cases heq
    exact hcheck
  simp only at h
  split at h
  · obtain ⟨x, _, h⟩ := bind_eq_ok.1 h
    exact hrest h
  · exact hrest h

/-! ### Reading -/

/-- The text of a lock file with fitting digests is read as its dependencies in order, if no two
that come next to each other have one name. -/
theorem parse_text (h : ∀ d ∈ f.deps, Checked f.version d) :
    parse f.text = match duplicate? (ordered f.deps) with
      | some name => .error (.invalid fileName s!"dependency {name} is listed more than once")
      | none => .ok ⟨f.version, ordered f.deps⟩ := by
  have hlocked : ((ordered f.deps).map tableOf).mapM (DepTable.locked f.version) =
      .ok (ordered f.deps) :=
    mapM_eq_ok.2 (List.forall₂_map_left_iff.2 (List.forall₂_same.2 fun d hd =>
      locked_tableOf (h d ((sortedByTexts_perm _ f.deps).mem_iff.1 hd))))
  have hidem : ordered (ordered f.deps) = ordered f.deps := sortedByTexts_idem _ _
  unfold parse
  simp only [readDocument_text, readVersion_records, readTables_records, orMalformed, bind,
    Except.bind, Option.getD_some, hlocked, hidem]
  rfl

theorem duplicate?_eq_none {deps : List LockedModule} (h : (deps.map (·.name)).Nodup) :
    duplicate? deps = none := by
  induction deps with
  | nil => rfl
  | cons a deps ih =>
    cases deps with
    | nil => rfl
    | cons b deps =>
      obtain ⟨ha, hrest⟩ := List.nodup_cons.1 h
      have hne : a.name ≠ b.name := fun heq => ha (List.mem_cons.2 (.inl heq))
      rw [duplicate?, if_neg hne]
      exact ih hrest

/-- Lock files are written and read back: one whose dependencies have different names, and digests
such as its version wants, with the dependencies in order; and one that was read without change. -/
theorem written_and_read :
    (∀ f : LockFile, (f.deps.map (·.name)).Nodup →
      (f.version = .v2 → ∀ d ∈ f.deps, ∃ x, d.digest = some x ∧ x.type = .b5) →
        parse f.text = .ok ⟨f.version, ordered f.deps⟩) ∧
      ∀ t f, parse t = .ok f → parse f.text = .ok f := by
  constructor
  · intro f hnames hdigests
    have hordered : ((ordered f.deps).map (·.name)).Nodup :=
      ((sortedByTexts_perm _ f.deps).map _).nodup_iff.2 hnames
    rw [parse_text fun d hd => checked_iff.2 fun hv => hdigests hv d hd,
      duplicate?_eq_none hordered]
  · intro t f h
    unfold parse at h
    obtain ⟨document, _, h⟩ := bind_eq_ok.1 h
    obtain ⟨version, _, h⟩ := bind_eq_ok.1 h
    obtain ⟨tables, _, h⟩ := bind_eq_ok.1 h
    obtain ⟨deps, hdeps, h⟩ := bind_eq_ok.1 h
    simp only at h
    split at h
    · cases h
    · rename_i hnone
      cases h
      have hidem : ordered (ordered deps) = ordered deps := sortedByTexts_idem _ _
      have hchecked : ∀ d ∈ ordered deps, Checked (version.getD .v1beta1) d := by
        intro d hd
        obtain ⟨t, _, ht⟩ := exists_of_forall₂ (mapM_eq_ok.1 hdeps) ((sortedByTexts_perm _ deps).mem_iff.1 hd)
        exact checked_of_locked ht
      rw [parse_text hchecked]
      simp only [hidem, hnone]

/-- Dependencies out of order, with quotes and other marks in their names. -/
def markedDeps : List LockedModule :=
  [⟨⟨"r.com", "acme", "it's\"quoted\"", by decide⟩, ⟨"6f156c8b7962b38494df95777012b6a7", by decide⟩,
      some ⟨.b5, .ofText "a"⟩⟩,
    ⟨⟨"r.com", "\\u0041", "#[[deps]]", by decide⟩, ⟨"afdbf18323480df3e5752ce76c6309b0", by decide⟩,
      some ⟨.b5, .ofText "b"⟩⟩]

theorem written_and_read_markedDeps :
    (markedDeps.map (·.name)).Nodup ∧
      (∀ d ∈ markedDeps, ∃ x, d.digest = some x ∧ x.type = .b5) ∧
      parse (text ⟨.v2, markedDeps⟩) = .ok ⟨.v2, ordered markedDeps⟩ ∧
      parse (text ⟨.v2, ordered markedDeps⟩) = .ok ⟨.v2, ordered markedDeps⟩ := by
  have hnames : (markedDeps.map (·.name)).Nodup := by decide
  have hdigests : ∀ d ∈ markedDeps, ∃ x, d.digest = some x ∧ x.type = .b5 := by
    intro d hd
    simp only [markedDeps, List.mem_cons, List.not_mem_nil, or_false] at hd
    rcases hd with rfl | rfl
    · exact ⟨_, rfl, rfl⟩
    · exact ⟨_, rfl, rfl⟩
  have hread := written_and_read.1 ⟨.v2, markedDeps⟩ hnames fun _ => hdigests
  exact ⟨hnames, hdigests, hread, written_and_read.2 _ _ hread⟩

end Schemata.Settings.LockFile
