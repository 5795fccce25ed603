import Schemata.Check.Engine
import Schemata.Proofs.Settings.Extent

/-!
# Which files the checks of a module pass over

In version v2 the paths that checks ignore are written as seen from the workspace and kept as seen
from each module. A file of a module is passed over if it lies under such a path, unless the path
lies around the whole directory of the module: such paths are dropped.
-/

namespace Schemata.Settings

open Schemata.Check (Rule isIgnored)
open Schemata.Path (IsNormal covers contains join relative)

/-! ### Paths as seen from a module -/

/-- Whether some paths of a workspace make checks pass over a file of a module: it lies under one of
them that does not lie around the directory of the module. -/
def PassedOver (dir : String) (paths : List String) (file : String) : Prop :=
  ∃ path ∈ paths, ∃ p, Path.normalize path = .ok p ∧ contains p dir = false ∧ covers p file = true

/-- Whether paths as seen from a module stand for paths of the workspace: they cover a file of the
module just if these make checks pass over it. -/
def StandsFor (dir : String) (paths kept : List String) : Prop :=
  ∀ file inner, IsNormal file → relative dir file = .ok inner →
    (kept.any (fun p => covers p inner) = true ↔ PassedOver dir paths file)

variable {file dir p q inner : String} {paths kept : List String}

/-- A path that does not lie around a directory covers a file in it just as it does from there. -/
theorem covers_relative (hdir : IsNormal dir) (hp : IsNormal p) (hinner : IsNormal inner) :
    (∃ r, relative dir p = .ok r ∧ covers r inner = true) ↔
      contains p dir = false ∧ covers p (join dir inner) = true := by
  constructor
  · rintro ⟨r, hr, hcovers⟩
    obtain ⟨hnormal, rfl⟩ := (Path.relative_eq_ok hdir hp).1 hr
    refine ⟨Bool.eq_false_iff.2 fun haround => ?_,
      (Path.covers_join_join hdir hnormal hinner).2 hcovers⟩
    have hself := Path.contains_of_covers_contains (Path.covers_join hdir hnormal) haround
    rw [Path.not_contains_self] at hself
    cases hself
  · rintro ⟨haround, hcovers⟩
    -- of the path and the directory, both around the file, the directory is the outer one
    rcases Path.contains_or_covers hcovers (Path.covers_join hdir hinner) with h | h
    · rw [h] at haround
      cases haround
    · obtain ⟨r, hr, rfl⟩ := Path.exists_join hdir hp h
      exact ⟨r, Path.relative_join hdir hr, (Path.covers_join_join hdir hr hinner).1 hcovers⟩

theorem standsFor_rebase {source : String} (hdir : IsNormal dir)
    (h : rebase source (some dir) paths = .ok kept) : StandsFor dir paths kept := by
  intro file inner hfile hrelative
  obtain ⟨hinner, rfl⟩ := (Path.relative_eq_ok hdir hfile).1 hrelative
  obtain ⟨forms, hforms, h⟩ := bind_eq_ok.1 h
  cases h
  have hmem (p : String) : p ∈ forms ↔ ∃ path ∈ paths, Path.normalize path = .ok p := by
    rw [← mapM_normalizeIn hforms, mem_normalForms]
  have hnormal (p : String) (hp : p ∈ forms) : IsNormal p := by
    obtain ⟨path, _, hpath⟩ := (hmem p).1 hp
    exact Path.isNormal_of_normalize hpath
  rw [List.any_eq_true]
  constructor
  · rintro ⟨r, hr, hcovers⟩
    obtain ⟨p, hp, hr⟩ := List.mem_filterMap.1 hr
    obtain ⟨path, hpath, hform⟩ := (hmem p).1 hp
    exact ⟨path, hpath, p, hform,
      (covers_relative hdir (hnormal p hp) hinner).1 ⟨r, toOption_eq_some.1 hr, hcovers⟩⟩
  · rintro ⟨path, hpath, p, hform, hcovers⟩
    have hp := (hmem p).2 ⟨path, hpath, hform⟩
    obtain ⟨r, hr, hcovers⟩ := (covers_relative hdir (hnormal p hp) hinner).2 hcovers
    exact ⟨r, List.mem_filterMap.2 ⟨p, hp, toOption_eq_some.2 hr⟩, hcovers⟩

/-! ### Tables of checks -/

/-- Whether the settings of checks keep what a table ignores: for all rules, and entry by entry for
some of them. -/
structure CheckSettings.KeepsTable (s : CheckSettings) (dir : String) (t : CheckTable) : Prop where
  ignore : StandsFor dir t.ignore s.ignore
  ignoreOnly : List.Forall₂ (fun given kept => kept.1 = given.1 ∧ StandsFor dir given.2 kept.2)
    t.ignoreOnly.entries s.ignoreOnly.entries

/-- Whether the settings of checks keep what a table ignores, if there is one, and else ignore
nothing. -/
def CheckSettings.Keeps (s : CheckSettings) (dir : String) : Option CheckTable → Prop
  | none => s.ignore = [] ∧ s.ignoreOnly = .empty
  | some t => s.KeepsTable dir t

theorem keepsTable_settings {t : CheckTable} {source : String} {version : Version}
    {defaultUse : List String} {s : CheckSettings} (hdir : IsNormal dir)
    (h : t.settings source version defaultUse (some dir) = .ok s) : s.KeepsTable dir t := by
  obtain ⟨entries, hentries, h⟩ := bind_eq_ok.1 h
  obtain ⟨ignore, hignore, h⟩ := bind_eq_ok.1 h
  cases h
  refine ⟨standsFor_rebase hdir hignore, ?_⟩
  have hall : List.Forall₂ (fun (given kept : String × List String) =>
      kept.1 = given.1 ∧ StandsFor dir given.2 kept.2) t.ignoreOnly.entries entries := by
    refine (mapM_eq_ok.1 hentries).imp fun given e he => ?_
    obtain ⟨paths, hpaths, he⟩ := bind_eq_ok.1 he
    cases he
    exact ⟨rfl, standsFor_rebase hdir hpaths⟩
  have hkeys : t.ignoreOnly.entries.map Prod.fst = entries.map Prod.fst :=
    map_eq_of_forall₂ hall fun _ _ he => he.1.symm
  have hordered : entries.Pairwise fun x y => x.1 < y.1 := by
    rw [← List.pairwise_map (f := Prod.fst) (R := fun a b => a < b), ← hkeys]
    exact List.pairwise_map.2 t.ignoreOnly.ordered
  have hsame : (Table.ofList entries).entries = entries :=
    congrArg Table.entries (Table.ofList_entries ⟨entries, hordered⟩)
  rw [hsame]
  exact hall

theorem keeps_lintSettings {t : Option CheckTable} {source : String} {s : LintSettings}
    (hdir : IsNormal dir) (h : LintSettings.ofTable source .v2 (some dir) t = .ok s) :
    s.checks.Keeps dir t := by
  cases t with
  | none =>
    cases h
    exact ⟨rfl, rfl⟩
  | some t =>
    obtain ⟨checks, hchecks, h⟩ := bind_eq_ok.1 h
    cases h
    exact keepsTable_settings hdir hchecks

theorem keeps_breakingSettings {t : Option CheckTable} {source : String} {s : BreakingSettings}
    (hdir : IsNormal dir) (h : BreakingSettings.ofTable source .v2 (some dir) t = .ok s) :
    s.checks.Keeps dir t := by
  cases t with
  | none =>
    cases h
    exact ⟨rfl, rfl⟩
  | some t =>
    obtain ⟨checks, hchecks, h⟩ := bind_eq_ok.1 h
    cases h
    exact keepsTable_settings hdir hchecks

/-- Whether a table has a rule pass over a file of a module. -/
def CheckTable.PassesOver {α : Type} (t : CheckTable) (dir : String) (r : Rule α) (file : String) :
    Prop :=
  PassedOver dir t.ignore file ∨ ∃ entry ∈ t.ignoreOnly.entries,
    (entry.1 = r.id ∨ entry.1 ∈ r.categories) ∧ PassedOver dir entry.2 file

/-- What settings hold back of the findings of a rule is what the table has it pass over. -/
theorem isIgnored_iff {α : Type} {s : CheckSettings} {t : Option CheckTable} (h : s.Keeps dir t)
    (r : Rule α) (hfile : IsNormal file) (hinner : relative dir file = .ok inner) :
    isIgnored s r inner = true ↔ ∃ t', t = some t' ∧ t'.PassesOver dir r file := by
  cases t with
  | none =>
    obtain ⟨hignore, honly⟩ := h
    rw [isIgnored, hignore, honly]
    simp [Table.empty]
  | some t =>
    obtain ⟨hignore, honly⟩ := h
    rw [isIgnored, Bool.or_eq_true, hignore file inner hfile hinner]
    simp only [Option.some.injEq, exists_eq_left', CheckTable.PassesOver]
    refine or_congr_right ?_
    generalize t.ignoreOnly.entries = given at honly
    generalize s.ignoreOnly.entries = kept at honly
    induction honly with
    | nil => simp
    | cons hentry _ ih =>
      rw [List.any_cons, Bool.or_eq_true, ih, Bool.and_eq_true, hentry.2 file inner hfile hinner,
        hentry.1]
      simp

/-! ### Modules of version v2 -/

/-- The checks of a module as a document of version v2 has them, with the directory of the
module. -/
structure Checked where
  dir : String
  lint : Option CheckTable
  breaking : Option CheckTable

/-- The checks that apply to each module: its own, or else those of the workspace. Without modules
the directory of the document is one. -/
def ModuleFile.WorkspaceTable.checked (w : ModuleFile.WorkspaceTable) : List Checked :=
  if w.modules.isEmpty then [⟨".", w.lint, w.breaking⟩]
  else w.modules.map fun m => ⟨m.path, m.lint <|> w.lint, m.breaking <|> w.breaking⟩

def Checked.ofText (text : String) : Option (List Checked) := do
  let w ← ModuleFile.WorkspaceTable.read (← Toml.parse text)
  return w.checked

/-- Whether the settings of a module keep what the checks of a document ignore. -/
structure ModuleSettings.KeepsIgnores (s : ModuleSettings) (c : Checked) : Prop where
  dir : Path.normalize c.dir = .ok s.dir
  lint : s.lint.checks.Keeps s.dir c.lint
  breaking : s.breaking.checks.Keeps s.dir c.breaking

theorem keepsIgnores_module {w : ModuleFile.WorkspaceTable} {m : ModuleFile.ModuleTable}
    {s : ModuleSettings} (h : w.module m = .ok s) :
    s.KeepsIgnores ⟨m.path, m.lint <|> w.lint, m.breaking <|> w.breaking⟩ := by
  obtain ⟨dir, hdir, h⟩ := bind_eq_ok.1 h
  obtain ⟨excludes, _, h⟩ := bind_eq_ok.1 h
  obtain ⟨name, _, h⟩ := bind_eq_ok.1 h
  obtain ⟨lint, hlint, h⟩ := bind_eq_ok.1 h
  obtain ⟨breaking, hbreaking, h⟩ := bind_eq_ok.1 h
  cases h
  have hdir := normalizeIn_eq_ok.1 hdir
  have hnormal := Path.isNormal_of_normalize hdir
  exact ⟨hdir, keeps_lintSettings hnormal hlint, keeps_breakingSettings hnormal hbreaking⟩

theorem keepsIgnores_ownModule {w : ModuleFile.WorkspaceTable} {s : ModuleSettings}
    (h : w.ownModule = .ok s) : s.KeepsIgnores ⟨".", w.lint, w.breaking⟩ := by
  obtain ⟨lint, hlint, h⟩ := bind_eq_ok.1 h
  obtain ⟨breaking, hbreaking, h⟩ := bind_eq_ok.1 h
  cases h
  exact ⟨Path.isNormal_root.normalize_eq, keeps_lintSettings Path.isNormal_root hlint,
    keeps_breakingSettings Path.isNormal_root hbreaking⟩

theorem keepsIgnores_ofV2 {document : Toml.Value} {file : ModuleFile}
    (h : ModuleFile.ofV2 document = .ok file) :
    ∃ w, ModuleFile.WorkspaceTable.read document = some w ∧
      List.Forall₂ ModuleSettings.KeepsIgnores file.modules w.checked := by
  obtain ⟨w, hread, h⟩ := bind_eq_ok.1 h
  refine ⟨w, orMalformed_eq_ok.1 hread, ?_⟩
  unfold ModuleFile.WorkspaceTable.checked
  cases hempty : w.modules.isEmpty with
  | true =>
    simp only [hempty, if_true, Bool.not_true, Bool.false_eq_true, if_false] at h ⊢
    obtain ⟨s, hs, h⟩ := bind_eq_ok.1 h
    obtain ⟨_, hone, h⟩ := bind_eq_ok.1 h
    cases hone
    rw [(modules_of_checked h).2]
    exact .cons (keepsIgnores_ownModule hs) .nil
  | false =>
    simp only [hempty, Bool.not_false, Bool.false_eq_true, if_false, if_true] at h ⊢
    obtain ⟨modules, hmodules, h⟩ := bind_eq_ok.1 h
    obtain ⟨_, _, h⟩ := bind_eq_ok.1 h
    rw [(modules_of_checked h).2]
    refine List.forall₂_map_right_iff.2 ((mapM_eq_ok.1 hmodules).flip.imp fun s m hs => ?_)
    exact keepsIgnores_module hs

theorem version_of_single {version : Version} {roots : Table (List String)}
    {m : ModuleFile.SingleModule} {file : ModuleFile}
    (h : ModuleFile.ofSingle version roots m = .ok file) : file.version = version := by
  obtain ⟨name, _, h⟩ := bind_eq_ok.1 h
  obtain ⟨lint, _, h⟩ := bind_eq_ok.1 h
  obtain ⟨breaking, _, h⟩ := bind_eq_ok.1 h
  obtain ⟨deps, _, h⟩ := bind_eq_ok.1 h
  cases h
  rfl

/-- Only a document of version v2 is read as settings of this version. -/
theorem ofV2_of_parse {text : String} {file : ModuleFile} (h : ModuleFile.parse text = .ok file)
    (hversion : file.version = .v2) :
    ∃ document, Toml.parse text = some document ∧ ModuleFile.ofV2 document = .ok file := by
  obtain ⟨document, hdocument, h⟩ := bind_eq_ok.1 h
  obtain ⟨version, _, h⟩ := bind_eq_ok.1 h
  refine ⟨document, orMalformed_eq_ok.1 hdocument, ?_⟩
  split at h
  · obtain ⟨_, _, h⟩ := bind_eq_ok.1 h
    obtain ⟨_, _, h⟩ := bind_eq_ok.1 h
    cases (version_of_single h).symm.trans hversion
  · obtain ⟨_, _, h⟩ := bind_eq_ok.1 h
    obtain ⟨_, _, h⟩ := bind_eq_ok.1 h
    cases (version_of_single h).symm.trans hversion
  · exact h

/-- In settings of version v2 the checks of each module pass over the files of it that lie under an
ignored path of the table that applies, unless the path lies around the directory of the module. -/
theorem ignores_of_v2 {text : String} {file : ModuleFile} (h : ModuleFile.parse text = .ok file)
    (hversion : file.version = .v2) :
    ∃ cs, Checked.ofText text = some cs ∧ List.Forall₂ (fun s c => s.KeepsIgnores c ∧
      ∀ path inner, IsNormal path → relative s.dir path = .ok inner →
        (∀ r : Check.LintRule, isIgnored s.lint.checks r inner = true ↔
          ∃ t, c.lint = some t ∧ t.PassesOver s.dir r path) ∧
        ∀ r : Check.BreakingRule, isIgnored s.breaking.checks r inner = true ↔
          ∃ t, c.breaking = some t ∧ t.PassesOver s.dir r path) file.modules cs := by
  obtain ⟨document, hdocument, h⟩ := ofV2_of_parse h hversion
  obtain ⟨w, hread, hall⟩ := keepsIgnores_ofV2 h
  refine ⟨w.checked, ?_, hall.imp fun s c hkeeps => ⟨hkeeps, fun path inner hpath hinner => ?_⟩⟩
  · rw [Checked.ofText, hdocument]
    simp [hread]
  · exact ⟨fun r => isIgnored_iff hkeeps.lint r hpath hinner,
      fun r => isIgnored_iff hkeeps.breaking r hpath hinner⟩

/-! ### A module in an ignored directory -/

/-- Settings with paths around, at and in the directories of modules, of which one has a table of
its own. -/
def layeredText : String :=
  "version = \"v2\"\n" ++
  "[lint]\nignore = [\"proto/a/old\"]\nignore_only = \x7b IMPORT_USED = [\"proto/a/b\"] \x7d\n" ++
  "[[modules]]\npath = \"proto/a\"\n" ++
  "[[modules]]\npath = \"proto/a/b\"\n[modules.breaking]\nignore = [\"proto\"]\n"

theorem ignores_layered : ∃ file, ModuleFile.parse layeredText = .ok file ∧ file.version = .v2 ∧
    ∃ cs, Checked.ofText layeredText = some cs ∧ List.Forall₂ (fun s c => s.KeepsIgnores c ∧
      ∀ path inner, IsNormal path → relative s.dir path = .ok inner →
        (∀ r : Check.LintRule, isIgnored s.lint.checks r inner = true ↔
          ∃ t, c.lint = some t ∧ t.PassesOver s.dir r path) ∧
        ∀ r : Check.BreakingRule, isIgnored s.breaking.checks r inner = true ↔
          ∃ t, c.breaking = some t ∧ t.PassesOver s.dir r path) file.modules cs := by
  have hparse : (ModuleFile.parse layeredText).toOption.map ModuleFile.version = some .v2 := by
    decide +kernel
  obtain ⟨file, hfile, hversion⟩ := Option.map_eq_some_iff.1 hparse
  have hfile := toOption_eq_some.1 hfile
  exact ⟨file, hfile, hversion, ignores_of_v2 hfile hversion⟩

/-- Settings that ignore a directory around that of a module. -/
def aroundText : String :=
  "version = \"v2\"\n[lint]\nignore = [\"proto\"]\n[[modules]]\npath = \"proto/a\"\n"

/-- A file of a module in an ignored directory is not passed over. -/
theorem not_ignored_around : ∃ file s c t, ModuleFile.parse aroundText = .ok file ∧
    file.version = .v2 ∧ file.modules = [s] ∧ Checked.ofText aroundText = some [c] ∧
    c.lint = some t ∧ t.ignore = ["proto"] ∧ covers "proto" "proto/a/x.schema" = true ∧
    relative s.dir "proto/a/x.schema" = .ok "x.schema" ∧
    s.lint.checks.ignore.any (fun p => covers p "x.schema") = false := by
  have hparse : (ModuleFile.parse aroundText).toOption.map (fun file =>
      (file.version, file.modules.map fun s => (s.dir, s.lint.checks.ignore))) =
      some (.v2, [("proto/a", [])]) := by
    decide +kernel
  have hread : (Checked.ofText aroundText).map (fun cs => cs.map fun c =>
      c.lint.map CheckTable.ignore) = some [some ["proto"]] := by
    decide +kernel
  obtain ⟨file, hfile, hparse⟩ := Option.map_eq_some_iff.1 hparse
  obtain ⟨cs, hcs, hread⟩ := Option.map_eq_some_iff.1 hread
  obtain ⟨hversion, hmodules⟩ := Prod.mk.inj hparse
  obtain ⟨s, hs, hkept⟩ := List.map_eq_singleton_iff.1 hmodules
  obtain ⟨hdir, hignore⟩ := Prod.mk.inj hkept
  obtain ⟨c, rfl, hc⟩ := List.map_eq_singleton_iff.1 hread
  obtain ⟨t, ht, hpaths⟩ := Option.map_eq_some_iff.1 hc
  refine ⟨file, s, c, t, toOption_eq_some.1 hfile, hversion, hs, hcs, ht, hpaths, by decide, ?_, ?_⟩
  · rw [hdir]
    decide +kernel
  · rw [hignore]
    rfl

end Schemata.Settings
