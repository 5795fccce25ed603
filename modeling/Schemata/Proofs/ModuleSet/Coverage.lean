import Schemata.Proofs.Module.Reading
import Schemata.Proofs.ModuleSet.OrderFree
import Schemata.Proofs.Schema.Scan

/-!
# What is compiled is covered by dependencies

Modules are compiled as if they were one, so an import is served by the first module that has its
path. Dependencies are found with a look at who has the path as well, but a module that has it
itself is content with that. So what an import is compiled from belongs to the importing module or
to one of its dependencies, unless the importing module has a file of that path that another one
hides.
-/

namespace Schemata.ModuleSet

open Schemata.Module (Error View)

/-- Whether a file imports a path, by a quick look at its content or by the full reading. -/
def SaysImport (content : ByteArray) (path : String) : Prop :=
  path ∈ Schema.scanImports (Text.lenientText content) ∨
    ∃ n text, String.fromUTF8? content = some text ∧
      path ∈ (Schema.parse n text).file.imports.map Schema.Import.path

theorem SaysImport.scanned {content : ByteArray} {path : String} (h : SaysImport content path) :
    path ∈ Schema.scanImports (Text.lenientText content) := by
  rcases h with h | ⟨n, text, htext, h⟩
  · exact h
  · rw [Text.lenientText, htext]
    exact (Schema.imports_sublist_scanImports n text).subset h

variable {w : World} {modules : List Module} {s : ModuleSet} {i j : Nat}

/-! ### Who serves an import -/

theorem mem_holders {index : FileIndex} {path : String} :
    i ∈ holders index path ↔ i < index.length ∧ path ∈ index[i]?.getD [] := by
  simp [holders, List.mem_filter, List.mem_range]

theorem head?_holders {index : FileIndex} {path : String} (hj : j ∈ holders index path)
    (hfirst : ∀ k < j, k ∉ holders index path) : (holders index path).head? = some j := by
  obtain ⟨hlt, hpath⟩ := mem_holders.1 hj
  rw [holders, List.head?_filter, List.find?_range_eq_some]
  refine ⟨List.contains_iff_mem.2 hpath, List.mem_range.2 hlt, fun k hk => ?_⟩
  have hnot : path ∉ index[k]?.getD [] := fun hmem =>
    hfirst k hk (mem_holders.2 ⟨Nat.lt_trans hk hlt, hmem⟩)
  simpa [List.contains_iff_mem] using hnot

theorem mem_holders_indexOf {path : String} {m : Module} (hm : modules[i]? = some m) :
    i ∈ holders (indexOf w modules) path ↔ path ∈ m.paths w := by
  have hlt : i < modules.length := (List.getElem?_eq_some_iff.1 hm).1
  rw [mem_holders, indexOf, List.getElem?_map, hm, List.length_map]
  simp [hlt]

/-- The module that comes first among those with a path serves its import to the modules that do
not have it. -/
theorem server?_eq_some {path : String} {m f : Module} (hm : modules[i]? = some m)
    (hf : modules[j]? = some f) (hnot : path ∉ m.paths w) (hpath : path ∈ f.paths w)
    (hfirst : ∀ k < j, ∀ x : Module, modules[k]? = some x → path ∉ x.paths w) :
    server? (indexOf w modules) i path = some j := by
  have hhead : (holders (indexOf w modules) path).head? = some j := by
    refine head?_holders ((mem_holders_indexOf hf).2 hpath) fun k hk hmem => ?_
    have hlt : k < modules.length := Nat.lt_trans hk (List.getElem?_eq_some_iff.1 hf).1
    have hx : modules[k]? = some modules[k] := List.getElem?_eq_getElem hlt
    exact hfirst k hk _ hx ((mem_holders_indexOf hx).1 hmem)
  simp only [server?]
  rw [if_neg fun hself => hnot ((mem_holders_indexOf hm).1 (List.contains_iff_mem.1 hself)), hhead]

theorem mem_importedPaths {m : Module} {path imported : String} {content : ByteArray}
    {paths : List String} (hpaths : importedPaths w m = .ok paths)
    (hread : m.Readable w) (hmem : path ∈ m.paths w)
    (hschema : Module.kindOf? path = some .schema)
    (hcontent : m.files.read w.volumes w.live path = .ok content)
    (himported : imported ∈ Schema.scanImports (Text.lenientText content)) : imported ∈ paths := by
  obtain ⟨infos, hinfos, h⟩ := bind_eq_ok.1 hpaths
  obtain ⟨imports, himports, h⟩ := bind_eq_ok.1 h
  cases h
  obtain ⟨files, hwalk⟩ := hread.listed
  obtain ⟨infos', hinfos', hlisted⟩ := Module.objects_of_walk hwalk
  cases hinfos.symm.trans hinfos'
  rw [Module.paths, hwalk] at hmem
  obtain ⟨info, hinfo, rfl⟩ := List.mem_map.1 (hlisted ▸ hmem)
  have hselected : info ∈ infos.filter fun info => Module.kindOf? info.path = some .schema :=
    List.mem_filter.2 ⟨hinfo, by simpa using hschema⟩
  obtain ⟨seen, hseen, h⟩ := exists_of_mem_mapM himports hselected
  obtain ⟨_, _, h⟩ := bind_eq_ok.1 h
  obtain ⟨content', hcontent', h⟩ := bind_eq_ok.1 h
  cases h
  cases (mapError_eq_ok.1 hcontent').symm.trans hcontent
  exact List.mem_flatten.2 ⟨_, hseen, himported⟩

/-- A module imports from the module that serves what one of its files imports. -/
theorem imports_of_server? {m : Module} {path imported : String} {content : ByteArray}
    (hlive : w.live = true) (hread : m.Readable w) (hm : modules[i]? = some m)
    (hmem : path ∈ m.paths w) (hschema : Module.kindOf? path = some .schema)
    (hcontent : m.files.read w.volumes w.live path = .ok content)
    (himported : imported ∈ Schema.scanImports (Text.lenientText content))
    (hserver : server? (indexOf w modules) i imported = some j) (hj : j < modules.length) :
    Imports w modules i j := by
  obtain ⟨paths, hpaths⟩ := importedPaths_of_readable hlive hread
  have hin := mem_importedPaths hpaths hread hmem hschema hcontent himported
  rw [Imports, importsOf, hm]
  simp only [hpaths, Except.toOption, Option.getD_some]
  refine List.mem_filter.2 ⟨List.mem_range.2 hj, List.contains_iff_mem.2 ?_⟩
  exact List.mem_filterMap.2 ⟨imported, hin, hserver⟩

/-! ### Dependencies cover what is compiled -/

/-- The dependencies of a module can be found, and what a file of the module imports comes from one
of them that it imports from directly. Only an import of a path that the module has itself may be
served from elsewhere: from the module that comes first among those that have the path. -/
theorem served_from_dependency (h : Coherent w modules s) (hlive : w.live = true)
    (hread : ∀ m ∈ modules, m.Readable w) (hproper : ∀ m ∈ modules, m.files.Proper w.volumes)
    {m : Module} (hm : modules[i]? = some m) :
    ∃ deps t, (dependencies w i).on s = (.ok deps, t) ∧
      ∀ path file content, s.view.get w path = .ok (file, content) → file.module = m →
        file.kind = .schema → ∀ imported, SaysImport content imported →
        ∀ served bytes, s.view.get w imported = .ok (served, bytes) →
          (imported ∉ m.paths w → ∃ d ∈ deps, d.module = served.module ∧ d.isDirect = true) ∧
          (imported ∈ m.paths w → ∃ j ≤ i, modules[j]? = some served.module) := by
  have hi : i < modules.length := (List.getElem?_eq_some_iff.1 hm).1
  obtain ⟨deps, t, hdeps, _, _, hmem, _, hdep⟩ := on_dependencies hlive hread h hi
  refine ⟨deps, t, hdeps, ?_⟩
  rintro path file content hget rfl hschema imported hsays served bytes hserved
  rw [view, h.modules_eq] at hget hserved
  obtain ⟨_, _, hopen, hpath, _⟩ := View.server_of_get hlive hproper hread hget
  obtain ⟨j, hj, _, hheld, hfirst⟩ := View.server_of_get hlive hproper hread hserved
  refine ⟨fun hnot => ?_, fun hin => ⟨j, ?_, hj⟩⟩
  · have hkind : Module.kindOf? path = some .schema := by
      rw [Module.kind_of_get (hproper _ (List.mem_of_getElem? hm)) hopen, hschema]
    have himports : Imports w modules i j :=
      imports_of_server? hlive (hread _ (List.mem_of_getElem? hm)) hm hpath hkind
        (Module.read_of_get hopen) hsays.scanned (server?_eq_some hm hj hnot hheld hfirst)
        (List.getElem?_eq_some_iff.1 hj).1
    have hne : j ≠ i := by
      rintro rfl
      exact not_mem_importsOf_self w modules j himports
    obtain ⟨d, hd, rfl⟩ := List.mem_map.1 ((hmem j).2 ⟨.single himports, hne⟩)
    refine ⟨d, hd, Option.some.inj ((hdep d hd).1.symm.trans hj), (hdep d hd).2.2 himports⟩
  · by_contra hlt
    exact hfirst i (Nat.lt_of_not_le hlt) _ hm hin

/-! ### Modules that overlap -/

/-- A module that imports a path that it has itself and one that it does not have. -/
def importer : Module :=
  workspaceModule "b"
    [("x.schema", ""), ("y.schema", "import \"x.schema\"; import public \"z.schema\";")]

/-- Four modules: the importer is the second that has one of the paths, and the last two have the
other. -/
def overlapping : List Module :=
  [workspaceModule "a" [("x.schema", "message X {}")], importer,
    workspaceModule "c" [("z.schema", "")], workspaceModule "d" [("z.schema", "message Z {}")]]

theorem proper_workspaceModule (place : String) (files : List (String × String))
    (volumes : Storage.Volumes) : (workspaceModule place files).files.Proper volumes := by
  show Storage.Bucket.Proper volumes (.objects _)
  rw [Storage.Bucket.Proper]
  cases hobjects : Storage.Objects.ofFiles (files.map fun f => (f.1, f.2.toUTF8)) with
  | error e => exact fun key hkey => absurd hkey List.not_mem_nil
  | ok objects => exact Storage.Objects.proper_ofFiles hobjects

theorem proper_overlapping : ∀ m ∈ overlapping, m.files.Proper World.empty.volumes := by
  intro m hm
  simp only [overlapping, List.mem_cons, List.not_mem_nil, or_false] at hm
  rcases hm with rfl | rfl | rfl | rfl <;> exact proper_workspaceModule _ _ _

/-- Which module a path is served from, of which kind the file is, and its content. -/
def servedFrom? (modules : List Module) (path : String) :
    Option (String × Module.FileKind × ByteArray) :=
  ((ofModules modules).view.get World.empty path).toOption.map fun r =>
    (r.1.module.id, r.1.kind, r.2)

theorem servedFrom?_eq_some {path id : String} {kind : Module.FileKind} {content : ByteArray}
    (h : servedFrom? modules path = some (id, kind, content)) :
    ∃ file, (ofModules modules).view.get World.empty path = .ok (file, content) ∧
      file.module.id = id ∧ file.kind = kind := by
  obtain ⟨⟨file, content'⟩, hget, heq⟩ := Option.map_eq_some_iff.1 h
  cases heq
  exact ⟨file, toOption_eq_some.1 hget, rfl, rfl⟩

/-- The content of the importer's file that imports. -/
def importing : ByteArray := "import \"x.schema\"; import public \"z.schema\";".toUTF8

theorem served_from_dependency_overlapping :
    Coherent World.empty overlapping (ofModules overlapping) ∧ World.empty.live = true ∧
      (∀ m ∈ overlapping, m.Readable World.empty) ∧
      (∀ m ∈ overlapping, m.files.Proper World.empty.volumes) ∧
      ∃ deps t, (dependencies World.empty 1).on (ofModules overlapping) = (.ok deps, t) ∧
        ∃ d ∈ deps, d.module.id = "c" ∧ d.isDirect = true := by
  have hcoherent := coherent_ofModules World.empty overlapping
  have hread : ∀ m ∈ overlapping, m.Readable World.empty := by decide +kernel
  refine ⟨hcoherent, rfl, hread, proper_overlapping, ?_⟩
  obtain ⟨deps, t, hdeps, hcovered⟩ :=
    served_from_dependency (i := 1) hcoherent rfl hread proper_overlapping rfl
  obtain ⟨file, hget, hid, hkind⟩ := servedFrom?_eq_some
    (show servedFrom? overlapping "y.schema" = some ("b", .schema, importing) by decide +kernel)
  obtain ⟨served, hserved, hservedId, _⟩ := servedFrom?_eq_some
    (show servedFrom? overlapping "z.schema" = some ("c", .schema, "".toUTF8) by decide +kernel)
  have hmodule : file.module = importer := by
    obtain ⟨j, hj, _⟩ := View.server_of_get rfl proper_overlapping hread hget
    have hmem := List.mem_of_getElem? hj
    simp only [overlapping, List.mem_cons, List.not_mem_nil, or_false] at hmem
    rcases hmem with h | h | h | h
    · exact absurd (h ▸ hid) (by decide)
    · exact h
    · exact absurd (h ▸ hid) (by decide)
    · exact absurd (h ▸ hid) (by decide)
  have himport : SaysImport importing "z.schema" := .inl (by decide +kernel)
  have hnot : "z.schema" ∉ importer.paths World.empty := by decide +kernel
  obtain ⟨d, hd, hdserved, hdirect⟩ :=
    (hcovered "y.schema" file importing hget hmodule hkind "z.schema" himport served _ hserved).1 hnot
  exact ⟨deps, t, hdeps, d, hd, by rw [hdserved, hservedId], hdirect⟩

/-- Where two modules have a path, an import of it may be compiled from a module that the importing
one does not depend on. -/
theorem not_served_from_dependency_overlapping :
    make overlapping = .ok (ofModules overlapping) ∧
      (∀ m ∈ overlapping, m.Readable World.empty) ∧
      (∀ m ∈ overlapping, m.files.Proper World.empty.volumes) ∧
      ∃ file served bytes deps t,
        (ofModules overlapping).view.get World.empty "y.schema" = .ok (file, importing) ∧
        file.module.id = "b" ∧ file.kind = .schema ∧ SaysImport importing "x.schema" ∧
        (ofModules overlapping).view.get World.empty "x.schema" = .ok (served, bytes) ∧
        (dependencies World.empty 1).on (ofModules overlapping) = (.ok deps, t) ∧
        served.module.id ≠ "b" ∧ ∀ d ∈ deps, d.module.id ≠ served.module.id := by
  obtain ⟨file, hget, hid, hkind⟩ := servedFrom?_eq_some
    (show servedFrom? overlapping "y.schema" = some ("b", .schema, importing) by decide +kernel)
  obtain ⟨served, hserved, hservedId, _⟩ := servedFrom?_eq_some
    (show servedFrom? overlapping "x.schema" = some ("a", .schema, "message X {}".toUTF8) by
      decide +kernel)
  have hfound : (((dependencies World.empty 1).on (ofModules overlapping)).1.toOption.map
      fun deps => deps.map fun d => d.module.id) = some ["c"] := by decide +kernel
  obtain ⟨deps, hdeps, hids⟩ := Option.map_eq_some_iff.1 hfound
  refine ⟨rfl, by decide +kernel, proper_overlapping, file, served, _, deps, _, hget, hid, hkind,
    .inl (by decide +kernel), hserved, Prod.ext (toOption_eq_some.1 hdeps) rfl, ?_, fun d hd => ?_⟩
  · rw [hservedId]
    decide
  · have hmem : d.module.id ∈ ["c"] := hids ▸ List.mem_map_of_mem hd
    rw [List.mem_singleton.1 hmem, hservedId]
    decide

end Schemata.ModuleSet
