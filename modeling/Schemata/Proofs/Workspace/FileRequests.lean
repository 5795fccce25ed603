import Schemata.Proofs.Workspace.FileTargets
import Schemata.Proofs.Workspace.TargetFiles

/-!
# Requests for one file

The modules of a workspace are built for the extents that its settings describe. Of a request for a
file the targets are the schema files that are asked for; where there is none, want of target files
is the failure, and a file that no module directory holds is another.
-/

namespace Schemata.Workspace

open Settings Storage
open ModuleSet.Build (checkLocals gather gives_localModule localModule made_of_gives_build
  targetsOf)
open Schemata.Path (IsNormal covers contains join)

/-! ### Workspaces -/

section Workspaces

variable {provider : Provider} {w w' : World} {b : Bucket} {r : Request}
  {override : Option Override} {wanted : List Bool} {ms : List Module} {ws : Workspace}

/-- Whether a module is built in a world for an extent, with the share of a request in it. -/
def IsBuiltIn (w : World) (files : Bucket) (dirs : List String) (inner : Request) (m : Module)
    (x : Extent) : Prop :=
  ∃ d : ModuleDir, d.settings.Keeps x ∧ IsBuiltFor w files dirs d inner m

/-- The local modules that are made for a workspace are built for the extents that its settings
describe, and only these may be targets. -/
theorem MadeAt.extents (h : MadeAt provider b r override w wanted ms w') :
    ∃ r' found inner xs, r.located = .ok r' ∧ discover w.volumes w.live b r'.subDir = .ok found ∧
      r'.fromRoot found.root = .ok inner ∧ IsNormal found.root ∧ found.Describes w b xs ∧
      (xs.map Extent.dir).Nodup ∧ (∀ x ∈ xs, IsNormal x.dir) ∧
      List.Forall₂ (IsBuiltIn w' (filesBelow b found.root) (xs.map Extent.dir) inner)
        (ms.filter Module.isLocal) xs ∧
      ∀ m ∈ ms, m.target = true → m.isLocal = true := by
  obtain ⟨locals, remotes, w₁, hdeclares, hmade, _⟩ := h
  obtain ⟨r', found, inner, xs, hr, hfound, hinner, hroot, hdescribes, hdirs, hnormal, hlocals⟩ :=
    hdeclares.extents
  obtain ⟨hids, hmodules⟩ := hmade.gives_locals
  refine ⟨r', found, inner, xs, hr, hfound, hinner, hroot, hdescribes, hdirs ▸ hids, hnormal,
    (forall₂_trans hlocals hmodules).imp ?_, fun m hm => hmade.isLocal_of_target ?_ hm⟩
  · rintro m x ⟨l, _, hm, d, t, hkeeps, ht, rfl⟩
    exact ⟨d, hkeeps, t, w', ht, hm⟩
  · obtain ⟨_, _, keys, _, _, _, _, hremotes⟩ := hdeclares.planned
    rw [hremotes]
    intro remote hremote
    obtain ⟨key, _, rfl⟩ := List.mem_map.1 hremote
    rfl

end Workspaces

/-! ### Files that no module holds -/

section Faults

variable {w : World} {b : Bucket} {r r' inner : Request} {found : Discovered} {plan : Plan}

end Faults

/-- The files of a workspace that does not lie at the root of its bucket. Three schema files have
one package. -/
def packaged : List (String × String) :=
  [("ws/strata.toml", "version = \"v2\"\n[[modules]]\npath = \"a\"\n"),
    ("ws/a/old/r.schema", "package k;"), ("ws/a/p.schema", "package k;"),
    ("ws/a/q.schema", "package k;"), ("ws/a/s.schema", "package l;")]

end Schemata.Workspace
