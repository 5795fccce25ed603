import Schemata.Proofs.Registry.Fetching
import Schemata.Proofs.Upload.Push

/-!
# Sets to upload from

A set that is built with a registry as its provider can be uploaded from: its remote modules are
those of commits in the registry, and all its modules show just what belongs to one.
-/

namespace Schemata

open Storage
open Schemata.Registry (Pushed Follows)

/-- What shows the files of a module in a proper bucket is proper. -/
theorem Module.proper_filesOf {volumes volumes' : Volumes} {live : Bool} {b view : Bucket}
    (h : filesOf volumes live b = .ok view) (hb : b.Proper volumes') : view.Proper volumes' := by
  obtain ⟨doc, _, rfl⟩ := filesOf_eq_ok.1 h
  rw [Bucket.keeping, Bucket.Proper]
  exact ⟨hb, List.forall_mem_singleton.2 trivial⟩

namespace ModuleSet.Build

variable {host : String} {log : List Pushed} {w w₁ w' : World} {rounds : Nat}
  {locals : List LocalModule} {remotes : List RemoteModule} {f : Fetched} {s : ModuleSet}
  {ls : List Module}

/-- Local modules show what belongs to them of their buckets. -/
theorem views_of_gives_localModules (h : (locals.mapM localModule).Gives w ls w') :
    List.Forall₂ (fun (l : LocalModule) m => m.origin = .workspace ∧
      Module.filesOf w.volumes w.live l.bucket = .ok m.files) locals ls := by
  induction locals generalizing ls with
  | nil =>
    obtain ⟨rfl, _⟩ := Act.gives_pure.1 h
    exact .nil
  | cons l locals ih =>
    rw [List.mapM_cons] at h
    obtain ⟨m, w₁, hm, h⟩ := Act.gives_bind.1 h
    obtain ⟨rest, w₂, hrest, h⟩ := Act.gives_bind.1 h
    obtain ⟨rfl, rfl⟩ := Act.gives_pure.1 h
    obtain ⟨hmodule, rfl⟩ := Act.gives_ofWorld.1 hm
    obtain ⟨files, hfiles, hmodule⟩ := bind_eq_ok.1 hmodule
    refine .cons ?_ (ih hrest)
    rcases untargetIfEmpty_eq_ok hmodule with rfl | ⟨rfl, _⟩
    · exact ⟨rfl, hfiles⟩
    · exact ⟨rfl, hfiles⟩

/-- Whether a module is one that a set has from a bucket or from a commit of the registry. -/
inductive Stems (w : World) (locals : List LocalModule) (f : Fetched) (m : Module) : Prop
  | fromBucket {l : LocalModule} (hl : l ∈ locals) (ho : m.origin = .workspace)
      (hfiles : Module.filesOf w.volumes w.live l.bucket = .ok m.files)
  | fromCommit {key : ModuleKey} {c : Commit} (h : FetchedAs w f m key c)

theorem stems_of_build (hfollows : Follows host log w) (hremotes : ∀ r ∈ remotes, r.key.In w)
    (h : (ModuleSet.build Registry.provider rounds locals remotes).Gives w s w') :
    w.Consulted w' ∧ ∃ f, Drawn w' locals remotes f s ∧ ∀ m ∈ s.modules, Stems w' locals f m := by
  obtain ⟨hconsulted, f, hdrawn⟩ := drawn_of_build hfollows hremotes h
  refine ⟨hconsulted, f, hdrawn, fun m hm => ?_⟩
  obtain ⟨f', w₁, hgather, hfinish⟩ := Act.gives_bind.1 h
  obtain ⟨ls, rs, w₂, hls, hrs, hmake⟩ := finish_steps hfinish
  have hlater := (consults_gather _ _ _).gives hgather
  cases hkey : m.key? with
  | some key =>
    obtain ⟨c, hc⟩ := hdrawn.fetched m hm key hkey
    exact .fromCommit hc
  | none =>
    rw [(make_eq_ok hmake).1] at hm
    rcases List.mem_append.1 hm with hm | hm
    · obtain ⟨l, hl, ho, hfiles⟩ := exists_of_forall₂ (views_of_gives_localModules hls) hm
      obtain ⟨_, _, rfl⟩ := hlater.same
      obtain ⟨_, _, rfl⟩ := hconsulted.same
      exact .fromBucket hl ho hfiles
    · obtain ⟨r, _, hfetched⟩ :=
        exists_of_forall₂ ((Act.gives_mapM hrs).imp fun _ _ ⟨_, _, hm⟩ => gives_remoteModule hm) hm
      rw [hfetched.key] at hkey
      cases hkey

end ModuleSet.Build

namespace Upload

open Schemata.ModuleSet (Sound)
open Schemata.ModuleSet.Build (Stems FetchedAs stems_of_build)

variable {host : String} {log : List Pushed} {w w' : World} {rounds : Nat}
  {locals : List LocalModule} {remotes : List RemoteModule}
  {s : ModuleSet}

/-- A set that is built from a registry can be uploaded from, if its files can be read. -/
theorem supplied_of_build (hfollows : Follows host log w) (hremotes : ∀ r ∈ remotes, r.key.In w)
    (h : (ModuleSet.build Registry.provider rounds locals remotes).Gives w s w')
    (hproper : ∀ l ∈ locals, l.bucket.Proper w.volumes)
    (hread : ∀ m ∈ s.modules, m.Readable w') :
    Follows host log w' ∧ Supplied w' s.modules ∧ (∀ m ∈ s.modules, m.files.Proper w'.volumes) ∧
      Sound w' s.modules [] s := by
  obtain ⟨hconsulted, f, hdrawn, hstems⟩ := stems_of_build hfollows hremotes h
  have hfollows' := hconsulted.follows hfollows
  have hvolumes : w'.volumes = w.volumes := by
    obtain ⟨_, _, rfl⟩ := hconsulted.same
    rfl
  obtain ⟨_, _, _, hfinish⟩ := Act.gives_bind.1 h
  obtain ⟨ls, rs, _, _, _, hmake⟩ := ModuleSet.Build.finish_steps hfinish
  obtain ⟨hs, hids⟩ := ModuleSet.make_eq_ok hmake
  refine ⟨hfollows', ⟨hs ▸ hids, hread, fun m hm => ?_, fun m hm key digest ho => ?_⟩,
    fun m hm => ?_, hs ▸ ModuleSet.sound_ofModules w' (ls ++ rs)⟩
  · cases hstems m hm with
    | fromBucket _ _ hfiles => exact ⟨_, hfiles⟩
    | fromCommit hc => exact ⟨_, hc.view⟩
  · cases hstems m hm with
    | fromBucket _ ho' _ => cases ho.symm.trans ho'
    | fromCommit hc =>
      cases ho.symm.trans hc.origin
      exact ⟨hc.name, _, hc.commit, rfl, hc.files⟩
  · cases hstems m hm with
    | fromBucket hl _ hfiles => exact Module.proper_filesOf hfiles (hvolumes ▸ hproper _ hl)
    | fromCommit hc =>
      refine Module.proper_filesOf hc.view ?_
      rw [Bucket.Proper]
      intro path hpath
      obtain ⟨e, he, _, _, hcommit⟩ := hfollows'.exists_pushed hc.commit
      rw [← hcommit] at hpath
      exact Path.validateObject_eq_ok.1 ((hfollows'.keeps.2.2 e he).1.listed path hpath).2

/-- Sets can be uploaded from as long as the registry only grows and the store stays. -/
theorem Supplied.later {modules : List Module} (h : Supplied w modules)
    (hgrown : w.registry.Grown w'.registry) (hstore : w'.store = w.store)
    (hlive : w'.live = w.live) : Supplied w' modules := by
  obtain ⟨live, store, registry, cells⟩ := w'
  cases hstore
  cases hlive
  refine ⟨h.ids, fun m hm => ⟨(h.readable m hm).listed, (h.readable m hm).read⟩, h.trimmed,
    fun m hm key digest ho => ?_⟩
  obtain ⟨hname, c, hc, hdigest, hfiles⟩ := h.origins m hm key digest ho
  exact ⟨hname, c, hgrown _ _ _ hc, hdigest, hfiles.lists, hfiles.reads⟩

/-- Whether modules are those of a set that was built from the registry of a world, at some time
since which the registry has only grown. -/
def BuiltFrom (host : String) (w : World) (modules : List Module) : Prop :=
  ∃ log w₀ rounds locals remotes s w₁, Follows host log w₀ ∧ (∀ r ∈ remotes, r.key.In w₀) ∧
    (∀ l ∈ locals, l.bucket.Proper w₀.volumes) ∧
    (ModuleSet.build Registry.provider rounds locals remotes).Gives w₀ s w₁ ∧
    s.modules = modules ∧ w₁.registry.Grown w.registry ∧ w.store = w₁.store ∧ w.live = w₁.live

theorem supplied_of_built {modules : List Module} (h : BuiltFrom host w modules)
    (hread : ∀ m ∈ modules, m.Readable w) :
    Supplied w modules ∧ ∀ m ∈ modules, m.files.Proper w.volumes := by
  obtain ⟨log, w₀, rounds, locals, remotes, s, w₁, hfollows, hremotes, hproper, hbuild, rfl, hgrown,
    hstore, hlive⟩ := h
  have hread' : ∀ m ∈ s.modules, m.Readable w₁ := by
    obtain ⟨live, store, registry, cells⟩ := w
    cases hstore
    cases hlive
    exact fun m hm => ⟨(hread m hm).listed, (hread m hm).read⟩
  obtain ⟨_, hsupplied, hview, _⟩ := supplied_of_build hfollows hremotes hbuild hproper hread'
  refine ⟨hsupplied.later hgrown hstore hlive, ?_⟩
  rwa [World.volumes, hstore]

end Upload

end Schemata
