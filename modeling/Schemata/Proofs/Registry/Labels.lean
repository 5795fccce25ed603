import Schemata.Proofs.Registry.History
import Schemata.Proofs.Sorted

/-!
# Labels of a registry

A label of a module stands for what was pushed last of that module with the label; labels of other
modules do not matter. A label that reads like the ID of a commit is never looked for.
-/

namespace Schemata.Registry

/-- Whether the hash tells apart the texts behind the IDs of pushes. -/
def DistinctIds (log : List Pushed) : Prop :=
  ∀ e ∈ log, ∀ e' ∈ log, e.id = e'.id →
    commitText e.push.name e.digest = commitText e'.push.name e'.digest

/-- The labels that were pushed, the latest first. -/
def labelsOf (log : List Pushed) : List ((ModuleName × String) × CommitId) :=
  log.flatMap fun e => e.push.labels.reverse.map fun l => ((e.push.name, l), e.id)

variable {host : String} {log : List Pushed} {w w' : World} {e : Pushed} {m : ModuleName}
  {label : String}

theorem Apart.distinctIds (h : Apart log) : DistinctIds log :=
  fun e he e' he' hid => (h e he e' he' hid).1

theorem DistinctIds.key_eq (h : DistinctIds log) {e' : Pushed} (he : e ∈ log) (he' : e' ∈ log)
    (hid : e.id = e'.id) : e.key = e'.key := by
  obtain ⟨hname, hdigest⟩ := commitText_inj (h e he e' he' hid)
  rw [Pushed.key, Pushed.key, hname, hid, hdigest]

/-! ### What was pushed last with a label -/

/-- Whether a push is of a module and has a label. -/
def Pushed.carries (m : ModuleName) (label : String) (e : Pushed) : Bool :=
  e.push.name = m ∧ label ∈ e.push.labels

theorem Pushed.carries_iff : e.carries m label = true ↔ e.push.name = m ∧ label ∈ e.push.labels :=
  decide_eq_true_iff

theorem find?_labels_append (e : Pushed) (rest : List ((ModuleName × String) × CommitId)) :
    (e.push.labels.reverse.map (fun l => ((e.push.name, l), e.id)) ++ rest).find?
        (fun x => x.1 = (m, label)) =
      if e.carries m label then some ((m, label), e.id)
      else rest.find? fun x => x.1 = (m, label) := by
  rw [List.find?_append, List.find?_map]
  split
  · rename_i hcarries
    obtain ⟨rfl, hlabel⟩ := Pushed.carries_iff.1 hcarries
    have hfind : e.push.labels.reverse.find?
        ((fun x => x.1 = (e.push.name, label)) ∘ fun l => ((e.push.name, l), e.id)) =
          some label := by
      refine (find?_eq_some_of_unique fun l _ l' _ hl hl' => ?_).2
        ⟨List.mem_reverse.2 hlabel, decide_eq_true rfl⟩
      have heq := (of_decide_eq_true hl).trans (of_decide_eq_true hl').symm
      exact (Prod.mk.inj heq).2
    rw [hfind]
    rfl
  · rename_i hother
    have hfind : e.push.labels.reverse.find?
        ((fun x => x.1 = (m, label)) ∘ fun l => ((e.push.name, l), e.id)) = none := by
      refine List.find?_eq_none.2 fun l hl heq => hother (Pushed.carries_iff.2 ?_)
      obtain ⟨hname, rfl⟩ := Prod.mk.inj (of_decide_eq_true heq)
      exact ⟨hname, List.mem_reverse.1 hl⟩
    rw [hfind]
    rfl

theorem find?_labelsOf : (labelsOf log).find? (fun x => x.1 = (m, label)) =
    (log.find? (Pushed.carries m label)).map fun e => ((m, label), e.id) := by
  induction log with
  | nil => rfl
  | cons e log ih =>
    rw [labelsOf, List.flatMap_cons, find?_labels_append, List.find?_cons]
    split
    · rename_i hcarries
      rw [hcarries]
      rfl
    · rename_i hother
      rw [Bool.not_eq_true] at hother
      rw [hother]
      exact ih

theorem labels_store (r : Registry) (id : CommitId) (c : Commit) (labels : List String) :
    (r.store id c labels).labels = labels.reverse.map (fun l => ((c.name, l), id)) ++ r.labels := by
  unfold store
  simp only
  split
  · rfl
  · rfl

/-- A registry keeps all labels that were pushed. -/
theorem Follows.labels (h : Follows host log w) : w.registry.labels = labelsOf log := by
  induction h with
  | start h =>
    rw [h]
    rfl
  | @pushed log w w' e _ _ hasked hgives ih =>
    obtain ⟨_, w₁, hds, rfl⟩ := stores_of_gives hasked hgives
    obtain ⟨_, cells, rfl⟩ := ModuleKey.gives_digests hds
    refine (labels_store ..).trans ?_
    rw [labelsOf, List.flatMap_cons]
    exact congrArg _ ih
  | failed _ hrun ih =>
    rw [(Push.quiet_of_failure hrun).2]
    exact ih
  | meanwhile _ _ hsame ih =>
    obtain ⟨fetches, hsame⟩ := hsame
    rw [hsame]
    exact ih

/-! ### What a label stands for -/

theorem idOf?_label {r : Registry} (hlabel : isCommitId label = false) :
    r.idOf? ⟨m, some label⟩ = (r.labels.find? fun x => x.1 = (m, label)).map (·.2) := by
  have hparse : CommitId.parse label = .error (.notACommitId label) :=
    dif_neg (Bool.eq_false_iff.1 hlabel)
  unfold idOf?
  simp only [hparse]

/-- A label that does not read like an ID stands for the last push that has it. -/
theorem Follows.resolve_label (h : Follows host log w) (hids : DistinctIds log)
    (hlabel : isCommitId label = false) : w.registry.resolve ⟨m, some label⟩ =
      match log.find? (Pushed.carries m label) with
      | some e => .ok e.key
      | none => .error (.notFound (ModuleRef.text ⟨m, some label⟩)) := by
  have hid := idOf?_label (r := w.registry) (m := m) hlabel
  rw [h.labels, find?_labelsOf, Option.map_map] at hid
  cases hfind : log.find? (Pushed.carries m label) with
  | none =>
    rw [hfind] at hid
    unfold resolve
    simp only [hid]
    rfl
  | some e =>
    rw [hfind] at hid
    have he := List.mem_of_find?_eq_some hfind
    obtain ⟨hname, _⟩ := Pushed.carries_iff.1 (List.find?_some hfind)
    obtain ⟨e', he', hide, hcommit⟩ := h.keeps.2.1.find?_commits he
    have hkey : e'.key = e.key := hids.key_eq he' he hide
    have hname' : e'.commit.name = m := (congrArg ModuleKey.name hkey).trans hname
    refine (resolve_of_commit? hid ((commit?_of_find? hcommit m).trans (if_pos hname'))).trans ?_
    show Except.ok (keyOf e.id e'.commit) = .ok e.key
    rw [← hide]
    exact congrArg Except.ok hkey

/-- What reads like an ID and is none of the module stands for nothing. -/
theorem Follows.resolve_missing (h : Follows host log w) {id : CommitId}
    (hid : ∀ e ∈ log, e.push.name = m → e.id ≠ id) :
    w.registry.resolve ⟨m, some id.text⟩ =
      .error (.notFound (ModuleRef.text ⟨m, some id.text⟩)) := by
  refine resolve_of_missing (idOf?_commit _ m id) ?_
  cases hfind : (firsts log).find? fun e => e.id.text = id.text with
  | none =>
    rw [commit?, h.keeps.2.1.commits, hfind]
    rfl
  | some e =>
    have he := firsts_subset log (List.mem_of_find?_eq_some hfind)
    have hfound := List.find?_some hfind
    have heq : e.id = id := CommitId.text_injective (of_decide_eq_true hfound)
    have hcommit : w.registry.commits.find? id.text = some e.commit := by
      rw [h.keeps.2.1.commits, hfind]
      rfl
    exact (commit?_of_find? hcommit m).trans (if_neg fun hname => hid e he hname heq)

/-- What the last push of a module with a label returned. -/
def lastWith (log : List Pushed) (m : ModuleName) (label : String) :
    Except Module.Error ModuleKey :=
  match log.find? (Pushed.carries m label) with
  | some e => .ok e.key
  | none => .error (.notFound (ModuleRef.text ⟨m, some label⟩))

theorem lastWith_of_none (hnone : ∀ e ∈ log, ¬ (e.push.name = m ∧ label ∈ e.push.labels)) :
    lastWith log m label = .error (.notFound (ModuleRef.text ⟨m, some label⟩)) := by
  have hfind : log.find? (Pushed.carries m label) = none :=
    List.find?_eq_none.2 fun e he hcarries => hnone e he (Pushed.carries_iff.1 hcarries)
  rw [lastWith, hfind]

/-- Pushes of other modules do not matter for what was pushed last with a label. -/
theorem lastWith_filter (log : List Pushed) :
    lastWith (log.filter fun e => e.push.name = m) m label = lastWith log m label := by
  have hcarries : (fun e : Pushed => decide (decide (e.push.name = m) = true ∧
      e.carries m label = true)) = Pushed.carries m label := by
    funext e
    rw [Bool.eq_iff_iff, decide_eq_true_eq, decide_eq_true_eq, and_iff_right_iff_imp]
    exact fun hcarries => (Pushed.carries_iff.1 hcarries).1
  rw [lastWith, lastWith, List.find?_filter, hcarries]

/-- What a text stands for that is the ID of no push of the module. -/
theorem Follows.resolve_text (h : Follows host log w) (hids : DistinctIds log)
    (hlabel : ∀ e ∈ log, e.push.name = m → e.id.text ≠ label) :
    w.registry.resolve ⟨m, some label⟩ =
      if isCommitId label then .error (.notFound (ModuleRef.text ⟨m, some label⟩))
      else lastWith log m label := by
  cases hlooks : isCommitId label with
  | true =>
    obtain ⟨id, rfl⟩ : ∃ id : CommitId, id.text = label := ⟨⟨label, hlooks⟩, rfl⟩
    exact h.resolve_missing fun e he hname heq =>
      hlabel e he hname (congrArg CommitId.text heq)
  | false => exact h.resolve_label hids hlooks

/-- What a label stands for in a history of pushes, if it is the ID of no push of the module. It is
what the last push of the module returned that has the label, or not found if none has it; but a
label that reads like an ID is not found whether or not a push has it. The pushes of other modules
do not matter. -/
theorem labels_resolve (h : Follows host log w) (hids : DistinctIds log)
    (hlabel : ∀ e ∈ log, e.push.name = m → e.id.text ≠ label) :
    (isCommitId label = false → w.registry.resolve ⟨m, some label⟩ = lastWith log m label) ∧
    ((∀ e ∈ log, ¬ (e.push.name = m ∧ label ∈ e.push.labels)) →
      w.registry.resolve ⟨m, some label⟩ =
        .error (.notFound (ModuleRef.text ⟨m, some label⟩))) ∧
    (isCommitId label = true → w.registry.resolve ⟨m, some label⟩ =
      .error (.notFound (ModuleRef.text ⟨m, some label⟩))) ∧
    ∀ host' log' w', Follows host' log' w' → DistinctIds log' →
      (log'.filter fun e => e.push.name = m) = log.filter (fun e => e.push.name = m) →
      w'.registry.resolve ⟨m, some label⟩ = w.registry.resolve ⟨m, some label⟩ := by
  have htext := h.resolve_text hids hlabel
  refine ⟨fun hlooks => ?_, fun hnone => ?_, fun hlooks => ?_, fun _ log' w' h' hids' hsame => ?_⟩
  · rw [htext, if_neg (by simp [hlooks])]
  · rw [htext, lastWith_of_none hnone, ite_self]
  · rw [htext, if_pos hlooks]
  · have hlabel' : ∀ e ∈ log', e.push.name = m → e.id.text ≠ label := by
      intro e he hname
      have hfilter : e ∈ log'.filter fun e => e.push.name = m :=
        List.mem_filter.2 ⟨he, decide_eq_true hname⟩
      rw [hsame] at hfilter
      exact hlabel e (List.mem_filter.1 hfilter).1 hname
    rw [htext, h'.resolve_text hids' hlabel', ← lastWith_filter log', hsame, lastWith_filter]

open Delivery (pets base petDeps)

/-- The label of the first push of a module stands for it, after a push without labels too. It
stands for no other module. -/
theorem labels_resolve_pets : ∃ w, Follows "r.com" petLog w ∧
    w.registry.resolve ⟨pets.name, some "main"⟩ = .ok (petPush.pushed petDeps).key ∧
    w.registry.resolve ⟨base.name, some "main"⟩ = .error (.notFound "r.com/acme/base:main") := by
  obtain ⟨w, hfollows, _⟩ := follows_petLog
  have hids := apart_petLog.distinctIds
  have hlooks : isCommitId "main" = false := by decide
  have hlabel : ∀ m, ∀ e ∈ petLog, e.push.name = m → e.id.text ≠ "main" := by
    intro _ e _ _ heq
    have hid := e.id.ok
    rw [heq, hlooks] at hid
    cases hid
  refine ⟨w, hfollows, ?_, ?_⟩
  · rw [(labels_resolve hfollows hids (hlabel pets.name)).1 hlooks]
    rfl
  · rw [(labels_resolve hfollows hids (hlabel base.name)).1 hlooks]
    rfl

/-! ### Labels that read like IDs -/

def twos : CommitId := ⟨"22222222222222222222222222222222", by decide⟩

def threes : CommitId := ⟨"33333333333333333333333333333333", by decide⟩

def numberedPush : Push := { petPush with labels := [twos.text, threes.text] }

theorem follows_numbered : ∃ w, Follows "r.com" [numberedPush.pushed petDeps] w := by
  have hstart : Follows "r.com" [] { World.empty with registry := .empty "r.com" } := .start rfl
  have hfiles : numberedPush.moduleFiles = Delivery.petFiles := moduleFiles_petPush
  exact ⟨_, hstart.accept rfl
    (Push.accepted rfl (by decide +kernel) (by rw [hfiles]; decide +kernel) (by decide))
    (.cons (.inl rfl) (.cons (.inl rfl) .nil))⟩

/-- A label of a module that is the ID of no push may stand for nothing. -/
theorem label_lost : ∃ w log label, Follows "r.com" log w ∧ DistinctIds log ∧
    (∀ e ∈ log, e.id.text ≠ label) ∧
    (∃ e ∈ log, e.push.name = pets.name ∧ label ∈ e.push.labels) ∧
    w.registry.resolve ⟨pets.name, some label⟩ =
      .error (.notFound (ModuleRef.text ⟨pets.name, some label⟩)) := by
  obtain ⟨w, hfollows⟩ := follows_numbered
  -- the ID of the push is one of the two labels at most
  obtain ⟨id, hid, hlabel⟩ : ∃ id : CommitId, (numberedPush.pushed petDeps).id ≠ id ∧
      id.text ∈ numberedPush.labels := by
    by_cases htwos : (numberedPush.pushed petDeps).id = twos
    · exact ⟨threes, by rw [htwos]; decide, by decide⟩
    · exact ⟨twos, htwos, by decide⟩
  refine ⟨w, _, id.text, hfollows, ?_, ?_, ⟨_, List.mem_cons_self, rfl, hlabel⟩, ?_⟩
  · intro e he e' he' _
    rw [List.mem_singleton.1 he, List.mem_singleton.1 he']
  · exact List.forall_mem_singleton.2 fun heq => hid (CommitId.text_injective heq)
  · exact hfollows.resolve_missing (List.forall_mem_singleton.2 fun _ => hid)

end Schemata.Registry
