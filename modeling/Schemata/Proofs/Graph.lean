import Mathlib.Data.List.Perm.Subperm
import Mathlib.Logic.Relation
import Schemata.Graph

/-!
# Walks reach what they should

A walk enters exactly the nodes that can be reached from its starts, and leaves each after all that
it leads to except around a cycle. So the cycles that are found are all there are.
-/

namespace Schemata.Graph

open Relation (ReflTransGen TransGen)

variable {α : Type} {next : α → List α}

/-- Whether a node is among the successors of another. -/
def Edge (next : α → List α) (a b : α) : Prop := b ∈ next a

/-- Whether edges lead from one node to another, or it is that node. -/
def Reaches (next : α → List α) : α → α → Prop := ReflTransGen (Edge next)

/-- Whether a node is on a cycle. -/
def OnCycle (next : α → List α) (v : α) : Prop := TransGen (Edge next) v v

theorem mem_of_reaches {nodes : List α} (hclosed : ∀ x ∈ nodes, next x ⊆ nodes) {v x : α}
    (hv : v ∈ nodes) (h : Reaches next v x) : x ∈ nodes := by
  induction h with
  | refl => exact hv
  | tail _ hxy ih => exact hclosed _ ih hxy

/-! ### What a part of a walk does -/

/-- Whether nodes, the latest first, were left after all that they lead to, except for nodes that
had been entered before and around cycles. -/
def LeftInOrder (next : α → List α) (seen left : List α) : Prop :=
  ∀ a x b, left = a ++ x :: b → ∀ y ∈ next x, y ∈ b ∨ y ∈ seen ∨ Reaches next y x

/-- What happens to a walk when it enters some nodes: it enters all that they lead to, and leaves
all that it has entered. -/
structure Grows (next : α → List α) (starts : List α) (w w' : Walk α) : Prop where
  enters : starts ⊆ w'.entered
  sound : ∀ x ∈ w'.entered, x ∈ w.entered ∨ ∃ v ∈ starts, Reaches next v x
  closed : ∀ x ∈ w'.entered, x ∈ w.entered ∨ next x ⊆ w'.entered
  left : ∃ new, w'.left = new ++ w.left ∧ w'.entered.Perm (new ++ w.entered) ∧
    LeftInOrder next w.entered new

theorem Grows.mono {starts : List α} {w w' : Walk α} (h : Grows next starts w w') :
    w.entered ⊆ w'.entered := by
  obtain ⟨new, _, hperm, _⟩ := h.left
  intro x hx
  exact hperm.mem_iff.2 (List.mem_append_right _ hx)

theorem Grows.length_le {starts : List α} {w w' : Walk α} (h : Grows next starts w w') :
    w.entered.length ≤ w'.entered.length := by
  obtain ⟨new, _, hperm, _⟩ := h.left
  rw [hperm.length_eq, List.length_append]
  omega

theorem Grows.refl (w : Walk α) {starts : List α} (h : starts ⊆ w.entered) :
    Grows next starts w w := by
  refine ⟨h, fun x hx => .inl hx, fun x hx => .inl hx, [], rfl, .refl _, ?_⟩
  intro a x b hab
  exact absurd hab.symm (List.append_ne_nil_of_right_ne_nil a (List.cons_ne_nil x b))

/-- Nodes that are left later keep their order, and those that were left before count as seen. -/
theorem LeftInOrder.append {seen new later : List α} (h : LeftInOrder next seen new)
    (h' : LeftInOrder next (new ++ seen) later) : LeftInOrder next seen (later ++ new) := by
  intro a x b hab y hy
  rcases List.append_eq_append_iff.1 hab with ⟨c, hc, hnew⟩ | ⟨c, hlater, hb⟩
  · exact h c x b hnew y hy
  · cases c with
    | nil =>
      rw [List.nil_append] at hb
      exact h [] x b (by simpa using hb.symm) y hy
    | cons z c =>
      rw [List.cons_append] at hb
      obtain ⟨rfl, rfl⟩ := List.cons.inj hb
      rcases h' a x c hlater y hy with hyc | hys | hyx
      · exact .inl (List.mem_append_left _ hyc)
      · rcases List.mem_append.1 hys with hyn | hys
        · exact .inl (List.mem_append_right _ hyn)
        · exact .inr (.inl hys)
      · exact .inr (.inr hyx)

theorem LeftInOrder.congr {seen seen' left : List α} (h : LeftInOrder next seen left)
    (hseen : ∀ x ∈ seen, x ∈ seen') : LeftInOrder next seen' left := by
  intro a x b hab y hy
  exact (h a x b hab y hy).imp_right (Or.imp_left (hseen y))

theorem Grows.trans {starts starts' : List α} {w w' w'' : Walk α} (h : Grows next starts w w')
    (h' : Grows next starts' w' w'') : Grows next (starts ++ starts') w w'' := by
  obtain ⟨new, hleft, hperm, horder⟩ := h.left
  obtain ⟨later, hleft', hperm', horder'⟩ := h'.left
  refine ⟨?_, fun x hx => ?_, fun x hx => ?_, later ++ new, ?_, ?_, ?_⟩
  · exact List.append_subset.2 ⟨fun x hx => h'.mono (h.enters hx), h'.enters⟩
  · rcases h'.sound x hx with hx | ⟨v, hv, hvx⟩
    · rcases h.sound x hx with hx | ⟨v, hv, hvx⟩
      · exact .inl hx
      · exact .inr ⟨v, List.mem_append_left _ hv, hvx⟩
    · exact .inr ⟨v, List.mem_append_right _ hv, hvx⟩
  · rcases h'.closed x hx with hx | hx
    · rcases h.closed x hx with hx | hx
      · exact .inl hx
      · exact .inr fun y hy => h'.mono (hx hy)
    · exact .inr hx
  · rw [hleft', hleft, List.append_assoc]
  · rw [List.append_assoc]
    exact hperm'.trans (hperm.append_left later)
  · exact horder.append (horder'.congr fun x hx => hperm.mem_iff.1 hx)

/-- Whether a walk stays in a closed set of nodes and enters no node twice. -/
structure Within (nodes : List α) (w : Walk α) : Prop where
  nodup : w.entered.Nodup
  subset : w.entered ⊆ nodes

theorem Within.grow {nodes starts : List α} {w w' : Walk α}
    (hclosed : ∀ x ∈ nodes, next x ⊆ nodes) (h : Within nodes w) (hs : starts ⊆ nodes)
    (hg : Grows next starts w w') (hnodup : w'.entered.Nodup) : Within nodes w' := by
  refine ⟨hnodup, fun x hx => ?_⟩
  rcases hg.sound x hx with hx | ⟨v, hv, hvx⟩
  · exact h.subset hx
  · exact mem_of_reaches hclosed (hs hv) hvx

theorem Within.length_le {nodes : List α} {w : Walk α} (h : Within nodes w) :
    w.entered.length ≤ nodes.length :=
  (List.subperm_of_subset h.nodup h.subset).length_le

theorem grows_foldl [BEq α] {nodes : List α} (hclosed : ∀ x ∈ nodes, next x ⊆ nodes) (depth : Nat)
    (hvisit : ∀ v w, v ∈ nodes → Within nodes w → nodes.length + 1 ≤ depth + w.entered.length →
      Grows next [v] w (visit next depth v w) ∧ (visit next depth v w).entered.Nodup)
    (starts : List α) (w : Walk α) (hs : starts ⊆ nodes) (h : Within nodes w)
    (hdepth : nodes.length + 1 ≤ depth + w.entered.length) :
    Grows next starts w (starts.foldl (fun w v => visit next depth v w) w) ∧
      (starts.foldl (fun w v => visit next depth v w) w).entered.Nodup := by
  induction starts generalizing w with
  | nil => exact ⟨.refl w (List.nil_subset _), h.nodup⟩
  | cons v starts ih =>
    have hv := List.cons_subset.1 hs
    obtain ⟨hgrow, hnodup⟩ := hvisit v w hv.1 h hdepth
    have hle := hgrow.length_le
    have hsub : [v] ⊆ nodes := List.cons_subset.2 ⟨hv.1, List.nil_subset _⟩
    obtain ⟨hrest, hnodup'⟩ := ih (visit next depth v w) hv.2
      (h.grow hclosed hsub hgrow hnodup) (by omega)
    exact ⟨hgrow.trans hrest, hnodup'⟩

theorem Grows.leave {v : α} {w w' : Walk α} (hnodup : w'.entered.Nodup)
    (h : Grows next (next v) { w with entered := v :: w.entered } w') :
    Grows next [v] w { w' with left := v :: w'.left } := by
  obtain ⟨new, hleft, hperm, horder⟩ := h.left
  have hv : v ∈ w'.entered := h.mono List.mem_cons_self
  have hsound : ∀ x ∈ w'.entered, x ∈ w.entered ∨ Reaches next v x := by
    intro x hx
    rcases h.sound x hx with hx | ⟨u, hu, hux⟩
    · rcases List.mem_cons.1 hx with rfl | hx
      · exact .inr .refl
      · exact .inl hx
    · exact .inr (.head hu hux)
  refine ⟨List.cons_subset.2 ⟨hv, List.nil_subset _⟩, fun x hx => ?_, fun x hx => ?_, v :: new,
    by rw [hleft]; rfl, ?_, ?_⟩
  · exact (hsound x hx).imp_right fun hvx => ⟨v, List.mem_singleton_self v, hvx⟩
  · rcases h.closed x hx with hx | hx
    · rcases List.mem_cons.1 hx with rfl | hx
      · exact .inr h.enters
      · exact .inl hx
    · exact .inr hx
  · exact hperm.trans List.perm_middle
  · intro a x b hab y hy
    cases a with
    | nil =>
      -- the node itself is left last: its successors have all been entered
      obtain ⟨rfl, rfl⟩ := List.cons.inj hab
      rcases List.mem_append.1 (hperm.mem_iff.1 (h.enters hy)) with hyn | hyw
      · exact .inl hyn
      · rcases List.mem_cons.1 hyw with rfl | hyw
        · exact .inr (.inr .refl)
        · exact .inr (.inl hyw)
    | cons z a =>
      obtain ⟨rfl, hnew⟩ := List.cons.inj hab
      rcases horder a x b hnew y hy with hyb | hyw | hyx
      · exact .inl hyb
      · rcases List.mem_cons.1 hyw with rfl | hyw
        · have hxn : x ∈ new := by simp [hnew]
          have hx : x ∈ w'.entered := hperm.mem_iff.2 (List.mem_append_left _ hxn)
          have hxw : x ∉ w.entered := fun hxw =>
            (List.nodup_append.1 (hperm.nodup_iff.1 hnodup)).2.2 x hxn x
              (List.mem_cons_of_mem _ hxw) rfl
          exact .inr (.inr ((hsound x hx).resolve_left hxw))
        · exact .inr (.inl hyw)
      · exact .inr (.inr hyx)

/-! ### The order of visits -/

/-- What entering nodes in turn gives: a node that was seen before is passed over, any other is left
after all that entering its successors leaves. The relation is between the nodes seen before, the
nodes to enter, the nodes seen afterwards and the nodes in the order they are left. -/
inductive Visits (next : α → List α) : List α → List α → List α → List α → Prop
  | done (seen : List α) : Visits next seen [] seen []
  | skip {v : α} {vs seen seen' out : List α} (hseen : v ∈ seen)
    (hrest : Visits next seen vs seen' out) : Visits next seen (v :: vs) seen' out
  | enter {v : α} {vs seen seen₁ seen₂ inner out : List α} (hnew : v ∉ seen)
    (hinner : Visits next (v :: seen) (next v) seen₁ inner)
    (hrest : Visits next seen₁ vs seen₂ out) : Visits next seen (v :: vs) seen₂ (inner ++ v :: out)

theorem Visits.append {seen vs seen₁ out us seen₂ out' : List α} (h : Visits next seen vs seen₁ out)
    (h' : Visits next seen₁ us seen₂ out') : Visits next seen (vs ++ us) seen₂ (out ++ out') := by
  induction h with
  | done seen => exact h'
  | skip hseen _ ih => exact .skip hseen (ih h')
  | enter hnew hinner _ _ ih =>
    rw [List.append_assoc]
    exact .enter hnew hinner (ih h')

theorem Visits.unique {seen vs seen₁ out seen₂ out' : List α} (h : Visits next seen vs seen₁ out)
    (h' : Visits next seen vs seen₂ out') : seen₁ = seen₂ ∧ out = out' := by
  induction h generalizing seen₂ out' with
  | done seen =>
    cases h'
    exact ⟨rfl, rfl⟩
  | skip hseen _ ih =>
    cases h' with
    | skip _ hrest => exact ih hrest
    | enter hnew _ _ => exact absurd hseen hnew
  | enter hnew _ _ ihinner ihrest =>
    cases h' with
    | skip hseen _ => exact absurd hseen hnew
    | enter _ hinner hrest =>
      obtain ⟨rfl, rfl⟩ := ihinner hinner
      obtain ⟨rfl, rfl⟩ := ihrest hrest
      exact ⟨rfl, rfl⟩

theorem onCycle_of_reaches {u v : α} (hne : u ≠ v) (huv : Reaches next u v)
    (hvu : Reaches next v u) : OnCycle next u := by
  rcases Relation.reflTransGen_iff_eq_or_transGen.1 huv with rfl | huv
  · exact absurd rfl hne
  · exact huv.trans_left hvu

theorem lastOfComponents_subset [BEq α] (table : List (α × List α)) (order : List α) :
    lastOfComponents table order ⊆ order := by
  induction order with
  | nil => exact List.nil_subset _
  | cons v later ih =>
    simp only [lastOfComponents]
    split
    · exact fun x hx => List.mem_cons_of_mem _ (ih hx)
    · exact List.cons_subset_cons v ih

section Walk

variable [BEq α] [LawfulBEq α]

theorem grows_visit {nodes : List α} (hclosed : ∀ x ∈ nodes, next x ⊆ nodes) (depth : Nat) (v : α)
    (w : Walk α) (hv : v ∈ nodes) (h : Within nodes w)
    (hdepth : nodes.length + 1 ≤ depth + w.entered.length) :
    Grows next [v] w (visit next depth v w) ∧ (visit next depth v w).entered.Nodup := by
  induction depth generalizing v w with
  | zero =>
    have hle := h.length_le
    omega
  | succ depth ih =>
    simp only [visit]
    split
    · rename_i hmem
      have hmem : v ∈ w.entered := List.contains_iff_mem.1 hmem
      exact ⟨.refl w (List.cons_subset.2 ⟨hmem, List.nil_subset _⟩), h.nodup⟩
    · rename_i hmem
      have hnew : v ∉ w.entered := fun hv => hmem (List.contains_iff_mem.2 hv)
      have hentered : Within nodes { w with entered := v :: w.entered } :=
        ⟨List.nodup_cons.2 ⟨hnew, h.nodup⟩, List.cons_subset.2 ⟨hv, h.subset⟩⟩
      obtain ⟨hgrow, hnodup⟩ := grows_foldl hclosed depth ih (next v)
        { w with entered := v :: w.entered } (hclosed v hv) hentered
        (by simp only [List.length_cons]; omega)
      exact ⟨hgrow.leave hnodup, hnodup⟩

theorem grows_walk {nodes starts : List α} {size : Nat} (hclosed : ∀ x ∈ nodes, next x ⊆ nodes)
    (hs : starts ⊆ nodes) (hsize : nodes.length ≤ size) :
    Grows next starts .start (walk next size starts) ∧ (walk next size starts).entered.Nodup := by
  have hstart : Within nodes (.start : Walk α) := ⟨.nil, List.nil_subset _⟩
  exact grows_foldl hclosed (size + 1) (grows_visit hclosed (size + 1)) starts .start hs hstart
    (by simp only [Walk.start, List.length_nil]; omega)

theorem mem_reachable {nodes starts : List α} {size : Nat} (hclosed : ∀ x ∈ nodes, next x ⊆ nodes)
    (hs : starts ⊆ nodes) (hsize : nodes.length ≤ size) {x : α} :
    x ∈ reachable next size starts ↔ ∃ v ∈ starts, Reaches next v x := by
  obtain ⟨hgrow, _⟩ := grows_walk hclosed hs hsize
  constructor
  · intro hx
    exact (hgrow.sound x hx).resolve_left List.not_mem_nil
  · rintro ⟨v, hv, hvx⟩
    induction hvx with
    | refl => exact hgrow.enters hv
    | tail _ hxy ih => exact (hgrow.closed _ ih).resolve_left List.not_mem_nil hxy

/-! ### The order of leaving -/

theorem visits_foldl {nodes : List α} (hclosed : ∀ x ∈ nodes, next x ⊆ nodes) (depth : Nat)
    (hvisit : ∀ v w, v ∈ nodes → Within nodes w → nodes.length + 1 ≤ depth + w.entered.length →
      ∃ out, Visits next w.entered [v] (visit next depth v w).entered out ∧
        (visit next depth v w).left = out.reverse ++ w.left)
    (starts : List α) (w : Walk α) (hs : starts ⊆ nodes) (h : Within nodes w)
    (hdepth : nodes.length + 1 ≤ depth + w.entered.length) :
    ∃ out, Visits next w.entered starts
        (starts.foldl (fun w v => visit next depth v w) w).entered out ∧
      (starts.foldl (fun w v => visit next depth v w) w).left = out.reverse ++ w.left := by
  induction starts generalizing w with
  | nil => exact ⟨[], .done w.entered, rfl⟩
  | cons v starts ih =>
    have hv := List.cons_subset.1 hs
    have hsub : [v] ⊆ nodes := List.cons_subset.2 ⟨hv.1, List.nil_subset _⟩
    obtain ⟨out, hout, hleft⟩ := hvisit v w hv.1 h hdepth
    obtain ⟨hgrow, hnodup⟩ := grows_visit hclosed depth v w hv.1 h hdepth
    have hle := hgrow.length_le
    obtain ⟨out', hout', hleft'⟩ := ih (visit next depth v w) hv.2
      (h.grow hclosed hsub hgrow hnodup) (by omega)
    refine ⟨out ++ out', hout.append hout', ?_⟩
    rw [List.foldl_cons, hleft', hleft, List.reverse_append, List.append_assoc]

theorem visits_visit {nodes : List α} (hclosed : ∀ x ∈ nodes, next x ⊆ nodes) (depth : Nat) (v : α)
    (w : Walk α) (hv : v ∈ nodes) (h : Within nodes w)
    (hdepth : nodes.length + 1 ≤ depth + w.entered.length) :
    ∃ out, Visits next w.entered [v] (visit next depth v w).entered out ∧
      (visit next depth v w).left = out.reverse ++ w.left := by
  induction depth generalizing v w with
  | zero =>
    have hle := h.length_le
    omega
  | succ depth ih =>
    simp only [visit]
    split
    · rename_i hmem
      exact ⟨[], .skip (List.contains_iff_mem.1 hmem) (.done _), rfl⟩
    · rename_i hmem
      have hnew : v ∉ w.entered := fun hv => hmem (List.contains_iff_mem.2 hv)
      have hentered : Within nodes { w with entered := v :: w.entered } :=
        ⟨List.nodup_cons.2 ⟨hnew, h.nodup⟩, List.cons_subset.2 ⟨hv, h.subset⟩⟩
      obtain ⟨inner, hinner, hleft⟩ := visits_foldl hclosed depth ih (next v)
        { w with entered := v :: w.entered } (hclosed v hv) hentered
        (by simp only [List.length_cons]; omega)
      refine ⟨inner ++ [v], .enter hnew hinner (.done _), ?_⟩
      rw [hleft, List.reverse_append]
      rfl

theorem visits_postorder {nodes starts : List α} {size : Nat}
    (hclosed : ∀ x ∈ nodes, next x ⊆ nodes) (hs : starts ⊆ nodes) (hsize : nodes.length ≤ size) :
    Visits next [] starts (reachable next size starts) (postorder next size starts) := by
  have hstart : Within nodes (.start : Walk α) := ⟨.nil, List.nil_subset _⟩
  obtain ⟨out, hout, hleft⟩ := visits_foldl hclosed (size + 1) (visits_visit hclosed (size + 1))
    starts .start hs hstart (by simp only [Walk.start, List.length_nil]; omega)
  have hpost : postorder next size starts = out := by
    show List.reverse (walk next size starts).left = out
    rw [walk, hleft]
    simp [Walk.start]
  rw [hpost]
  exact hout

theorem mem_postorder {nodes starts : List α} {size : Nat} (hclosed : ∀ x ∈ nodes, next x ⊆ nodes)
    (hs : starts ⊆ nodes) (hsize : nodes.length ≤ size) {x : α} :
    x ∈ postorder next size starts ↔ ∃ v ∈ starts, Reaches next v x := by
  obtain ⟨hgrow, _⟩ := grows_walk hclosed hs hsize
  obtain ⟨new, hleft, hperm, _⟩ := hgrow.left
  rw [← mem_reachable hclosed hs hsize, reachable, hperm.mem_iff, postorder, hleft]
  simp [Walk.start]

theorem nodup_postorder {nodes starts : List α} {size : Nat}
    (hclosed : ∀ x ∈ nodes, next x ⊆ nodes) (hs : starts ⊆ nodes) (hsize : nodes.length ≤ size) :
    (postorder next size starts).Nodup := by
  obtain ⟨hgrow, hnodup⟩ := grows_walk hclosed hs hsize
  obtain ⟨new, hleft, hperm, _⟩ := hgrow.left
  have hnew : (walk next size starts).left.Nodup := by
    rw [hleft]
    exact hperm.nodup_iff.1 hnodup
  exact (List.reverse_perm _).nodup_iff.2 hnew

/-- Without cycles each node is left after all that it leads to. -/
theorem mem_before_of_postorder {nodes starts : List α} {size : Nat}
    (hclosed : ∀ x ∈ nodes, next x ⊆ nodes) (hs : starts ⊆ nodes) (hsize : nodes.length ≤ size)
    (hacyclic : ∀ x ∈ nodes, ¬ OnCycle next x) {a b : List α} {x : α}
    (h : postorder next size starts = a ++ x :: b) : next x ⊆ a := by
  obtain ⟨hgrow, _⟩ := grows_walk hclosed hs hsize
  obtain ⟨new, hleft, _, horder⟩ := hgrow.left
  have hx : x ∈ nodes := by
    have hmem : x ∈ postorder next size starts := by simp [h]
    obtain ⟨v, hv, hvx⟩ := (mem_postorder hclosed hs hsize).1 hmem
    exact mem_of_reaches hclosed (hs hv) hvx
  have hnew : new = b.reverse ++ x :: a.reverse := by
    rw [postorder, hleft] at h
    simpa [Walk.start] using congrArg List.reverse h
  intro y hy
  rcases horder _ _ _ hnew y hy with hya | hys | hyx
  · exact List.mem_reverse.1 hya
  · exact absurd hys List.not_mem_nil
  · exact absurd (TransGen.head' hy hyx) (hacyclic x hx)

/-! ### Cycles -/

theorem lookup_reachTable (nodes : List α) (size : Nat) {v : α} (hv : v ∈ nodes) :
    (nodes.map fun v => (v, reachable next size [v])).lookup v = some (reachable next size [v]) := by
  induction nodes with
  | nil => cases hv
  | cons u nodes ih =>
    rw [List.map_cons, List.lookup_cons]
    by_cases huv : v = u
    · subst huv
      simp
    · have hne : (v == u) = false := beq_eq_false_iff_ne.2 huv
      rw [hne]
      exact ih ((List.mem_cons.1 hv).resolve_left huv)

/-- Two nodes share their cycles when each reaches the other. -/
theorem mem_component {nodes : List α} (hclosed : ∀ x ∈ nodes, next x ⊆ nodes) {u v : α}
    (hv : v ∈ nodes) :
    u ∈ component (reachTable next nodes) v ↔
      u ∈ nodes ∧ Reaches next v u ∧ Reaches next u v := by
  have hreach {x y : α} (hx : x ∈ nodes) :
      y ∈ reachable next nodes.length [x] ↔ Reaches next x y := by
    rw [mem_reachable hclosed (List.cons_subset.2 ⟨hx, List.nil_subset _⟩) (Nat.le_refl _)]
    simp
  simp only [component, reachTable, lookup_reachTable nodes nodes.length hv, Option.getD_some,
    List.mem_map, List.mem_filter, Bool.and_eq_true, List.contains_iff_mem]
  constructor
  · rintro ⟨_, ⟨⟨x, hx, rfl⟩, hvx, hxv⟩, rfl⟩
    exact ⟨hx, (hreach hv).1 hvx, (hreach hx).1 hxv⟩
  · rintro ⟨hu, hvu, huv⟩
    exact ⟨_, ⟨⟨u, hu, rfl⟩, (hreach hv).2 hvu, (hreach hu).2 huv⟩, rfl⟩

theorem component_sublist (nodes : List α) (v : α) :
    (component (reachTable next nodes) v).Sublist nodes := by
  have h := List.filter_sublist (p := fun e : α × List α =>
    (((reachTable next nodes).lookup v).getD []).contains e.1 && e.2.contains v)
    (l := reachTable next nodes)
  simpa [component, reachTable, List.map_map, Function.comp_def] using h.map Prod.fst

theorem nodup_component {nodes : List α} (hnodup : nodes.Nodup) (v : α) :
    (component (reachTable next nodes) v).Nodup :=
  (component_sublist nodes v).nodup hnodup

/-- Every node has a node of its component among those that are left last. -/
theorem exists_lastOfComponents {nodes order : List α} (hclosed : ∀ x ∈ nodes, next x ⊆ nodes)
    (horder : order ⊆ nodes) {v : α} (hv : v ∈ order) :
    ∃ u ∈ lastOfComponents (reachTable next nodes) order,
      Reaches next v u ∧ Reaches next u v := by
  induction order generalizing v with
  | nil => cases hv
  | cons x later ih =>
    have hsub := List.cons_subset.1 horder
    simp only [lastOfComponents]
    rcases List.mem_cons.1 hv with rfl | hv
    · split
      · rename_i hany
        obtain ⟨y, hy, hyx⟩ := List.any_eq_true.1 hany
        obtain ⟨_, hvy, hyv⟩ := (mem_component hclosed hsub.1).1 (List.contains_iff_mem.1 hyx)
        obtain ⟨u, hu, hyu, huy⟩ := ih hsub.2 hy
        exact ⟨u, hu, hvy.trans hyu, huy.trans hyv⟩
      · exact ⟨v, List.mem_cons_self, .refl, .refl⟩
    · obtain ⟨u, hu, hvu⟩ := ih hsub.2 hv
      split
      · exact ⟨u, hu, hvu⟩
      · exact ⟨u, List.mem_cons_of_mem _ hu, hvu⟩

theorem isCycle_component {nodes : List α} (hnodup : nodes.Nodup)
    (hclosed : ∀ x ∈ nodes, next x ⊆ nodes) {v : α} (hv : v ∈ nodes) :
    isCycle next (component (reachTable next nodes) v) = true ↔ OnCycle next v := by
  have hself : v ∈ component (reachTable next nodes) v :=
    (mem_component hclosed hv).2 ⟨hv, .refl, .refl⟩
  have hmem {u : α} (hu : u ∈ component (reachTable next nodes) v) :=
    (mem_component hclosed hv).1 hu
  have hdistinct : (component (reachTable next nodes) v).Nodup := nodup_component hnodup v
  generalize hc : component (reachTable next nodes) v = c at hself hmem hdistinct
  match c with
  | [] => cases hself
  | [u] =>
    obtain rfl := List.mem_singleton.1 hself
    simp only [isCycle, List.contains_iff_mem]
    constructor
    · exact fun h => .single h
    · intro h
      -- the first step of the cycle stays in the component, which is the node alone
      obtain ⟨y, hvy, hyv⟩ := Relation.TransGen.head'_iff.1 h
      have hy : y ∈ component (reachTable next nodes) v :=
        (mem_component hclosed hv).2 ⟨hclosed v hv hvy, .single hvy, hyv⟩
      rw [hc, List.mem_singleton] at hy
      exact hy ▸ hvy
  | a :: b :: c =>
    simp only [isCycle, true_iff]
    have hab : a ≠ b := fun hab =>
      (List.nodup_cons.1 hdistinct).1 (hab ▸ List.mem_cons_self)
    obtain ⟨_, hva, hav⟩ := hmem List.mem_cons_self
    obtain ⟨_, hvb, hbv⟩ := hmem (List.mem_cons_of_mem _ List.mem_cons_self)
    by_cases hva' : v = a
    · exact onCycle_of_reaches (fun h => hab (hva' ▸ h)) hvb hbv
    · exact onCycle_of_reaches hva' hva hav

theorem mem_cycles {nodes c : List α} (h : c ∈ cycles next nodes) : c ≠ [] ∧ c ⊆ nodes := by
  obtain ⟨hc, hcycle⟩ := List.mem_filter.1 h
  obtain ⟨v, _, rfl⟩ := List.mem_map.1 hc
  refine ⟨fun hnil => ?_, (component_sublist nodes v).subset⟩
  rw [hnil] at hcycle
  cases hcycle

/-- A cycle that is found is all that shares its cycles with a node on one. -/
theorem component_of_mem_cycles {nodes c : List α} (hnodup : nodes.Nodup)
    (hclosed : ∀ x ∈ nodes, next x ⊆ nodes) (h : c ∈ cycles next nodes) :
    c.Nodup ∧ ∃ v ∈ nodes, OnCycle next v ∧
      ∀ u, u ∈ c ↔ u ∈ nodes ∧ Reaches next v u ∧ Reaches next u v := by
  obtain ⟨hc, hcycle⟩ := List.mem_filter.1 h
  obtain ⟨v, hlast, rfl⟩ := List.mem_map.1 hc
  have hv : v ∈ nodes := by
    obtain ⟨start, hstart, hreach⟩ := (mem_postorder hclosed (List.Subset.refl _)
      (Nat.le_refl _)).1 (lastOfComponents_subset _ _ hlast)
    exact mem_of_reaches hclosed hstart hreach
  exact ⟨nodup_component hnodup v, v, hv, (isCycle_component hnodup hclosed hv).1 hcycle,
    fun u => mem_component hclosed hv⟩

/-- There are no cycles to find exactly when no node is on a cycle. -/
theorem cycles_eq_nil {nodes : List α} (hnodup : nodes.Nodup)
    (hclosed : ∀ x ∈ nodes, next x ⊆ nodes) :
    cycles next nodes = [] ↔ ∀ v ∈ nodes, ¬ OnCycle next v := by
  have hself : nodes ⊆ nodes := List.Subset.refl _
  have horder : postorder next nodes.length nodes ⊆ nodes := by
    intro x hx
    obtain ⟨v, hv, hvx⟩ := (mem_postorder hclosed hself (Nat.le_refl _)).1 hx
    exact mem_of_reaches hclosed hv hvx
  simp only [cycles, components, List.filter_eq_nil_iff, List.forall_mem_map]
  constructor
  · intro h v hv hcycle
    have hpost : v ∈ postorder next nodes.length nodes :=
      (mem_postorder hclosed hself (Nat.le_refl _)).2 ⟨v, hv, .refl⟩
    obtain ⟨u, hu, hvu, huv⟩ := exists_lastOfComponents hclosed horder hpost
    have hun := horder (lastOfComponents_subset _ _ hu)
    refine h u hu ((isCycle_component hnodup hclosed hun).2 ?_)
    exact (TransGen.trans_right huv hcycle).trans_left hvu
  · intro h u hu hcycle
    have hun := horder (lastOfComponents_subset _ _ hu)
    exact h u hun ((isCycle_component hnodup hclosed hun).1 hcycle)

end Walk

end Schemata.Graph
