import Schemata.Path

/-!
# Laws of paths

A path covers another if it is that path or a directory around it; the paths that cover one path
are a chain. A normal path is a list of names, and the operations are those of lists: joining
appends, covering is being a prefix, and what is seen from a directory is the rest.
-/

namespace Schemata.Path

open Text

/-! ### Covering -/

/-- A text that two texts begin, each followed by a slash: they are equal, or one goes on. -/
theorem eq_or_longer {a b r s : List Char} (h : a ++ '/' :: r = b ++ '/' :: s) :
    a = b ∨ (∃ t, b = a ++ '/' :: t ∧ r = t ++ '/' :: s) ∨
      ∃ t, a = b ++ '/' :: t ∧ s = t ++ '/' :: r := by
  rcases List.append_eq_append_iff.1 h with ⟨t, hb, ht⟩ | ⟨t, ha, ht⟩
  · cases t with
    | nil => exact .inl (by simpa using hb.symm)
    | cons c t =>
      obtain ⟨rfl, hr⟩ := List.cons.inj ht
      exact .inr (.inl ⟨t, hb, hr⟩)
  · cases t with
    | nil => exact .inl (by simpa using ha)
    | cons c t =>
      obtain ⟨rfl, hs⟩ := List.cons.inj ht
      exact .inr (.inr ⟨t, ha, hs⟩)

theorem contains_root {p : String} : contains "." p = true ↔ p ≠ "." := by
  simp [contains]

theorem contains_dir {d : String} (h : d ≠ ".") {p : String} :
    contains d p = true ↔ ∃ rest, p.toList = d.toList ++ '/' :: rest := by
  rw [contains, if_neg h, List.isPrefixOf_iff_prefix]
  exact exists_congr fun rest => by simp [eq_comm]

theorem not_contains_self (p : String) : contains p p = false := by
  by_cases h : p = "."
  · simp [h, contains]
  · refine Bool.eq_false_iff.2 fun hp => ?_
    obtain ⟨rest, hrest⟩ := (contains_dir h).1 hp
    exact absurd (List.self_eq_append_right.1 hrest) (List.cons_ne_nil _ _)

theorem not_contains_dot (d : String) : contains d "." = false := by
  by_cases h : d = "."
  · simp [h, contains]
  · refine Bool.eq_false_iff.2 fun hd => ?_
    obtain ⟨rest, hrest⟩ := (contains_dir h).1 hd
    have hslash : '/' ∈ ['.'] := by
      rw [show ['.'] = _ from hrest]
      simp
    simp at hslash

theorem ne_of_contains {d p : String} (h : contains d p = true) : d ≠ p := by
  rintro rfl
  rw [not_contains_self] at h
  cases h

theorem covers_iff {d p : String} : covers d p = true ↔ d = p ∨ contains d p = true := by
  simp [covers]

theorem contains_iff {d p : String} : contains d p = true ↔ covers d p = true ∧ d ≠ p := by
  rw [covers_iff]
  constructor
  · exact fun h => ⟨.inr h, ne_of_contains h⟩
  · exact fun ⟨h, hne⟩ => h.resolve_left hne

theorem covers_of_contains {d p : String} (h : contains d p = true) : covers d p = true :=
  covers_iff.2 (.inr h)

@[simp] theorem covers_self (p : String) : covers p p = true := covers_iff.2 (.inl rfl)

@[simp] theorem root_covers (p : String) : covers "." p = true := by
  by_cases h : p = "."
  · rw [h, covers_self]
  · exact covers_of_contains (contains_root.2 h)

theorem covers_dot {d : String} : covers d "." = true ↔ d = "." := by
  rw [covers_iff, not_contains_dot]
  simp

theorem covers_trans {a b c : String} (hab : covers a b = true) (hbc : covers b c = true) :
    covers a c = true := by
  by_cases ha : a = "."
  · rw [ha, root_covers]
  rcases covers_iff.1 hab with rfl | hab
  · exact hbc
  rcases covers_iff.1 hbc with rfl | hbc
  · exact covers_of_contains hab
  obtain ⟨r, hr⟩ := (contains_dir ha).1 hab
  have hb : b ≠ "." := by
    rintro rfl
    rw [not_contains_dot] at hab
    cases hab
  obtain ⟨s, hs⟩ := (contains_dir hb).1 hbc
  refine covers_of_contains ((contains_dir ha).2 ⟨r ++ '/' :: s, ?_⟩)
  rw [hs, hr]
  simp

theorem covers_antisymm {a b : String} (hab : covers a b = true) (hba : covers b a = true) :
    a = b := by
  rcases covers_iff.1 hab with rfl | hab
  · rfl
  rcases covers_iff.1 hba with rfl | hba
  · rfl
  have ha : a ≠ "." := by
    rintro rfl
    rw [not_contains_dot] at hba
    cases hba
  have hb : b ≠ "." := by
    rintro rfl
    rw [not_contains_dot] at hab
    cases hab
  obtain ⟨r, hr⟩ := (contains_dir ha).1 hab
  obtain ⟨s, hs⟩ := (contains_dir hb).1 hba
  have hlength := congrArg List.length hr
  rw [hs] at hlength
  simp only [List.length_append, List.length_cons] at hlength
  omega

/-- Of two paths around one path, one is around the other. -/
theorem covers_or_covers {a b c : String} (hac : covers a c = true) (hbc : covers b c = true) :
    covers a b = true ∨ covers b a = true := by
  by_cases ha : a = "."
  · exact .inl (ha ▸ root_covers b)
  by_cases hb : b = "."
  · exact .inr (hb ▸ root_covers a)
  rcases covers_iff.1 hac with rfl | hac'
  · exact .inr hbc
  rcases covers_iff.1 hbc with rfl | hbc'
  · exact .inl hac
  obtain ⟨r, hr⟩ := (contains_dir ha).1 hac'
  obtain ⟨s, hs⟩ := (contains_dir hb).1 hbc'
  rcases eq_or_longer (hr.symm.trans hs) with heq | ⟨t, ht, _⟩ | ⟨t, ht, _⟩
  · exact .inl (covers_iff.2 (.inl (String.toList_inj.1 heq)))
  · exact .inl (covers_of_contains ((contains_dir ha).2 ⟨t, ht⟩))
  · exact .inr (covers_of_contains ((contains_dir hb).2 ⟨t, ht⟩))

theorem contains_or_covers {a b c : String} (hac : covers a c = true) (hbc : covers b c = true) :
    contains a b = true ∨ covers b a = true := by
  rcases covers_or_covers hac hbc with h | h
  · by_cases heq : a = b
    · exact .inr (heq ▸ covers_self a)
    · exact .inl (contains_iff.2 ⟨h, heq⟩)
  · exact .inr h

theorem contains_of_contains_covers {a b c : String} (hab : contains a b = true)
    (hbc : covers b c = true) : contains a c = true := by
  refine contains_iff.2 ⟨covers_trans (covers_of_contains hab) hbc, ?_⟩
  rintro rfl
  exact ne_of_contains hab (covers_antisymm (covers_of_contains hab) hbc)

theorem contains_of_covers_contains {a b c : String} (hab : covers a b = true)
    (hbc : contains b c = true) : contains a c = true := by
  refine contains_iff.2 ⟨covers_trans hab (covers_of_contains hbc), ?_⟩
  rintro rfl
  exact ne_of_contains hbc (covers_antisymm (covers_of_contains hbc) hab)

/-! ### Ancestors -/

theorem covers_of_cutLast {p path : String} {before after : List Char}
    (h : cutLast '/' path.toList = some (before, after)) :
    covers p path = true ↔ p = path ∨ covers p (String.ofList before) = true := by
  obtain ⟨hpath, hafter⟩ := cutLast_eq_some.1 h
  by_cases hp : p = "."
  · simp [hp]
  rw [covers_iff, covers_iff, contains_dir hp, contains_dir hp, String.toList_ofList, hpath]
  refine or_congr_right ⟨?_, ?_⟩
  · rintro ⟨rest, hrest⟩
    -- the cut is at the last slash, so a slash that follows `p` stands there or before
    rcases eq_or_longer hrest with rfl | ⟨t, _, ht⟩ | ⟨t, ht, _⟩
    · exact .inl (by simp)
    · exact absurd (ht ▸ List.mem_append_right t List.mem_cons_self) hafter
    · exact .inr ⟨t, ht⟩
  · rintro (rfl | ⟨rest, rfl⟩)
    · exact ⟨after, by simp⟩
    · exact ⟨rest ++ '/' :: after, by simp⟩

theorem covers_of_not_mem {p path : String} (h : '/' ∉ path.toList) :
    covers p path = true ↔ p = path ∨ p = "." := by
  by_cases hp : p = "."
  · simp [hp]
  rw [covers_iff, contains_dir hp]
  refine or_congr_right ⟨?_, fun hdot => absurd hdot hp⟩
  rintro ⟨rest, hrest⟩
  rw [hrest] at h
  simp at h

theorem mem_ancestors {p path : String} : p ∈ ancestors path ↔ covers p path = true := by
  induction path using ancestors.induct with
  | case1 =>
    rw [ancestors, if_pos rfl, covers_dot, List.mem_singleton]
  | case2 path hpath before after hcut ih =>
    rw [ancestors, if_neg hpath, covers_of_cutLast hcut, ← ih]
    split
    · rename_i before' after' hcut'
      cases hcut.symm.trans hcut'
      exact List.mem_cons
    · rename_i hnone
      cases hcut.symm.trans hnone
  | case3 path hpath hcut =>
    rw [ancestors, if_neg hpath, covers_of_not_mem (cutLast_eq_none.1 hcut)]
    split
    · rename_i before' after' hcut'
      cases hcut.symm.trans hcut'
    · simp

theorem coveredBy_iff {set : List String} {path : String} :
    coveredBy set path = true ↔ ∃ p ∈ set, covers p path = true := by
  rw [coveredBy, List.any_eq_true]
  constructor
  · rintro ⟨p, hp, hset⟩
    exact ⟨p, List.contains_iff_mem.1 hset, mem_ancestors.1 hp⟩
  · rintro ⟨p, hset, hp⟩
    exact ⟨p, mem_ancestors.2 hp, List.contains_iff_mem.2 hset⟩

/-! ### Normal paths -/

/-- Whether a component of a path is a name. -/
def IsName (c : List Char) : Prop :=
  c ≠ [] ∧ c ≠ ['.'] ∧ c ≠ ['.', '.'] ∧ '/' ∉ c ∧ '\\' ∉ c

instance (c : List Char) : Decidable (IsName c) := inferInstanceAs (Decidable (_ ∧ _))

/-- Whether all components of a path are names. -/
def IsNormal (p : String) : Prop := ∀ c ∈ components p, IsName c

instance (p : String) : Decidable (IsNormal p) := inferInstanceAs (Decidable (∀ c ∈ _, _))

theorem components_root : components "." = [] := rfl

theorem isNormal_root : IsNormal "." := fun _ hc => absurd hc List.not_mem_nil

theorem components_of_ne {p : String} (h : p ≠ ".") : components p = p.toList.splitOn '/' :=
  if_neg h

theorem components_eq_nil {p : String} : components p = [] ↔ p = "." := by
  constructor
  · intro hnil
    refine Decidable.byContradiction fun h => ?_
    rw [components_of_ne h] at hnil
    exact List.splitOn_ne_nil _ _ hnil
  · rintro rfl
    rfl

theorem ofComponents_of_ne {cs : List (List Char)} (h : cs ≠ []) :
    ofComponents cs = String.ofList (List.intercalate ['/'] cs) := by
  cases cs with
  | nil => exact absurd rfl h
  | cons c cs => rfl

theorem ofComponents_components (p : String) : ofComponents (components p) = p := by
  by_cases h : p = "."
  · rw [h]
    rfl
  · rw [components_of_ne h, ofComponents_of_ne (List.splitOn_ne_nil _ _),
      List.intercalate_splitOn, String.ofList_toList]

theorem components_ofComponents {cs : List (List Char)} (h : ∀ c ∈ cs, IsName c) :
    components (ofComponents cs) = cs := by
  by_cases hnil : cs = []
  · rw [hnil]
    rfl
  · have hsplit : (List.intercalate ['/'] cs).splitOn '/' = cs :=
      List.splitOn_intercalate _ (fun c hc => (h c hc).2.2.2.1) hnil
    have hdot : ofComponents cs ≠ "." := by
      intro hdot
      rw [ofComponents_of_ne hnil] at hdot
      have htext : List.intercalate ['/'] cs = ['.'] := by
        simpa using congrArg String.toList hdot
      rw [htext] at hsplit
      exact (h ['.'] (hsplit ▸ List.mem_singleton_self _)).2.1 rfl
    rw [components_of_ne hdot, ofComponents_of_ne hnil, String.toList_ofList, hsplit]

theorem isNormal_ofComponents {cs : List (List Char)} (h : ∀ c ∈ cs, IsName c) :
    IsNormal (ofComponents cs) := by
  rw [IsNormal, components_ofComponents h]
  exact h

theorem components_inj {a b : String} (h : components a = components b) : a = b := by
  rw [← ofComponents_components a, h, ofComponents_components]

/-! ### Normal forms -/

theorem walk_names {cs stack names : List (List Char)} (hstack : ∀ c ∈ stack, IsName c)
    (hcs : ∀ c ∈ cs, '/' ∉ c ∧ '\\' ∉ c) (h : walk stack cs = some names) :
    ∀ c ∈ names, IsName c := by
  induction cs generalizing stack with
  | nil =>
    rw [walk] at h
    cases h
    exact fun c hc => hstack c (List.mem_reverse.1 hc)
  | cons c cs ih =>
    obtain ⟨hc, hrest⟩ := List.forall_mem_cons.1 hcs
    simp only [walk] at h
    split at h
    · exact ih hstack hrest h
    · rename_i hstay
      split at h
      · cases stack with
        | nil => cases h
        | cons top below => exact ih (List.forall_mem_cons.1 hstack).2 hrest h
      · rename_i hback
        have hname : IsName c := ⟨fun hc => hstay (.inl hc), fun hc => hstay (.inr hc), hback, hc⟩
        exact ih (List.forall_mem_cons.2 ⟨hname, hstack⟩) hrest h

theorem walk_of_names {cs stack : List (List Char)} (h : ∀ c ∈ cs, IsName c) :
    walk stack cs = some (stack.reverse ++ cs) := by
  induction cs generalizing stack with
  | nil => simp [walk]
  | cons c cs ih =>
    obtain ⟨hc, hrest⟩ := List.forall_mem_cons.1 h
    simp only [walk]
    rw [if_neg (fun hstay => hstay.elim hc.1 hc.2.1), if_neg hc.2.2.1, ih hrest]
    simp

theorem of_mem_splitOn {s c : List Char} (h : c ∈ s.splitOn '/') : '/' ∉ c ∧ c ⊆ s := by
  induction s generalizing c with
  | nil =>
    rw [List.splitOn_nil, List.mem_singleton] at h
    simp [h]
  | cons x s ih =>
    rw [List.splitOn_cons_eq_if_modifyHead] at h
    split at h
    · rcases List.mem_cons.1 h with rfl | h
      · simp
      · exact ⟨(ih h).1, List.subset_cons_of_subset _ (ih h).2⟩
    · rename_i hx
      obtain ⟨first, rest, hsplit⟩ := List.exists_cons_of_ne_nil (List.splitOn_ne_nil '/' s)
      rw [hsplit, List.modifyHead_cons] at h
      rcases List.mem_cons.1 h with rfl | h
      · obtain ⟨hslash, hsub⟩ := ih (hsplit ▸ List.mem_cons_self)
        have hne : '/' ≠ x := fun heq => hx (beq_iff_eq.2 heq.symm)
        exact ⟨by simp [hne, hslash], List.cons_subset_cons x hsub⟩
      · obtain ⟨hslash, hsub⟩ := ih (hsplit ▸ List.mem_cons_of_mem first h)
        exact ⟨hslash, List.subset_cons_of_subset _ hsub⟩

theorem backslash_not_mem_unified (p : String) : '\\' ∉ unified p := by
  simp only [unified, List.mem_map, not_exists, not_and]
  intro c _ hc
  split at hc
  · exact absurd hc (by decide)
  · rename_i hne
    exact hne hc

theorem isNormal_of_normalize {p q : String} (h : normalize p = .ok q) : IsNormal q := by
  unfold normalize at h
  split at h
  · cases h
  · cases h
  · split at h
    · cases h
    · rename_i names hwalk
      cases h
      refine isNormal_ofComponents (walk_names (List.forall_mem_nil _) (fun c hc => ?_) hwalk)
      obtain ⟨hslash, hsub⟩ := of_mem_splitOn hc
      exact ⟨hslash, fun hback => backslash_not_mem_unified p (hsub hback)⟩

theorem mem_splitOn_of_mem {s : List Char} {x : Char} (hx : x ∈ s) (hslash : x ≠ '/') :
    ∃ c ∈ s.splitOn '/', x ∈ c := by
  induction s with
  | nil => cases hx
  | cons y s ih =>
    obtain ⟨first, rest, hsplit⟩ := List.exists_cons_of_ne_nil (List.splitOn_ne_nil '/' s)
    rw [List.splitOn_cons_eq_if_modifyHead, hsplit, List.modifyHead_cons]
    rcases List.mem_cons.1 hx with rfl | hx
    · rw [if_neg (by simpa using hslash)]
      exact ⟨_, List.mem_cons_self, List.mem_cons_self⟩
    · obtain ⟨c, hc, hxc⟩ := ih hx
      rw [hsplit] at hc
      split
      · exact ⟨c, List.mem_cons_of_mem _ hc, hxc⟩
      · rcases List.mem_cons.1 hc with rfl | hc
        · exact ⟨_, List.mem_cons_self, List.mem_cons_of_mem _ hxc⟩
        · exact ⟨c, List.mem_cons_of_mem _ hc, hxc⟩

theorem IsNormal.unified_eq {p : String} (h : IsNormal p) (hp : p ≠ ".") :
    unified p = p.toList := by
  rw [IsNormal, components_of_ne hp] at h
  refine (List.map_congr_left (g := id) fun x hx => ?_).trans (List.map_id _)
  split
  · rename_i hback
    obtain ⟨c, hc, hxc⟩ := mem_splitOn_of_mem hx (hback ▸ by decide)
    exact absurd (hback ▸ hxc) (h c hc).2.2.2.2
  · rfl

theorem IsNormal.normalize_eq {p : String} (h : IsNormal p) : normalize p = .ok p := by
  by_cases hp : p = "."
  · rw [hp]
    rfl
  have hnames := h
  rw [IsNormal, components_of_ne hp] at hnames
  unfold normalize
  rw [h.unified_eq hp]
  split
  · rename_i hnil
    rw [hnil, List.splitOn_nil] at hnames
    exact absurd rfl (hnames [] (List.mem_singleton_self _)).1
  · rename_i rest hcons
    rw [hcons, List.splitOn_cons_eq_if_modifyHead, if_pos (beq_self_eq_true _)] at hnames
    exact absurd rfl (hnames [] List.mem_cons_self).1
  · rw [walk_of_names hnames, ← components_of_ne hp]
    exact congrArg Except.ok (ofComponents_components p)

theorem isNormal_iff {p : String} : IsNormal p ↔ normalize p = .ok p :=
  ⟨IsNormal.normalize_eq, isNormal_of_normalize⟩

theorem validateObject_eq_ok {p : String} :
    validateObject p = .ok () ↔ IsNormal p ∧ p ≠ "." := by
  unfold validateObject
  cases hnormal : normalize p with
  | error e =>
    refine iff_of_false (fun h => by cases h) fun h => ?_
    cases h.1.normalize_eq.symm.trans hnormal
  | ok q =>
    have hq := isNormal_of_normalize hnormal
    rw [isNormal_iff, hnormal, Except.ok.injEq]
    by_cases hroot : q = "."
    · subst hroot
      refine iff_of_false (fun h => by cases h) fun h => h.2 h.1.symm
    · by_cases hsame : q = p
      · subst hsame
        simp [hroot, bind, Except.bind, pure, Except.pure]
      · refine iff_of_false (fun h => ?_) fun h => hsame h.1
        simp [hroot, hsame, bind, Except.bind] at h

/-! ### Joining -/

@[simp] theorem root_join (p : String) : join "." p = p := by simp [join]

theorem IsNormal.ne_empty {p : String} (h : IsNormal p) : p ≠ "" := by
  rintro rfl
  exact (h [] (by decide)).1 rfl

theorem IsNormal.join_root {p : String} (h : IsNormal p) : join p "." = p := by
  by_cases hp : p = "."
  · rw [hp, root_join]
  · simp [join, hp, h.ne_empty]

variable {a b c p : String}

theorem toList_join (ha : IsNormal a) (hb : IsNormal b) (har : a ≠ ".") (hbr : b ≠ ".") :
    (join a b).toList = a.toList ++ '/' :: b.toList := by
  simp [join, har, hbr, ha.ne_empty, hb.ne_empty]

theorem components_join (ha : IsNormal a) (hb : IsNormal b) :
    components (join a b) = components a ++ components b := by
  by_cases har : a = "."
  · rw [har, root_join, components_root, List.nil_append]
  by_cases hbr : b = "."
  · rw [hbr, ha.join_root, components_root, List.append_nil]
  have htext := toList_join ha hb har hbr
  have hne : join a b ≠ "." := by
    intro hdot
    rw [hdot] at htext
    have hslash : '/' ∈ ['.'] := by
      rw [show ['.'] = _ from htext]
      simp
    simp at hslash
  rw [components_of_ne hne, htext, List.splitOn_append_cons_self, components_of_ne har,
    components_of_ne hbr]

theorem IsNormal.join (ha : IsNormal a) (hb : IsNormal b) : IsNormal (join a b) := by
  rw [IsNormal, components_join ha hb]
  exact List.forall_mem_append.2 ⟨ha, hb⟩

theorem toList_join_of_ne {rest : String} (ha : ¬(a = "." ∨ a = "")) (hempty : rest ≠ "")
    (hroot : rest ≠ ".") : (join a rest).toList = a.toList ++ '/' :: rest.toList := by
  rw [join, if_neg ha, if_neg (by simp [hempty, hroot])]
  simp

/-- Only the root and no path at all, below the root, give one of them. -/
theorem join_ne_of_ne {rest : String} (hempty : rest ≠ "") (hroot : rest ≠ ".") :
    join a rest ≠ "" ∧ join a rest ≠ "." := by
  by_cases ha : a = "." ∨ a = ""
  · rw [join, if_pos ha]
    exact ⟨hempty, hroot⟩
  · have htext := toList_join_of_ne ha hempty hroot
    have hslash : '/' ∈ (join a rest).toList := by
      rw [htext]
      simp
    constructor
    · intro heq
      rw [heq] at hslash
      exact absurd hslash (by decide)
    · intro heq
      rw [heq] at hslash
      exact absurd hslash (by decide)

/-- What a normal path goes on with below a directory is normal, unless it is the directory. -/
theorem IsNormal.of_join {rest : String} (hempty : rest ≠ "") (hroot : rest ≠ ".")
    (h : IsNormal (Path.join a rest)) : IsNormal rest := by
  by_cases ha : a = "." ∨ a = ""
  · rwa [Path.join, if_pos ha] at h
  · rw [IsNormal, components_of_ne (join_ne_of_ne hempty hroot).2,
      toList_join_of_ne ha hempty hroot, List.splitOn_append_cons_self] at h
    rw [IsNormal, components_of_ne hroot]
    exact fun c hc => h c (List.mem_append_right _ hc)

theorem join_assoc (ha : IsNormal a) (hb : IsNormal b) (hc : IsNormal c) :
    join (join a b) c = join a (join b c) := by
  refine components_inj ?_
  rw [components_join (ha.join hb) hc, components_join ha hb, components_join ha (hb.join hc),
    components_join hb hc, List.append_assoc]

theorem join_inj (ha : IsNormal a) (hb : IsNormal b) (hc : IsNormal c)
    (h : join a b = join a c) : b = c := by
  have hcomponents := congrArg components h
  rw [components_join ha hb, components_join ha hc] at hcomponents
  exact components_inj (List.append_cancel_left hcomponents)

theorem join_ne_root (ha : IsNormal a) (hb : IsNormal b) (hbr : b ≠ ".") : join a b ≠ "." := by
  intro h
  have hcomponents := components_eq_nil.2 h
  rw [components_join ha hb] at hcomponents
  exact hbr (components_eq_nil.1 (List.append_eq_nil_iff.1 hcomponents).2)

theorem contains_join (ha : IsNormal a) (hb : IsNormal b) (hbr : b ≠ ".") :
    contains a (join a b) = true := by
  by_cases har : a = "."
  · rw [har, root_join]
    exact contains_root.2 hbr
  · exact (contains_dir har).2 ⟨_, toList_join ha hb har hbr⟩

theorem covers_join (ha : IsNormal a) (hb : IsNormal b) : covers a (join a b) = true := by
  by_cases hbr : b = "."
  · rw [hbr, ha.join_root, covers_self]
  · exact covers_of_contains (contains_join ha hb hbr)

theorem covers_iff_components (ha : IsNormal a) (hb : IsNormal b) :
    covers a b = true ↔ components a <+: components b := by
  constructor
  · intro h
    by_cases har : a = "."
    · rw [har, components_root]
      exact List.nil_prefix
    rcases covers_iff.1 h with rfl | h
    · exact List.prefix_rfl
    · obtain ⟨rest, hrest⟩ := (contains_dir har).1 h
      have hbr : b ≠ "." := by
        rintro rfl
        rw [not_contains_dot] at h
        cases h
      rw [components_of_ne har, components_of_ne hbr, hrest, List.splitOn_append_cons_self]
      exact List.prefix_append _ _
  · rintro ⟨rest, hrest⟩
    have hnames : ∀ c ∈ rest, IsName c := fun c hc => hb c (hrest ▸ List.mem_append_right _ hc)
    have heq : b = join a (ofComponents rest) := components_inj <| by
      rw [components_join ha (isNormal_ofComponents hnames), components_ofComponents hnames, hrest]
    rw [heq]
    exact covers_join ha (isNormal_ofComponents hnames)

theorem IsNormal.of_covers (hb : IsNormal b) (h : covers a b = true) : IsNormal a := by
  by_cases har : a = "."
  · exact har ▸ isNormal_root
  rcases covers_iff.1 h with rfl | h
  · exact hb
  obtain ⟨rest, hrest⟩ := (contains_dir har).1 h
  have hbr : b ≠ "." := by
    rintro rfl
    rw [not_contains_dot] at h
    cases h
  intro c hc
  rw [components_of_ne har] at hc
  rw [IsNormal, components_of_ne hbr, hrest, List.splitOn_append_cons_self] at hb
  exact hb c (List.mem_append_left _ hc)

theorem exists_join (ha : IsNormal a) (hb : IsNormal b) (h : covers a b = true) :
    ∃ r, IsNormal r ∧ b = join a r := by
  obtain ⟨rest, hrest⟩ := (covers_iff_components ha hb).1 h
  have hnames : ∀ c ∈ rest, IsName c := fun c hc => hb c (hrest ▸ List.mem_append_right _ hc)
  refine ⟨ofComponents rest, isNormal_ofComponents hnames, components_inj ?_⟩
  rw [components_join ha (isNormal_ofComponents hnames), components_ofComponents hnames, hrest]

theorem covers_join_join (ha : IsNormal a) (hb : IsNormal b) (hc : IsNormal c) :
    covers (join a b) (join a c) = true ↔ covers b c = true := by
  rw [covers_iff_components (ha.join hb) (ha.join hc), components_join ha hb, components_join ha hc,
    covers_iff_components hb hc, List.prefix_append_right_inj]

theorem contains_join_join (ha : IsNormal a) (hb : IsNormal b) (hc : IsNormal c) :
    contains (join a b) (join a c) = true ↔ contains b c = true := by
  rw [contains_iff, contains_iff, covers_join_join ha hb hc]
  refine and_congr_right fun _ => not_congr ⟨join_inj ha hb hc, fun h => h ▸ rfl⟩

theorem relative_join (ha : IsNormal a) (hb : IsNormal b) : relative a (join a b) = .ok b := by
  by_cases hbr : b = "."
  · rw [hbr, ha.join_root, relative, if_pos rfl]
  have hcontains := contains_join ha hb hbr
  rw [relative, if_neg (ne_of_contains hcontains)]
  by_cases har : a = "."
  · rw [if_pos har, har, root_join]
  · rw [if_neg har, if_pos hcontains, toList_join ha hb har hbr]
    simp

theorem relative_eq_ok (ha : IsNormal a) (hp : IsNormal p) :
    relative a p = .ok b ↔ IsNormal b ∧ p = join a b := by
  constructor
  · intro h
    have hcovers : covers a p = true := by
      unfold relative at h
      split at h
      · rename_i heq
        exact heq ▸ covers_self a
      · split at h
        · rename_i hroot
          exact hroot ▸ root_covers p
        · split at h
          · rename_i hin
            exact covers_of_contains hin
          · cases h
    obtain ⟨r, hr, rfl⟩ := exists_join ha hp hcovers
    rw [relative_join ha hr] at h
    cases h
    exact ⟨hr, rfl⟩
  · rintro ⟨hb, rfl⟩
    exact relative_join ha hb

theorem covers_parent (p : String) : covers (parent p) p = true := by
  unfold parent
  cases hcut : cutLast '/' p.toList with
  | none => exact root_covers p
  | some parts => exact (covers_of_cutLast hcut).2 (.inr (covers_self _))

/-! ### Separate directories -/

/-- Directories of which none lies in another. -/
structure Separate (dirs : List String) : Prop where
  normal : ∀ dir ∈ dirs, IsNormal dir
  apart : ∀ a ∈ dirs, ∀ b ∈ dirs, covers a b = true → a = b

theorem separate_singleton (h : IsNormal a) : Separate [a] := by
  constructor
  · simpa using h
  · intro x hx y hy _
    rw [List.mem_singleton.1 hx, List.mem_singleton.1 hy]

theorem Separate.eq_of_covers {dirs : List String} (h : Separate dirs) (ha : a ∈ dirs)
    (hb : b ∈ dirs) (hap : covers a p = true) (hbp : covers b p = true) : a = b := by
  rcases covers_or_covers hap hbp with hab | hba
  · exact h.apart a ha b hb hab
  · exact (h.apart b hb a ha hba).symm

/-! ### Extensions -/

theorem lastName_join (ha : IsNormal a) (hb : IsNormal b) (hbr : b ≠ ".") :
    lastName (join a b) = lastName b := by
  by_cases har : a = "."
  · rw [har, root_join]
  have htext := toList_join ha hb har hbr
  unfold lastName
  rw [htext]
  cases hcut : cutLast '/' b.toList with
  | none =>
    have hb' : cutLast '/' (a.toList ++ '/' :: b.toList) = some (a.toList, b.toList) :=
      cutLast_eq_some.2 ⟨rfl, cutLast_eq_none.1 hcut⟩
    rw [hb']
    simp
  | some parts =>
    obtain ⟨before, after⟩ := parts
    obtain ⟨hsplit, hafter⟩ := cutLast_eq_some.1 hcut
    have hb' : cutLast '/' (a.toList ++ '/' :: b.toList) =
        some (a.toList ++ '/' :: before, after) := cutLast_eq_some.2 ⟨by simp [hsplit], hafter⟩
    rw [hb']

theorem extension_join (ha : IsNormal a) (hb : IsNormal b) (hbr : b ≠ ".") :
    extension (join a b) = extension b := by
  rw [extension, extension, lastName_join ha hb hbr]

end Schemata.Path
