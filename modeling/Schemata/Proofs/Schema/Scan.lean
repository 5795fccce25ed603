import Schemata.Proofs.Schema.Recognition
import Schemata.Schema.Scan

/-!
# What a quick look sees of the imports

A quick look at the tokens of a file sees every import that reading the file gives, in the same
order, whatever else is wrong in the file. It may see more: reading leaves out what it skips.
-/

namespace Schemata.Schema

open Source

variable {s : Cursor}

/-! ### Imports among tokens -/

theorem importsAmong_cons {t : Token} {ts : List Token} (h : t.kind ≠ .keyword .importWord) :
    importsAmong (t :: ts) = importsAmong ts := by
  rw [importsAmong.eq_def]
  simp only [h, if_false]

theorem importsAmong_import {t p : Token} {ts : List Token} (ht : t.kind = .keyword .importWord)
    (hp : p.kind = .string) : importsAmong (t :: p :: ts) = unquote p.text :: importsAmong ts := by
  rw [importsAmong.eq_def]
  cases ts with
  | nil => simp [ht, hp, importsAmong]
  | cons q ts => simp [ht, hp]

theorem importsAmong_publicImport {t p q : Token} {ts : List Token}
    (ht : t.kind = .keyword .importWord) (hp : p.kind = .keyword .publicWord)
    (hq : q.kind = .string) :
    importsAmong (t :: p :: q :: ts) = unquote q.text :: importsAmong ts := by
  rw [importsAmong.eq_def]
  simp [ht, hp, hq]

/-- Without its first token, tokens show no import that they do not show with it. -/
theorem sublist_importsAmong_cons (t : Token) (ts : List Token) :
    (importsAmong ts).Sublist (importsAmong (t :: ts)) := by
  by_cases ht : t.kind = .keyword .importWord
  · match ts with
    | [] => simp [importsAmong]
    | [p] =>
      by_cases hp : p.kind = .string
      · rw [importsAmong_import ht hp, importsAmong_cons (by rw [hp]; decide)]
        exact List.sublist_cons_self _ _
      · simp [importsAmong, ht, hp]
    | p :: q :: rest =>
      by_cases hp : p.kind = .keyword .publicWord
      · rw [importsAmong_cons (t := p) (by rw [hp]; decide)]
        by_cases hq : q.kind = .string
        · rw [importsAmong_publicImport ht hp hq, importsAmong_cons (by rw [hq]; decide)]
          exact List.sublist_cons_self _ _
        · rw [importsAmong.eq_def (t :: p :: q :: rest)]
          simp [ht, hp, hq]
      · by_cases hp' : p.kind = .string
        · rw [importsAmong_import ht hp', importsAmong_cons (by rw [hp']; decide)]
          exact List.sublist_cons_self _ _
        · rw [importsAmong.eq_def (t :: p :: q :: rest)]
          simp [ht, hp, hp']
  · rw [importsAmong_cons ht]

theorem sublist_importsAmong_of_suffix {ts us : List Token} (h : ts <:+ us) :
    (importsAmong ts).Sublist (importsAmong us) := by
  obtain ⟨before, rfl⟩ := h
  induction before with
  | nil => exact List.Sublist.refl _
  | cons t before ih => exact ih.trans (sublist_importsAmong_cons t (before ++ ts))

/-! ### Imports that are read -/

/-- Whether a step that gives a file keeps the imports in sight: what it adds to those of another
file is seen among the tokens that it takes. -/
def Cursor.SeesImports (s : Cursor) (f : Step File) (file : File) : Prop :=
  ∃ new, (f s).1.imports = new ++ file.imports ∧
    ((new.map Import.path).reverse ++ importsAmong (f s).2.rest).Sublist (importsAmong s.rest)

theorem seesImports_of_before {f : Step File} {file : File} (h : s.Before (f s).2)
    (himports : (f s).1.imports = file.imports) : s.SeesImports f file :=
  ⟨[], himports, sublist_importsAmong_of_suffix h.rest⟩

theorem seesImports_get {k : Cursor → Step File} {file : File} (h : s.SeesImports (k s) file) :
    s.SeesImports (get >>= k) file :=
  h

theorem expectString_eq_some {path : String} {s' : Cursor} (h : expectString s = (some path, s')) :
    ∃ t, s.rest = t :: s'.rest ∧ t.kind = .string ∧ path = unquote t.text := by
  by_cases hs : s.kind = .string
  · have hrun : expectString s = (some (unquote s.text), s.advance) :=
      (run_bind_of rfl).trans (by rw [if_pos hs]; rfl)
    cases hrun.symm.trans h
    obtain ⟨t, hrest, hkind, htext⟩ := exists_token hs (by decide)
    exact ⟨t, hrest, hkind, by rw [htext]⟩
  · have hrun : expectString s = (none, (complain "string" s).2) :=
      (run_bind_of rfl).trans (by rw [if_neg hs]; rfl)
    cases hrun.symm.trans h

/-- An import statement that is read stands among the tokens, though what follows its path may be
missing. -/
theorem parseImport_eq_some {d : Import} {s' : Cursor} (hs : s.kind = .keyword .importWord)
    (h : parseImport s = (some d, s')) :
    (d.path :: importsAmong s'.rest).Sublist (importsAmong s.rest) := by
  obtain ⟨word, hword, hwordKind, _⟩ := exists_token hs (by decide)
  rw [hword]
  obtain ⟨isPublic, s₂, heat⟩ : ∃ isPublic s₂, eat (.keyword .publicWord) s.advance = (isPublic, s₂) :=
    ⟨_, _, rfl⟩
  obtain ⟨path, s₃, hstring⟩ : ∃ path s₃, expectString s₂ = (path, s₃) := ⟨_, _, rfl⟩
  rw [parseImport, run_bind_of (f := get) rfl, run_bind_of (f := modify Cursor.advance) rfl,
    run_bind_of heat, run_bind_of hstring] at h
  cases path with
  | none => cases h
  | some path =>
    cases h
    obtain ⟨string, htoken, hstringKind, rfl⟩ := expectString_eq_some hstring
    have hrest : (importsAmong (expect .semicolon s₃).2.rest).Sublist (importsAmong s₃.rest) :=
      sublist_importsAmong_of_suffix (reads_expect (by decide)).before.rest
    rw [eat_eq] at heat
    split at heat
    · rename_i hpublic
      cases heat
      obtain ⟨public', hpublicRest, hpublicKind, _⟩ := exists_token hpublic (by decide)
      rw [hpublicRest, htoken, importsAmong_publicImport hwordKind hpublicKind hstringKind]
      exact hrest.cons_cons _
    · cases heat
      rw [htoken, importsAmong_import hwordKind hstringKind]
      exact hrest.cons_cons _

theorem imports_fileSyntax (first : Bool) (file : File) (s : Cursor) :
    (fileSyntax first file s).1.imports = file.imports := by
  cases hrun : parseSyntax s with
  | mk decl s' =>
    rw [fileSyntax, run_bind_of hrun]
    cases decl with
    | none => rfl
    | some decl => cases first <;> rfl

theorem imports_filePackage (file : File) (s : Cursor) :
    (filePackage file s).1.imports = file.imports := by
  cases hrun : parsePackage s with
  | mk decl s' =>
    rw [filePackage, run_bind_of hrun]
    cases decl with
    | none => rfl
    | some decl => cases hpackage : file.package <;> simp only <;> rfl

theorem seesImports_import (file : File) (hs : s.kind = .keyword .importWord) :
    s.SeesImports (do
      let decl ← parseImport
      return { file with imports := decl.toList ++ file.imports }) file := by
  refine ⟨(parseImport s).1.toList, rfl, ?_⟩
  show (((parseImport s).1.toList.map Import.path).reverse ++
    importsAmong (parseImport s).2.rest).Sublist _
  have hbefore := (reads_parseImport hs).before
  cases hparse : parseImport s with
  | mk decl s' =>
    cases decl with
    | none =>
      rw [hparse] at hbefore
      exact sublist_importsAmong_of_suffix hbefore.rest
    | some d => exact parseImport_eq_some hs hparse

theorem seesImports_statement (first : Bool) (file : File) (s : Cursor) :
    s.SeesImports (statement first file) file := by
  refine seesImports_get ?_
  split
  · rename_i hkind
    exact seesImports_of_before (reads_fileSyntax first file hkind).before
      (imports_fileSyntax first file s)
  · rename_i hkind
    exact seesImports_of_before (reads_filePackage first file hkind).before
      (imports_filePackage file s)
  · rename_i hkind
    exact seesImports_import file hkind
  · rename_i hkind
    exact seesImports_of_before (reads_parseMessage s hkind).before rfl
  · rename_i hkind
    exact seesImports_of_before (reads_parseEnum hkind).before rfl
  · exact seesImports_of_before (before_advance s) rfl
  · exact seesImports_of_before reads_skipStray.before rfl

/-- Reading goes on from what was read: its imports are seen among the tokens that are left. -/
theorem seesImports_statements (first : Bool) (file : File) (s : Cursor) :
    s.SeesImports (statements first file) file := by
  induction hn : s.left using Nat.strongRecOn generalizing first file s with
  | ind n ih =>
    rw [Cursor.SeesImports, statements_eq]
    by_cases hend : s.atEnd
    · rw [if_pos hend]
      exact ⟨[], rfl, List.Sublist.refl _⟩
    · obtain ⟨new, himports, hseen⟩ := seesImports_statement first file s
      rw [if_neg hend, repeatedly]
      cases hrun : statement first file s with
      | mk next s₁ =>
        rw [hrun] at himports hseen
        simp only
        split
        · rename_i hlt
          obtain ⟨later, hlater, hseenLater⟩ := ih s₁.left (hn ▸ hlt) false next s₁ rfl
          refine ⟨later ++ new, by rw [hlater, himports, List.append_assoc], ?_⟩
          rw [List.map_append, List.reverse_append, List.append_assoc]
          exact (List.Sublist.append_left hseenLater _).trans hseen
        · exact ⟨new, himports, hseen⟩

/-- All imports that a file is read with are seen by a quick look, in the same order. -/
theorem imports_sublist_scanImports (n : FileId) (text : String) :
    ((parse n text).file.imports.map Import.path).Sublist (scanImports text) := by
  let start := Cursor.start (lex noFile text).tokens
  obtain ⟨new, himports, hseen⟩ :=
    seesImports_statements true ⟨none, none, [], [], start.span⟩ start
  have hparsed : (parse noFile text).file.imports = new.reverse := by
    show (statements true _ start).1.imports.reverse = _
    rw [himports, List.append_nil]
  rw [paths_parse n noFile, hparsed, List.map_reverse]
  exact (List.sublist_append_left _ _).trans hseen

end Schemata.Schema
