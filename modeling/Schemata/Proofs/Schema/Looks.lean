import Schemata.Proofs.Schema.Scan

/-!
# What a quick look sees of a file without errors

Of a text that is read without a complaint a quick look sees just what reading gives: the imports in
order, and the package. It goes by single tokens and a count of braces, so the grammar has to keep
strings out of declarations and packages, and braces in balance.
-/

namespace Schemata.Schema

open Source

variable {ts us rest : List Token} {t : Token}

/-! ### Tokens of declarations -/

/-- Whether a token is no string and no brace. -/
def Token.IsPlain (t : Token) : Prop :=
  t.kind ≠ .string ∧ t.kind ≠ .openBrace ∧ t.kind ≠ .closeBrace

theorem Token.isPlain_of_isName (h : t.kind.isName = true) : t.IsPlain := by
  refine ⟨?_, ?_, ?_⟩ <;> intro hkind <;> rw [hkind] at h <;> cases h

theorem Token.isPlain_of_kind {kind : TokenKind} (h : t.kind = kind)
    (hkind : kind ≠ .string ∧ kind ≠ .openBrace ∧ kind ≠ .closeBrace) : t.IsPlain :=
  ⟨h ▸ hkind.1, h ▸ hkind.2.1, h ▸ hkind.2.2⟩

/-- Tokens without strings whose braces are in balance. -/
inductive Balanced : List Token → Prop
  | nil : Balanced []
  | plain {t : Token} {ts : List Token} (ht : t.IsPlain) (h : Balanced ts) : Balanced (t :: ts)
  | braced {opening closing : Token} {body ts : List Token} (hopening : opening.kind = .openBrace)
      (hbody : Balanced body) (hclosing : closing.kind = .closeBrace) (h : Balanced ts) :
      Balanced (opening :: (body ++ closing :: ts))

theorem Balanced.append (h : Balanced ts) (h' : Balanced us) : Balanced (ts ++ us) := by
  induction h with
  | nil => exact h'
  | plain ht _ ih => exact .plain ht ih
  | braced hopening hbody hclosing _ _ ih =>
    rw [List.cons_append, List.append_assoc, List.cons_append]
    exact .braced hopening hbody hclosing ih

theorem balanced_of_plain (h : ∀ t ∈ ts, t.IsPlain) : Balanced ts := by
  induction ts with
  | nil => exact .nil
  | cons t ts ih =>
    obtain ⟨ht, hts⟩ := List.forall_mem_cons.1 h
    exact .plain ht (ih hts)

theorem Balanced.ne_string (h : Balanced ts) : ∀ t ∈ ts, t.kind ≠ .string := by
  induction h with
  | nil => exact List.forall_mem_nil _
  | plain ht _ ih => exact List.forall_mem_cons.2 ⟨ht.1, ih⟩
  | braced hopening _ hclosing _ ihbody ih =>
    refine List.forall_mem_cons.2 ⟨by rw [hopening]; decide, fun t ht => ?_⟩
    rcases List.mem_append.1 ht with hbody | hlater
    · exact ihbody t hbody
    · exact List.forall_mem_cons.2 ⟨by rw [hclosing]; decide, ih⟩ t hlater

theorem IntegerForm.isPlain {n : Int} (h : IntegerForm ts n) : ∀ t ∈ ts, t.IsPlain := by
  cases h with
  | plain ht => exact List.forall_mem_singleton.2 (Token.isPlain_of_kind ht (by decide))
  | negative hminus ht =>
    exact List.forall_mem_cons.2 ⟨Token.isPlain_of_kind hminus (by decide),
      List.forall_mem_singleton.2 (Token.isPlain_of_kind ht (by decide))⟩

theorem DottedName.isPlain {name : String} (h : DottedName ts name) : ∀ t ∈ ts, t.IsPlain := by
  induction h with
  | single ht => exact List.forall_mem_singleton.2 (Token.isPlain_of_isName ht)
  | dotted _ hdot hpart ih =>
    refine List.forall_mem_append.2 ⟨ih, List.forall_mem_cons.2 ⟨?_, ?_⟩⟩
    · exact Token.isPlain_of_kind hdot (by decide)
    · exact List.forall_mem_singleton.2 (Token.isPlain_of_isName hpart)

theorem TypeForm.isPlain {type : TypeRef} (h : TypeForm ts type) : ∀ t ∈ ts, t.IsPlain := by
  cases h with
  | scalar ht => exact List.forall_mem_singleton.2 (Token.isPlain_of_isName ht)
  | relative h => exact h.isPlain
  | absolute hdot h =>
    exact List.forall_mem_cons.2 ⟨Token.isPlain_of_kind hdot (by decide), h.isPlain⟩

theorem FieldHead.isPlain {label : FieldLabel} {type : TypeRef} (h : FieldHead ts label type) :
    ∀ t ∈ ts, t.IsPlain := by
  cases h with
  | single h _ => exact h.isPlain
  | repeated h ht =>
    exact List.forall_mem_cons.2 ⟨Token.isPlain_of_kind ht (by decide), h.isPlain⟩
  | optional h ht =>
    exact List.forall_mem_cons.2 ⟨Token.isPlain_of_kind ht (by decide), h.isPlain⟩

/-- A number that is given to a name, as fields and values of enums end. -/
theorem isPlain_numbered {name equals semicolon : Token} {number : List Token} {n : Int}
    (hname : name.kind.isName = true) (hequals : equals.kind = .equals)
    (hnumber : IntegerForm number n) (hsemicolon : semicolon.kind = .semicolon) :
    ∀ t ∈ name :: equals :: (number ++ [semicolon]), t.IsPlain := by
  refine List.forall_mem_cons.2 ⟨Token.isPlain_of_isName hname, List.forall_mem_cons.2 ⟨?_, ?_⟩⟩
  · exact Token.isPlain_of_kind hequals (by decide)
  · exact List.forall_mem_append.2
      ⟨hnumber.isPlain, List.forall_mem_singleton.2 (Token.isPlain_of_kind hsemicolon (by decide))⟩

theorem FieldForm.balanced {field : Field} (h : FieldForm ts field) : Balanced ts := by
  cases h with
  | field hhead hname hequals hnumber _ hsemicolon =>
    exact balanced_of_plain (List.forall_mem_append.2
      ⟨hhead.isPlain, isPlain_numbered hname hequals hnumber hsemicolon⟩)

theorem EnumValueForm.balanced {value : EnumValue} (h : EnumValueForm ts value) : Balanced ts := by
  cases h with
  | value hname hequals hnumber _ hsemicolon =>
    exact balanced_of_plain (isPlain_numbered hname hequals hnumber hsemicolon)

theorem EnumBody.balanced {values : List EnumValue} (h : EnumBody ts values) : Balanced ts := by
  induction h with
  | nil => exact .nil
  | semicolon ht _ ih => exact .plain (Token.isPlain_of_kind ht (by decide)) ih
  | value hv _ ih => exact hv.balanced.append ih

/-- The tokens of a declaration: its word, its name and its body in braces. -/
inductive Declares : List Token → Prop
  | declares {word name opening closing : Token} {body : List Token} (hword : word.IsPlain)
      (hpackage : word.kind ≠ .keyword .packageWord) (hname : name.IsPlain)
      (hopening : opening.kind = .openBrace) (hbody : Balanced body)
      (hclosing : closing.kind = .closeBrace) :
      Declares (word :: name :: opening :: (body ++ [closing]))

theorem Declares.balanced (h : Declares ts) : Balanced ts := by
  cases h with
  | declares hword _ hname hopening hbody hclosing =>
    exact .plain hword (.plain hname (.braced hopening hbody hclosing .nil))

theorem EnumForm.declares {decl : EnumDecl} (h : EnumForm ts decl) : Declares ts := by
  cases h with
  | enumeration hword hname hopening hbody hclosing =>
    exact .declares (Token.isPlain_of_kind hword (by decide)) (by rw [hword]; decide)
      (Token.isPlain_of_isName hname) hopening hbody.balanced hclosing

mutual

theorem MessageForm.declares {ts : List Token} {item : Item} : MessageForm ts item → Declares ts
  | .message hword hname hopening hbody hclosing =>
    .declares (Token.isPlain_of_kind hword (by decide)) (by rw [hword]; decide)
      (Token.isPlain_of_isName hname) hopening hbody.balanced hclosing

theorem MessageBody.balanced {ts : List Token} {fields : List Field} {nested : List Item} :
    MessageBody ts fields nested → Balanced ts
  | .nil => .nil
  | .semicolon ht h => .plain (Token.isPlain_of_kind ht (by decide)) h.balanced
  | .field hfield h => hfield.balanced.append h.balanced
  | .message hitem h => hitem.declares.balanced.append h.balanced
  | .enumeration hdecl h => hdecl.declares.balanced.append h.balanced

end

/-! ### Imports -/

/-- A token shows no import where no path follows it. -/
theorem importsAmong_cons_of_unquoted (hfirst : ∀ p ∈ ts.head?, p.kind ≠ .string)
    (hsecond : ∀ p q us, ts = p :: q :: us → p.kind = .keyword .publicWord → q.kind ≠ .string) :
    importsAmong (t :: ts) = importsAmong ts := by
  by_cases ht : t.kind = .keyword .importWord
  · rw [importsAmong.eq_def]
    match ts with
    | [] => simp [ht, importsAmong]
    | [p] =>
      have hp : p.kind ≠ .string := hfirst p rfl
      simp [ht, hp, importsAmong]
    | p :: q :: us =>
      have hp : p.kind ≠ .string := hfirst p rfl
      by_cases hpublic : p.kind = .keyword .publicWord
      · have hq : q.kind ≠ .string := hsecond p q us rfl hpublic
        rw [importsAmong_cons (t := p) (by rw [hpublic]; decide)]
        simp [ht, hpublic, hq]
      · simp [ht, hpublic, hp]
  · exact importsAmong_cons ht

/-- Tokens without strings show no imports, nor do they hide what follows the token that ends
them. -/
theorem importsAmong_unquoted {stop : Token} (hts : ∀ t ∈ ts, t.kind ≠ .string)
    (hstop : stop.kind = .semicolon ∨ stop.kind = .closeBrace) :
    importsAmong (ts ++ stop :: rest) = importsAmong rest := by
  have hquiet : stop.kind ≠ .string ∧ stop.kind ≠ .keyword .importWord ∧
      stop.kind ≠ .keyword .publicWord := by
    rcases hstop with h | h <;> rw [h] <;> decide
  induction ts with
  | nil => exact importsAmong_cons hquiet.2.1
  | cons t ts ih =>
    have hts := (List.forall_mem_cons.1 hts).2
    rw [List.cons_append, importsAmong_cons_of_unquoted ?_ ?_, ih hts]
    · intro p hp
      cases ts with
      | nil => exact Option.some.inj hp ▸ hquiet.1
      | cons u ts => exact Option.some.inj hp ▸ hts u List.mem_cons_self
    · intro p q us heq hpublic
      match ts with
      | [] => exact absurd ((List.cons.inj heq).1 ▸ hpublic) hquiet.2.2
      | [u] => exact (List.cons.inj (List.cons.inj heq).2).1 ▸ hquiet.1
      | u :: v :: ts =>
        exact (List.cons.inj (List.cons.inj heq).2).1 ▸ hts v (by simp)

/-! ### Packages -/

theorem packageAmong_open {depth : Nat} (ht : t.kind = .openBrace) :
    packageAmong depth (t :: ts) = packageAmong (depth + 1) ts := by
  rw [packageAmong, ht]

theorem packageAmong_close {depth : Nat} (ht : t.kind = .closeBrace) :
    packageAmong depth (t :: ts) = packageAmong (depth - 1) ts := by
  rw [packageAmong, ht]

/-- A token that is no brace is passed over where it starts no package statement. -/
theorem packageAmong_cons {depth : Nat} (hopen : t.kind ≠ .openBrace)
    (hclose : t.kind ≠ .closeBrace)
    (h : t.kind = .keyword .packageWord → depth = 0 → packageAfter "" true ts = none) :
    packageAmong depth (t :: ts) = packageAmong depth ts := by
  rw [packageAmong]
  split
  · exact absurd ‹_› hopen
  · exact absurd ‹_› hclose
  · rename_i hpackage
    split
    · rename_i hdepth
      rw [h hpackage hdepth]
    · rfl
  · rfl

/-- Inside of braces, tokens in balance are passed over. -/
theorem packageAmong_balanced (h : Balanced ts) (depth : Nat) (rest : List Token) :
    packageAmong (depth + 1) (ts ++ rest) = packageAmong (depth + 1) rest := by
  induction h generalizing depth rest with
  | nil => rfl
  | plain ht _ ih =>
    rw [List.cons_append,
      packageAmong_cons ht.2.1 ht.2.2 fun _ h => absurd h (Nat.succ_ne_zero depth), ih]
  | braced hopening _ hclosing _ ihbody ih =>
    rw [List.cons_append, List.append_assoc, packageAmong_open hopening, ihbody, List.cons_append,
      packageAmong_close hclosing, Nat.add_sub_cancel, ih]

/-- A declaration is passed over, also one that is called `package`. -/
theorem packageAmong_declares (h : Declares ts) :
    packageAmong 0 (ts ++ rest) = packageAmong 0 rest := by
  cases h with
  | @declares word name opening closing body hword hpackage hname hopening hbody hclosing =>
    have hbrace : packageAfter "" true (opening :: (body ++ closing :: rest)) = none := by
      simp [packageAfter, hopening, TokenKind.isName]
    simp only [List.cons_append, List.append_assoc, List.nil_append]
    rw [packageAmong_cons hword.2.1 hword.2.2 (absurd · hpackage),
      packageAmong_cons hname.2.1 hname.2.2 fun _ _ => hbrace, packageAmong_open hopening,
      packageAmong_balanced hbody, packageAmong_close hclosing]

theorem packageAfter_dottedName {name : String} (h : DottedName ts name) (before : String)
    (rest : List Token) :
    packageAfter before true (ts ++ rest) = packageAfter (before ++ name) false rest := by
  induction h generalizing rest with
  | single ht => simp [packageAfter, ht]
  | dotted _ hdot hpart ih =>
    rw [List.append_assoc, ih]
    simp [packageAfter, hdot, hpart, String.append_assoc]

theorem packageAmong_package {word semicolon : Token} {name : String}
    (hword : word.kind = .keyword .packageWord) (h : DottedName ts name)
    (hsemicolon : semicolon.kind = .semicolon) :
    packageAmong 0 (word :: (ts ++ semicolon :: rest)) = some name := by
  have hname : packageAfter "" true (ts ++ semicolon :: rest) = some name := by
    rw [packageAfter_dottedName h]
    simp [packageAfter, hsemicolon]
  rw [packageAmong, hword]
  simp [hname]

/-! ### Statements -/

theorem importsAmong_declares (h : Declares ts) :
    importsAmong (ts ++ rest) = importsAmong rest := by
  have hstring := h.balanced.ne_string
  cases h with
  | @declares word name opening closing body _ _ _ _ _ hclosing =>
    have hfront : ∀ t ∈ word :: name :: opening :: body, t.kind ≠ .string := fun t ht =>
      hstring t (List.mem_append_left [closing] ht)
    simp only [List.cons_append, List.append_assoc, List.nil_append]
    exact importsAmong_unquoted hfront (.inr hclosing)

theorem importsAmong_statement {said : Statement} (h : StatementForm ts said)
    (rest : List Token) :
    importsAmong (ts ++ rest) = (said.import?.map Import.path).toList ++ importsAmong rest := by
  cases h with
  | empty ht => exact importsAmong_cons (by rw [ht]; decide)
  | @package word semicolon ts name hword hname hsemicolon =>
    have hfront : ∀ t ∈ word :: ts, t.kind ≠ .string :=
      List.forall_mem_cons.2 ⟨by rw [hword]; decide, fun t ht => (hname.isPlain t ht).1⟩
    rw [List.cons_append, List.append_assoc]
    exact importsAmong_unquoted hfront (.inl hsemicolon)
  | @imported word path semicolon hword hpath hsemicolon =>
    show importsAmong (word :: path :: semicolon :: rest) = unquote path.text :: importsAmong rest
    rw [importsAmong_import hword hpath, importsAmong_cons (by rw [hsemicolon]; decide)]
  | @importedPublicly word isPublic path semicolon hword hpublic hpath hsemicolon =>
    show importsAmong (word :: isPublic :: path :: semicolon :: rest) =
      unquote path.text :: importsAmong rest
    rw [importsAmong_publicImport hword hpublic hpath,
      importsAmong_cons (by rw [hsemicolon]; decide)]
  | message h => exact importsAmong_declares h.declares
  | enumeration h => exact importsAmong_declares h.declares

/-- A token is passed over that is neither a brace nor the word for packages. -/
theorem packageAmong_skip {kind : TokenKind} {depth : Nat} (ht : t.kind = kind)
    (hkind : kind ≠ .openBrace ∧ kind ≠ .closeBrace ∧ kind ≠ .keyword .packageWord) :
    packageAmong depth (t :: ts) = packageAmong depth ts := by
  subst ht
  exact packageAmong_cons hkind.1 hkind.2.1 fun h => absurd h hkind.2.2

theorem packageAmong_statement {said : Statement} (h : StatementForm ts said)
    (rest : List Token) :
    packageAmong 0 (ts ++ rest) =
      (said.package?.map PackageDecl.name).or (packageAmong 0 rest) := by
  cases h with
  | empty ht => exact packageAmong_skip ht (by decide)
  | package hword hname hsemicolon =>
    rw [List.cons_append, List.append_assoc]
    exact packageAmong_package hword hname hsemicolon
  | imported hword hpath hsemicolon =>
    exact (packageAmong_skip hword (by decide)).trans
      ((packageAmong_skip hpath (by decide)).trans (packageAmong_skip hsemicolon (by decide)))
  | importedPublicly hword hpublic hpath hsemicolon =>
    exact (packageAmong_skip hword (by decide)).trans
      ((packageAmong_skip hpublic (by decide)).trans
        ((packageAmong_skip hpath (by decide)).trans (packageAmong_skip hsemicolon (by decide))))
  | message h => exact packageAmong_declares h.declares
  | enumeration h => exact packageAmong_declares h.declares

theorem importsAmong_statements {said : List Statement} (h : Statements ts said)
    (rest : List Token) :
    importsAmong (ts ++ rest) = (said.filterMap Statement.import?).map Import.path ++
      importsAmong rest := by
  induction h with
  | nil => rfl
  | @cons ts others said _ h _ ih =>
    rw [List.append_assoc, importsAmong_statement h, ih, List.filterMap_cons]
    cases said.import? <;> rfl

theorem packageAmong_statements {said : List Statement} (h : Statements ts said)
    (rest : List Token) :
    packageAmong 0 (ts ++ rest) =
      ((said.filterMap Statement.package?).head?.map PackageDecl.name).or
        (packageAmong 0 rest) := by
  induction h with
  | nil => rfl
  | @cons ts others said _ h _ ih =>
    rw [List.append_assoc, packageAmong_statement h, ih, List.filterMap_cons]
    cases said.package? <;> rfl

/-! ### Files -/

/-- A quick look passes over a syntax statement. -/
theorem looks_syntax {decl : Option SyntaxDecl} (h : SyntaxForm ts decl) (rest : List Token) :
    importsAmong (ts ++ rest) = importsAmong rest ∧
      packageAmong 0 (ts ++ rest) = packageAmong 0 rest := by
  cases h with
  | unspecified => exact ⟨rfl, rfl⟩
  | @specified word equals value semicolon hword hequals hvalue _ hsemicolon =>
    refine ⟨?_, ?_⟩
    · show importsAmong (word :: equals :: value :: semicolon :: rest) = _
      rw [importsAmong_cons (by rw [hword]; decide), importsAmong_cons (by rw [hequals]; decide),
        importsAmong_cons (by rw [hvalue]; decide), importsAmong_cons (by rw [hsemicolon]; decide)]
    · show packageAmong 0 (word :: equals :: value :: semicolon :: rest) = _
      rw [packageAmong_skip hword (by decide), packageAmong_skip hequals (by decide),
        packageAmong_skip hvalue (by decide), packageAmong_skip hsemicolon (by decide)]

theorem looks_file {file : File} (h : FileForm ts file) :
    importsAmong ts = file.imports.map Import.path ∧
      packageAmong 0 ts = file.package.map PackageDecl.name := by
  cases h with
  | @file head body decl said stop hhead hbody _ hstop =>
    obtain ⟨himports, hpackage⟩ := looks_syntax hhead (body ++ [stop])
    rw [List.append_assoc, himports, hpackage, importsAmong_statements hbody,
      packageAmong_statements hbody, importsAmong_cons (by rw [hstop]; decide),
      packageAmong_skip hstop (by decide)]
    refine ⟨?_, ?_⟩
    · rw [importsAmong, List.append_nil]
    · rw [packageAmong, Option.or_none]

theorem paths_bare (file : File) :
    file.bare.imports.map Import.path = file.imports.map Import.path := by
  rw [File.bare, List.map_map]
  rfl

theorem packageName_bare (file : File) :
    file.bare.package.map PackageDecl.name = file.package.map PackageDecl.name := by
  rw [File.bare, Option.map_map]
  rfl

/-- A quick look sees all imports that reading gives, in order; where reading has nothing to
complain about it sees no others, and the package as it is read. -/
theorem looks_agree (n : FileId) (text : String) :
    ((parse n text).file.imports.map Import.path).Sublist (scanImports text) ∧
      ((parse n text).errors = [] →
        scanImports text = (parse n text).file.imports.map Import.path ∧
        scanPackage text = (parse n text).file.package.map PackageDecl.name) := by
  refine ⟨imports_sublist_scanImports n text, fun herrors => ?_⟩
  have halike := alike_parse n noFile text
  have hread : (lex noFile text).errors = [] ∧
      (parseTokens (lex noFile text).tokens).errors = [] := by
    have hnone := halike.errors
    rw [herrors] at hnone
    exact List.append_eq_nil_iff.1 (List.forall₂_nil_left_iff.1 hnone)
  have htokens : Ended (lex noFile text).tokens ∧
      ((lex noFile text).errors = [] → Valid (lex noFile text).tokens) :=
    lexFrom_tokens noFile 0 text.toList
  have hform := fileForm_of_parseTokens htokens.1 (htokens.2 hread.1) hread.2
  obtain ⟨himports, hpackage⟩ := looks_file hform
  have hbare : (parse n text).file.bare = (parseTokens (lex noFile text).tokens).file.bare :=
    halike.file
  rw [← hbare] at himports hpackage
  exact ⟨himports.trans (paths_bare _), hpackage.trans (packageName_bare _)⟩

/-- A text with words of the language as names and as parts of names. -/
def namedText : String :=
  "syntax = \"schema1\"; message package \x7b import.public import = 1; \x7d " ++
  "import public \"b.schema\"; package import.package.public; import \"a.schema\";"

theorem looks_namedText :
    (parse 0 namedText).errors = [] ∧ scanImports namedText = ["b.schema", "a.schema"] ∧
      scanPackage namedText = some "import.package.public" := by
  have hread : (parse 0 namedText).errors = [] := by decide +kernel
  obtain ⟨himports, hpackage⟩ := (looks_agree 0 namedText).2 hread
  refine ⟨hread, himports.trans ?_, hpackage.trans ?_⟩
  · decide +kernel
  · decide +kernel

end Schemata.Schema
