import Schemata.Schema.Lexer
import Schemata.Schema.Tree
import Schemata.Text.Quoted

/-!
# From tokens to declarations

Reading never fails: a faulty statement is reported, skipped and left out. Skipping stops after a
semicolon, and before a closing brace or the end of the file. Every statement takes at least one
token, so reading ends; the recursions say so by the number of tokens that are left. What has been
read so far is kept latest first.
-/

namespace Schemata.Schema

open Source

/-! ### The cursor -/

/-- Where reading is: the tokens to come and their number, the span of the token before them, and
the errors so far, latest first. -/
structure Cursor where
  rest : List Token
  left : Nat
  previous : Option Span
  errors : List Diagnostic
  left_eq : left = rest.length

abbrev Step (α : Type) := StateM Cursor α

namespace Cursor

/-- Before the first of some tokens. -/
def start (tokens : List Token) : Cursor := ⟨tokens, tokens.length, none, [], rfl⟩

def kind (s : Cursor) : TokenKind :=
  match s.rest with
  | t :: _ => t.kind
  | [] => .endOfFile

def text (s : Cursor) : String :=
  match s.rest with
  | t :: _ => t.text
  | [] => ""

/-- The span of the current token; past the last token, the span of that. -/
def span (s : Cursor) : Span :=
  match s.rest with
  | t :: _ => t.span
  | [] => s.previous.getD .nowhere

/-- The span of the token before the current one. -/
def previousSpan (s : Cursor) : Span := s.previous.getD s.span

def atEnd (s : Cursor) : Bool := s.kind = .endOfFile

/-- Goes on to the next token. The end of the file is not passed. -/
def advance (s : Cursor) : Cursor :=
  match h : s.rest with
  | t :: ts =>
    if t.kind = .endOfFile then s
    else ⟨ts, s.left - 1, some t.span, s.errors, by simp [s.left_eq, h]⟩
  | [] => s

/-- Before the end of the file, going on takes a token. -/
theorem left_advance_lt {s : Cursor} (h : s.kind ≠ .endOfFile) : s.advance.left < s.left := by
  have hs := s.left_eq
  unfold kind at h
  unfold advance
  split <;> simp_all

def report (d : Diagnostic) (s : Cursor) : Cursor := { s with errors := d :: s.errors }

/-- Whether the tokens after the current one are a name and an opening brace. -/
def opensDeclaration (s : Cursor) : Bool :=
  match s.rest with
  | _ :: name :: brace :: _ => name.kind.isName && brace.kind = .openBrace
  | _ => false

end Cursor

/-! ### Errors -/

def expectedCode : Code := ⟨.reading, 101⟩

/-- The code of a syntax statement that is not the first statement. -/
def syntaxPlacementCode : Code := ⟨.reading, 102⟩

def unknownSyntaxCode : Code := ⟨.reading, 103⟩

def duplicatePackageCode : Code := ⟨.reading, 104⟩

def numberRangeCode : Code := ⟨.reading, 105⟩

/-- Reports that something else was expected here. An invalid token has been reported already. -/
def complain (what : String) : Step Unit := modify fun s =>
  if s.kind = .invalid then s
  else
    let found := if s.kind = .identifier then "'" ++ s.text ++ "'" else s.kind.describe
    s.report (.error expectedCode s!"expected {what}, found {found}" s.span)

/-- Past the rest of a faulty statement. -/
def Cursor.skipStatement (s : Cursor) : Cursor :=
  if _h : s.kind = .endOfFile ∨ s.kind = .closeBrace then s
  else if s.kind = .semicolon then s.advance
  else s.advance.skipStatement
termination_by s.left
decreasing_by exact left_advance_lt (by simp_all)

/-- Skips the rest of a faulty statement. -/
def recover : Step Unit := modify Cursor.skipStatement

/-- Skips the rest of a faulty statement, which gives nothing. -/
def giveUp {α : Type} : Step (Option α) := do
  recover
  return none

/-! ### Single tokens -/

/-- Takes a token of a kind, if it is there. -/
def eat (kind : TokenKind) : Step Bool := do
  if (← get).kind = kind then
    modify Cursor.advance
    return true
  else return false

/-- Takes a token of a kind, or reports that it is missing. -/
def expect (kind : TokenKind) : Step Bool := do
  let there ← eat kind
  if !there then complain kind.describe
  return there

/-- Takes a name, or reports that it is missing. -/
def expectName : Step (Option (String × Span)) := do
  let s ← get
  if s.kind.isName then
    modify Cursor.advance
    return some (s.text, s.span)
  else
    complain "identifier"
    return none

/-- Takes the value of a string, or reports that it is missing. -/
def expectString : Step (Option String) := do
  let s ← get
  if s.kind = .string then
    modify Cursor.advance
    return some (unquote s.text)
  else
    complain "string"
    return none

/-- Takes the name of a declaration. A missing one is reported and replaced. -/
def declaredName : Step (String × Span) := do
  match ← expectName with
  | some name => return name
  | none => return ("<missing>", (← get).span)

/-- The span from a start to the token before the current one. -/
def spanFrom (start : Span) : Step Span := do
  return start.hull (← get).previousSpan

/-! ### Numbers -/

/-- The greatest number of an integer literal. -/
def maxInteger : Nat := 9223372036854775807

/-- The number that decimal digits stand for, if it is not greater than `maxInteger`. More digits
make no number smaller, so the first ones can decide. -/
def decimalValue? (digits : List Char) : Option Nat :=
  digits.foldlM (fun n c =>
    let next := 10 * n + (c.toNat - '0'.toNat)
    if next ≤ maxInteger then some next else none) 0

/-- Takes an integer with an optional minus. -/
def parseInteger : Step (Option Int) := do
  let start := (← get).span
  let negative ← eat .minus
  let s ← get
  if s.kind ≠ .integer then
    complain "integer"
    return none
  modify Cursor.advance
  match decimalValue? s.text.toList with
  | some value => return some (if negative then -(value : Int) else value)
  | none =>
    let span ← spanFrom start
    modify (Cursor.report (.error numberRangeCode "integer literal out of range" span))
    return none

/-! ### Names and types -/

/-- Takes the parts of a dotted name after the first. -/
def dottedRest (name : String) (s : Cursor) : Option String × Cursor :=
  match eat .dot s with
  | (false, s) => (some name, s)
  | (true, s₁) =>
    match expectName s₁ with
    | (none, s₂) => (none, s₂)
    | (some (part, _), s₂) =>
      if _h : s₂.left < s.left then dottedRest (name ++ "." ++ part) s₂
      else (none, s₂)
termination_by s.left

/-- Takes names with dots between them. -/
def parseDottedName : Step (Option String) := do
  match ← expectName with
  | none => return none
  | some (name, _) => dottedRest name

/-- The type that a name stands for. Only a bare name can be a scalar type. -/
def typeOfName (name : String) (absolute : Bool) (span : Span) : TypeRef :=
  match if absolute then none else ScalarType.ofText? name with
  | some scalar => .scalar scalar span
  | none => .named name absolute span

def parseType : Step (Option TypeRef) := do
  let start := (← get).span
  let absolute ← eat .dot
  match ← parseDottedName with
  | none => return none
  | some name => return some (typeOfName name absolute (← spanFrom start))

/-! ### Statements without a body -/

def parseSyntax : Step (Option SyntaxDecl) := do
  let start := (← get).span
  modify Cursor.advance
  if !(← expect .equals) then return ← giveUp
  let valueSpan := (← get).span
  match ← expectString with
  | none => giveUp
  | some value =>
    let _ ← expect .semicolon
    if !File.knownSyntaxes.contains value then
      modify (Cursor.report (.error unknownSyntaxCode
        s!"unknown syntax {Text.quoted value}, expected \"schema1\" or \"schema2\"" valueSpan))
    return some ⟨value, ← spanFrom start⟩

def parsePackage : Step (Option PackageDecl) := do
  let start := (← get).span
  modify Cursor.advance
  match ← parseDottedName with
  | none => giveUp
  | some name =>
    let _ ← expect .semicolon
    return some ⟨name, ← spanFrom start⟩

def parseImport : Step (Option Import) := do
  let start := (← get).span
  modify Cursor.advance
  let isPublic ← eat (.keyword .publicWord)
  match ← expectString with
  | none => giveUp
  | some path =>
    let _ ← expect .semicolon
    return some ⟨path, isPublic, ← spanFrom start⟩

/-! ### Fields and enum values -/

def maxFieldNumber : Nat := 536870911

def parseLabel : Step FieldLabel := do
  if ← eat (.keyword .repeatedWord) then return .repeated
  if ← eat (.keyword .optionalWord) then return .optional
  return .single

/-- Takes the number of a field. One out of range is reported and read as zero. -/
def parseFieldNumber : Step (Option Nat) := do
  let span := (← get).span
  match ← parseInteger with
  | none => return none
  | some value =>
    if 1 ≤ value ∧ value ≤ maxFieldNumber then return some value.toNat
    modify (Cursor.report (.error numberRangeCode
      s!"field number {value} must be between 1 and {maxFieldNumber}" span))
    return some 0

def parseField : Step (Option Field) := do
  let start := (← get).span
  let label ← parseLabel
  match ← parseType with
  | none => giveUp
  | some type =>
    match ← expectName with
    | none => giveUp
    | some (name, nameSpan) =>
      if !(← expect .equals) then return ← giveUp
      let numberSpan := (← get).span
      match ← parseFieldNumber with
      | none => giveUp
      | some number =>
        let _ ← expect .semicolon
        return some ⟨label, type, name, nameSpan, number, numberSpan, ← spanFrom start⟩

/-- Takes the number of an enum value. One out of range is reported and read as zero. -/
def parseEnumNumber : Step (Option Int) := do
  let span := (← get).span
  match ← parseInteger with
  | none => return none
  | some value =>
    if -2147483648 ≤ value ∧ value < 2147483648 then return some value
    modify (Cursor.report (.error numberRangeCode
      s!"enum value {value} does not fit in 32 bits" span))
    return some 0

def parseEnumValue : Step (Option EnumValue) := do
  let start := (← get).span
  match ← expectName with
  | none => giveUp
  | some (name, _) =>
    if !(← expect .equals) then return ← giveUp
    match ← parseEnumNumber with
    | none => giveUp
    | some number =>
      let _ ← expect .semicolon
      return some ⟨name, number, ← spanFrom start⟩

/-! ### Enums -/

/-- Takes the values of an enum up to its closing brace, the latest first. -/
def enumBody (values : List EnumValue) (s : Cursor) : List EnumValue × Cursor :=
  if s.atEnd ∨ s.kind = .closeBrace then (values, s)
  else
    let (value, s₁) : Option EnumValue × Cursor :=
      if s.kind = .semicolon then (none, s.advance) else parseEnumValue s
    let values := value.toList ++ values
    if _h : s₁.left < s.left then enumBody values s₁ else (values, s₁)
termination_by s.left

def parseEnum : Step EnumDecl := do
  let start := (← get).span
  modify Cursor.advance
  let (name, nameSpan) ← declaredName
  if ← expect .openBrace then
    let values ← enumBody []
    let _ ← expect .closeBrace
    return ⟨name, nameSpan, values.reverse, ← spanFrom start⟩
  else
    recover
    return ⟨name, nameSpan, [], ← spanFrom start⟩

/-! ### Messages -/

/-- What a message declares, the latest first. -/
structure Members where
  fields : List Field
  nested : List Item

mutual

def parseMessage (s : Cursor) : Item × Cursor :=
  let start := s.span
  let ((name, nameSpan), s₁) := declaredName s.advance
  match expect .openBrace s₁ with
  | (false, s₂) =>
    let (span, s₃) := (do recover; spanFrom start : Step Span) s₂
    (.message ⟨name, nameSpan, [], span⟩ [], s₃)
  | (true, s₂) =>
    let (members, s₃) : Members × Cursor :=
      if _h : s₂.left < s.left then messageBody ⟨[], []⟩ s₂ else (⟨[], []⟩, s₂)
    let (span, s₄) := (do let _ ← expect .closeBrace; spanFrom start : Step Span) s₃
    (.message ⟨name, nameSpan, members.fields.reverse, span⟩ members.nested.reverse, s₄)
termination_by 2 * s.left

/-- Takes the members of a message up to its closing brace. -/
def messageBody (members : Members) (s : Cursor) : Members × Cursor :=
  if s.atEnd ∨ s.kind = .closeBrace then (members, s)
  else
    let (members, s₁) : Members × Cursor :=
      if s.kind = .keyword .messageWord ∧ s.opensDeclaration then
        let (item, s₁) := parseMessage s
        ({ members with nested := item :: members.nested }, s₁)
      else if s.kind = .keyword .enumWord ∧ s.opensDeclaration then
        let (decl, s₁) := parseEnum s
        ({ members with nested := .enumeration decl :: members.nested }, s₁)
      else if s.kind = .semicolon then (members, s.advance)
      else
        let (field, s₁) := parseField s
        ({ members with fields := field.toList ++ members.fields }, s₁)
    if _h : s₁.left < s.left then messageBody members s₁ else (members, s₁)
termination_by 2 * s.left + 1

end

/-! ### Files -/

/-- Takes the first syntax statement of a file; others are reported. -/
def fileSyntax (first : Bool) (file : File) : Step File := do
  match ← parseSyntax with
  | none => return file
  | some decl =>
    if first then return { file with syntaxDecl := some decl }
    modify (Cursor.report (.error syntaxPlacementCode
      "syntax statement must be the first statement and appear only once" decl.span))
    return file

/-- Takes the first package statement of a file; others are reported. -/
def filePackage (file : File) : Step File := do
  match ← parsePackage with
  | none => return file
  | some decl =>
    match file.package with
    | none => return { file with package := some decl }
    | some earlier =>
      let d : Diagnostic := .error duplicatePackageCode "multiple package statements" decl.span
      modify (Cursor.report (d.withRemark earlier.span "first declared here"))
      return file

/-- Skips what is no statement, with the brace that closes it. -/
def skipStray : Step Unit := do
  complain "'syntax', 'package', 'import', 'message' or 'enum'"
  modify Cursor.advance
  recover
  let _ ← eat .closeBrace

def statement (first : Bool) (file : File) : Step File := do
  match (← get).kind with
  | .keyword .syntaxWord => fileSyntax first file
  | .keyword .packageWord => filePackage file
  | .keyword .importWord =>
    let decl ← parseImport
    return { file with imports := decl.toList ++ file.imports }
  | .keyword .messageWord =>
    let item ← parseMessage
    return { file with items := item :: file.items }
  | .keyword .enumWord =>
    let decl ← parseEnum
    return { file with items := .enumeration decl :: file.items }
  | .semicolon =>
    modify Cursor.advance
    return file
  | _ =>
    skipStray
    return file

/-- Takes the statements of a file; its imports and items come latest first. -/
def statements (first : Bool) (file : File) (s : Cursor) : File × Cursor :=
  if s.atEnd then (file, s)
  else
    let (file, s₁) := statement first file s
    if _h : s₁.left < s.left then statements false file s₁ else (file, s₁)
termination_by s.left

structure Parsed where
  file : File
  errors : List Diagnostic

def parseTokens (tokens : List Token) : Parsed :=
  let s := Cursor.start tokens
  let (file, s₁) := statements true ⟨none, none, [], [], s.span⟩ s
  ⟨{ file with
      imports := file.imports.reverse
      items := file.items.reverse
      span := s.span.hull s₁.previousSpan }, s₁.errors.reverse⟩

/-- The file that a text stands for. Errors in the shape of tokens come first. -/
def parse (file : FileId) (text : String) : Parsed :=
  let lexed := lex file text
  let parsed := parseTokens lexed.tokens
  ⟨parsed.file, lexed.errors ++ parsed.errors⟩

end Schemata.Schema
