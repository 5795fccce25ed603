import Schemata.Text.Blank
import Schemata.Text.Quoted
import Schemata.Text.Split

/-!
# Names of modules and commits

A module is named by the registry that holds it, its owner there and its own name, written
`registry/owner/name`. A reference may add a label or a commit after a colon. A commit is named by
32 lower-case hexadecimal digits. Each type holds accepted values only, so that its text can be
read back.
-/

namespace Schemata

open Text

/-- Why a name, a reference or a commit ID is refused. -/
inductive NameError
  | emptyComponent (value : String)
  | forbiddenCharacter (value : String)
  | wrongComponentCount (value : String)
  | emptyReference (value : String)
  | notACommitId (value : String)
  deriving DecidableEq, Repr

def NameError.message : NameError → String
  | .emptyComponent value =>
    s!"invalid module name {quoted value}: components must not be empty"
  | .forbiddenCharacter value =>
    s!"invalid module name {quoted value}: components must not contain '/', ':' or whitespace"
  | .wrongComponentCount value =>
    s!"invalid module name {quoted value}: expected registry/owner/name"
  | .emptyReference value =>
    s!"invalid module reference {quoted value}: ref after ':' must not be empty"
  | .notACommitId value =>
    s!"invalid commit ID {quoted value}: expected 32 lowercase hex characters"

/-! ### Module names -/

/-- Whether a character may not stand in a component of a module name. -/
def isNameForbidden (c : Char) : Bool := c = '/' || c = ':' || isBlank c

def isNameComponent (s : String) : Bool :=
  !s.isEmpty && !s.toList.any isNameForbidden

structure ModuleName where
  registry : String
  owner : String
  name : String
  components_ok : [registry, owner, name].all isNameComponent = true
  deriving DecidableEq

namespace ModuleName

/-- The three components as text. -/
def render (registry owner name : String) : String :=
  registry ++ "/" ++ owner ++ "/" ++ name

def text (n : ModuleName) : String := render n.registry n.owner n.name

instance : ToString ModuleName := ⟨text⟩

/-- The components, which module names are ordered by. -/
def key (n : ModuleName) : List String := [n.registry, n.owner, n.name]

/-- Refuses the first component that is empty or holds a forbidden character. -/
def checkComponents (value : String) : List String → Except NameError Unit
  | [] => .ok ()
  | c :: cs =>
    if c.isEmpty then .error (.emptyComponent value)
    else if c.toList.any isNameForbidden then .error (.forbiddenCharacter value)
    else checkComponents value cs

theorem all_of_checkComponents {value : String} {cs : List String}
    (h : checkComponents value cs = .ok ()) : cs.all isNameComponent = true := by
  induction cs with
  | nil => rfl
  | cons c cs ih =>
    simp only [checkComponents] at h
    split at h
    · contradiction
    · split at h
      · contradiction
      · rename_i h₁ h₂
        simp only [List.all_cons, ih h, Bool.and_true]
        simp [isNameComponent, h₁, h₂]

def ofComponents (registry owner name : String) : Except NameError ModuleName :=
  match h : checkComponents (render registry owner name) [registry, owner, name] with
  | .ok () => .ok ⟨registry, owner, name, all_of_checkComponents h⟩
  | .error e => .error e

def parse (value : String) : Except NameError ModuleName :=
  match pieces '/' value with
  | [registry, owner, name] => ofComponents registry owner name
  | _ => .error (.wrongComponentCount value)

end ModuleName

/-! ### References -/

/-- A module, and possibly the label or commit meant. -/
structure ModuleRef where
  module : ModuleName
  reference : Option String
  deriving DecidableEq

namespace ModuleRef

def text (r : ModuleRef) : String :=
  match r.reference with
  | some reference => r.module.text ++ ":" ++ reference
  | none => r.module.text

instance : ToString ModuleRef := ⟨text⟩

/-- What references are ordered by: the module, then the reference, none before any. -/
def key (r : ModuleRef) : List String := r.module.key ++ r.reference.toList

def parse (value : String) : Except NameError ModuleRef :=
  match cutFirst ':' value.toList with
  | none => return ⟨← ModuleName.parse value, none⟩
  | some (_, []) => .error (.emptyReference value)
  | some (name, reference) =>
    return ⟨← ModuleName.parse (String.ofList name), some (String.ofList reference)⟩

end ModuleRef

/-! ### Commits -/

/-- Whether a character is a lower-case hexadecimal digit. -/
def isLowerHex (c : Char) : Bool := c.isDigit || ('a' ≤ c && c ≤ 'f')

def isCommitId (s : String) : Bool := s.toList.length = 32 && s.toList.all isLowerHex

structure CommitId where
  text : String
  ok : isCommitId text = true
  deriving DecidableEq

instance : ToString CommitId := ⟨CommitId.text⟩

def CommitId.parse (value : String) : Except NameError CommitId :=
  if h : isCommitId value = true then .ok ⟨value, h⟩ else .error (.notACommitId value)

end Schemata
