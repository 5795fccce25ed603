import Schemata.Source.Document
import Schemata.Schema.Tree

/-!
# Descriptors

What a compiled schema file declares, with every type reference resolved to a full name. The
messages of a file are visited with a stack of those that wait, and so each message comes before
those inside it.
-/

namespace Schemata.Descriptor

open Schema (ScalarType FieldLabel)

inductive FieldType
  | scalar (type : ScalarType)
  | message (fullName : String)
  | enumeration (fullName : String)
  deriving DecidableEq, Repr

def FieldType.text : FieldType → String
  | .scalar type => type.text
  | .message fullName => "." ++ fullName
  | .enumeration fullName => "." ++ fullName

structure Field where
  name : String
  number : Nat
  label : FieldLabel
  type : FieldType
  deriving DecidableEq, Repr

structure EnumValue where
  name : String
  number : Int
  deriving DecidableEq, Repr

structure Enum where
  name : String
  fullName : String
  values : List EnumValue
  deriving DecidableEq, Repr

inductive Message
  | mk (name fullName : String) (fields : List Field) (messages : List Message)
    (enums : List Enum)

namespace Message

def name : Message → String
  | .mk name _ _ _ _ => name

/-- The name of a message with its package and the messages around it. -/
def fullName : Message → String
  | .mk _ fullName _ _ _ => fullName

def fields : Message → List Field
  | .mk _ _ fields _ _ => fields

def messages : Message → List Message
  | .mk _ _ _ messages _ => messages

/-- The enums declared inside a message. -/
def enums : Message → List Enum
  | .mk _ _ _ _ enums => enums

def field? (m : Message) (number : Nat) : Option Field := m.fields.find? fun f => f.number = number

mutual

/-- A message, and after it those inside it. -/
def withNested : Message → List Message
  | .mk name fullName fields messages enums =>
    .mk name fullName fields messages enums :: allNested messages

def allNested : List Message → List Message
  | [] => []
  | m :: ms => m.withNested ++ allNested ms

end

theorem withNested_eq (m : Message) : m.withNested = m :: allNested m.messages := by
  cases m with
  | mk name fullName fields messages enums => rfl

theorem allNested_append (ms ns : List Message) :
    allNested (ms ++ ns) = allNested ms ++ allNested ns := by
  induction ms with
  | nil => rfl
  | cons m ms ih => rw [List.cons_append, allNested, allNested, ih, List.append_assoc]

/-- Puts messages on a stack one after the other. The last one comes to lie on top. -/
def pushAll (ms stack : List Message) : List Message := ms.foldl (fun stack m => m :: stack) stack

/-- Pushed from the last to the first, messages lie on a stack in their order. -/
theorem pushAll_reverse (ms stack : List Message) : pushAll ms.reverse stack = ms ++ stack := by
  rw [pushAll, List.foldl_flip_cons_eq_append', List.reverse_reverse]

/-- A step of the visit: what is still to come after a message is what is inside it, and then the
rest of the stack. -/
theorem allNested_step (m : Message) (stack : List Message) :
    allNested (m :: stack) = m :: allNested (pushAll m.messages.reverse stack) := by
  rw [pushAll_reverse, allNested_append, allNested, withNested_eq, List.cons_append]

/-- Takes messages off a stack until none is left. What is inside a message takes its place. -/
def visited : List Message → List Message
  | [] => []
  | m :: stack => m :: visited (pushAll m.messages.reverse stack)
termination_by stack => (allNested stack).length
decreasing_by
  rw [allNested_step]
  exact Nat.lt_succ_self _

theorem visited_eq (stack : List Message) : visited stack = allNested stack := by
  fun_induction visited stack with
  | case1 => rfl
  | case2 m stack ih => rw [allNested_step, ih]

end Message

structure Location where
  symbol : String
  first : Source.Position
  last : Source.Position
  deriving DecidableEq, Repr

structure File where
  path : String
  package : String
  syntaxValue : String
  dependencies : List String
  /-- The positions of the public imports. -/
  publicDependencies : List Nat
  messages : List Message
  enums : List Enum
  /-- Where the declarations stand, if that was kept. -/
  locations : Option (List Location)

namespace File

def allMessages (f : File) : List Message := Message.visited (Message.pushAll f.messages.reverse [])

theorem allMessages_eq (f : File) : f.allMessages = Message.allNested f.messages := by
  rw [allMessages, Message.visited_eq, Message.pushAll_reverse, List.append_nil]

/-- All enums of a file: those outside messages first. -/
def allEnums (f : File) : List Enum := f.enums ++ f.allMessages.flatMap Message.enums

def location? (f : File) (symbol : String) : Option Location :=
  f.locations.bind fun ls => ls.find? fun l => l.symbol = symbol

end File

end Schemata.Descriptor
