import Schemata.Schema.Lexer

/-!
# Quick looks at a schema file

Finding a file's imports or its package needs no full reading. Both looks accept every text and go
by the tokens alone.
-/

namespace Schemata.Schema

open Source

/-- The imported paths among some tokens: every string that follows `import`, or `import public`. -/
def importsAmong : List Token → List String
  | [] => []
  | t :: ts =>
    if t.kind = .keyword .importWord then
      match ts with
      | p :: q :: rest =>
        if p.kind = .keyword .publicWord then
          if q.kind = .string then unquote q.text :: importsAmong rest
          else importsAmong (q :: rest)
        else if p.kind = .string then unquote p.text :: importsAmong (q :: rest)
        else importsAmong (p :: q :: rest)
      | [p] => if p.kind = .string then [unquote p.text] else []
      | [] => []
    else importsAmong ts
termination_by ts => ts.length

def scanImports (text : String) : List String := importsAmong (lex noFile text).tokens

/-- The dotted name that some tokens start with, if a semicolon ends it. `name` is what was read of
it, and `atPart` tells whether a part of the name comes next. -/
def packageAfter (name : String) (atPart : Bool) : List Token → Option String
  | [] => none
  | t :: ts =>
    if atPart then
      if t.kind.isName then packageAfter (name ++ t.text) false ts else none
    else if t.kind = .dot then packageAfter (name ++ ".") true ts
    else if t.kind = .semicolon then some name
    else none

/-- The name of the first whole package statement among some tokens that is in no braces. -/
def packageAmong : Nat → List Token → Option String
  | _, [] => none
  | depth, t :: ts =>
    match t.kind with
    | .openBrace => packageAmong (depth + 1) ts
    | .closeBrace => packageAmong (depth - 1) ts
    | .keyword .packageWord =>
      if depth = 0 then
        match packageAfter "" true ts with
        | some name => some name
        | none => packageAmong depth ts
      else packageAmong depth ts
    | _ => packageAmong depth ts

def scanPackage (text : String) : Option String := packageAmong 0 (lex noFile text).tokens

end Schemata.Schema
