import Schemata.Source.Span

/-!
# Tokens of schema files

Keywords are names too: a declaration may be called `message`. A token carries its text, so that
reading declarations needs no source.
-/

namespace Schemata.Schema

open Source

/-- The words with a meaning of their own. -/
inductive Keyword
  | enumWord
  | importWord
  | messageWord
  | optionalWord
  | packageWord
  | publicWord
  | repeatedWord
  | syntaxWord
  deriving DecidableEq, Repr

namespace Keyword

def text : Keyword → String
  | .enumWord => "enum"
  | .importWord => "import"
  | .messageWord => "message"
  | .optionalWord => "optional"
  | .packageWord => "package"
  | .publicWord => "public"
  | .repeatedWord => "repeated"
  | .syntaxWord => "syntax"

def all : List Keyword :=
  [.enumWord, .importWord, .messageWord, .optionalWord, .packageWord, .publicWord, .repeatedWord,
    .syntaxWord]

def ofText? (s : String) : Option Keyword := all.find? fun k => k.text == s

theorem ofText?_text (k : Keyword) : ofText? k.text = some k := by
  cases k <;> decide

end Keyword

inductive TokenKind
  | keyword (k : Keyword)
  | identifier
  | integer
  | string
  | equals
  | semicolon
  | dot
  | minus
  | openBrace
  | closeBrace
  | invalid
  | endOfFile
  deriving DecidableEq, Repr

namespace TokenKind

/-- Whether a token of this kind may stand where a name is expected. -/
def isName : TokenKind → Bool
  | .keyword _ => true
  | .identifier => true
  | _ => false

/-- How a kind is called in messages. -/
def describe : TokenKind → String
  | .keyword k => "'" ++ k.text ++ "'"
  | .identifier => "identifier"
  | .integer => "integer"
  | .string => "string"
  | .equals => "'='"
  | .semicolon => "';'"
  | .dot => "'.'"
  | .minus => "'-'"
  | .openBrace => "'\x7b'"
  | .closeBrace => "'\x7d'"
  | .invalid => "invalid token"
  | .endOfFile => "end of file"

end TokenKind

structure Token where
  kind : TokenKind
  text : String
  span : Span
  deriving DecidableEq, Repr

end Schemata.Schema
