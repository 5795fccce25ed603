/-!
# Places in sources

A span is a range of bytes in one file. Files are numbered from zero in the order they are loaded;
one number stands for no file.
-/

namespace Schemata.Source

abbrev FileId := Nat

def noFile : FileId := 4294967295

/-- A range of bytes in a file, without its last byte. -/
structure Span where
  file : FileId
  start : Nat
  stop : Nat
  deriving DecidableEq, Repr

namespace Span

def nowhere : Span := ⟨noFile, 0, 0⟩

instance : Inhabited Span := ⟨nowhere⟩

def isNowhere (s : Span) : Bool := s.file = noFile

/-- The least span over two of one file. A span of another file is left out. -/
def hull (s t : Span) : Span :=
  if s.file = t.file then ⟨s.file, min s.start t.start, max s.stop t.stop⟩ else s

end Span

end Schemata.Source
