/-!
Where a construct came from: byte ranges into the files of a unit. The front end supplies them and
nothing here looks at the source text itself.
-/
namespace ClosureLift

/-- Bytes `start` up to but not including `stop` of the file numbered `file`. -/
structure Span where
  file : UInt32
  start : UInt32
  stop : UInt32
  deriving DecidableEq

namespace Span

def noFile : UInt32 := 4294967295

def dummy : Span := ⟨noFile, 0, 0⟩

def isDummy (span : Span) : Bool := span.file == noFile

/-- The number of bytes; a range that ends before it starts has none. -/
def length (span : Span) : UInt32 :=
  if span.start < span.stop then span.stop - span.start else 0

def isEmpty (span : Span) : Bool := span.stop ≤ span.start

def orElse (span other : Span) : Span := if span.isDummy then other else span

end Span

structure Location where
  file : String
  start : UInt32
  stop : UInt32
  deriving DecidableEq

def Location.display (location : Location) : String :=
  s!"{location.file}[{location.start}..{location.stop}]"

structure SourceFiles where
  paths : List String
  deriving DecidableEq

namespace SourceFiles

/-- Registers a path and gives its number. A path already present keeps the number it has. -/
def add (files : SourceFiles) (path : String) : SourceFiles × Nat :=
  match files.paths.findIdx? (· == path) with
  | some index => (files, index)
  | none => (⟨files.paths ++ [path]⟩, files.paths.length)

def path? (files : SourceFiles) (file : UInt32) : Option String :=
  files.paths[file.toNat]?

def location? (files : SourceFiles) (span : Span) : Option Location :=
  if span.isDummy then none
  else (files.path? span.file).map fun path => ⟨path, span.start, span.stop⟩

end SourceFiles

end ClosureLift
