import RubySig.Text.Position

/-!
# Sources

Every loaded signature text has a display path and a provenance. A `Span` is a range
of one source; it becomes a line and a column only when it is printed.

* `Provenance`: where a text came from.
* `Span`: a place in a source.
* `SourceMap`: all sources of a session, numbered in the order in which they were added.
-/

namespace RubySig

/-- The number of a source in its `SourceMap`. -/
abbrev SourceId := Nat

/-- Where a source came from. -/
inductive Provenance
  /-- A file. -/
  | path (path : String)
  /-- A library. -/
  | library (name : String) (version : Option String)
  /-- A packaged gem. -/
  | gem (name : String) (version : Option String)
  /-- The signatures that come with the program. -/
  | stdlib
  deriving Repr, Inhabited, DecidableEq

namespace Provenance

/-- The path shown for a source that has none of its own. -/
def displayName : Provenance → String
  | path p => p
  | library name _ => "<library:" ++ name ++ ">"
  | gem name _ => "<gem:" ++ name ++ ">"
  | stdlib => "<stdlib>"

/-- A library shows its version only if it has one, a gem always shows the field. -/
def render : Provenance → String
  | path p => "path=" ++ p
  | library name none => "library, name=" ++ name
  | library name (some version) => "library, name=" ++ name ++ ", version=" ++ version
  | gem name version => "gem, name=" ++ name ++ ", version=" ++ version.getD ""
  | stdlib => "stdlib"

end Provenance

/-- A byte range inside one source. -/
structure Span where
  /-- The source. -/
  source : SourceId
  /-- The range in it. -/
  range : TextRange
  deriving Repr, Inhabited, DecidableEq

/-- The smallest span that contains both, in the source of the first. -/
def Span.cover (a b : Span) : Span := ⟨a.source, a.range.cover b.range⟩

/-- The first offset of a span. -/
def Span.start (s : Span) : Nat := s.range.start

/-- A signature text. -/
structure Source where
  /-- The path shown in messages. -/
  path : String
  /-- Where the text came from. -/
  provenance : Provenance
  /-- The text. -/
  content : String
  deriving Repr, Inhabited, DecidableEq

/-- A place as shown to a reader: the line counts from one, the column from zero. -/
structure Location where
  /-- The path of the source. -/
  path : String
  /-- The line. -/
  line : Nat
  /-- The column, in characters. -/
  column : Nat
  deriving Repr, Inhabited, DecidableEq

/-- `path:line:column` -/
def Location.render (l : Location) : String :=
  l.path ++ ":" ++ toString l.line ++ ":" ++ toString l.column

/-- The sources of a session. -/
structure SourceMap where
  /-- The sources; the position of one is its number. -/
  sources : List Source
  deriving Repr, Inhabited

namespace SourceMap

/-- No sources. -/
def empty : SourceMap := ⟨[]⟩

/-- Adds a source at the end. -/
def add (m : SourceMap) (s : Source) : SourceMap := ⟨m.sources ++ [s]⟩

/-- The source with a number. -/
def get? (m : SourceMap) (id : SourceId) : Option Source := m.sources[id]?

/-- The path of the source with a number. -/
def path? (m : SourceMap) (id : SourceId) : Option String := (m.get? id).map (·.path)

/-- The sources with their numbers. -/
def numbered (m : SourceMap) : List (SourceId × Source) := m.sources.zipIdx.map fun p => (p.2, p.1)

/-- Where a span starts, unless its source is unknown. -/
def location? (m : SourceMap) (s : Span) : Option Location :=
  (m.get? s.source).map fun src =>
    let p := lineColumn src.content s.start
    ⟨src.path, p.1, p.2⟩

end SourceMap

/-- A text known by its path alone. -/
def Source.ofFile (path content : String) : Source := ⟨path, .path path, content⟩

/-- A text shown under the name of its provenance. -/
def Source.ofProvenance (provenance : Provenance) (content : String) : Source :=
  ⟨provenance.displayName, provenance, content⟩

end RubySig
