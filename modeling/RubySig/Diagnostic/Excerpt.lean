import RubySig.Diagnostic
import RubySig.Diagnostic.Margin

/-!
# Diagnostics with excerpts of the source

Each diagnostic shows its message, its place, the source line and a row of carets under
the span:

    error: Could not find ::Hello
     --> a.rbs:1:7
      |
    1 | class Hello::World
      |       ^^^^^^^^^^^^ NoTypeFoundError

* `SourceLine`, `sourceLines`: the lines of a text with their offsets.
* `Diagnostic.excerpt`: one diagnostic. `Diagnostic.excerptAll`: a batch.
-/

namespace RubySig

/-! ## Lines -/

/-- A line of a text, without its line break. -/
structure SourceLine where
  /-- The number of the line, from one. -/
  number : Nat
  /-- The offset of its first character. -/
  start : Nat
  /-- Its characters. -/
  text : List Char
  /-- The offset after its line break. -/
  stop : Nat
  deriving Repr, Inhabited, DecidableEq

/-- Adds a character in front of the first line. -/
def consLine (c : Char) : List (List Char × Nat) → List (List Char × Nat)
  | [] => [([c], 0)]
  | (text, lineBreak) :: rest => (c :: text, lineBreak) :: rest

/-- The lines of a text, each with the length of its line break. A text that ends in a line
break has no further line behind it. -/
def splitLines : List Char → List (List Char × Nat)
  | [] => []
  | '\r' :: '\n' :: rest => ([], 2) :: splitLines rest
  | '\n' :: rest => ([], 1) :: splitLines rest
  | c :: rest => consLine c (splitLines rest)

/-- Numbers lines, the first of which has the given number and offset. -/
def numberLines (number start : Nat) : List (List Char × Nat) → List SourceLine
  | [] => []
  | (text, lineBreak) :: rest =>
    let stop := start + byteLength text + lineBreak
    ⟨number, start, text, stop⟩ :: numberLines (number + 1) stop rest

/-- The lines of a text; the empty text has one empty line. -/
def sourceLines (content : List Char) : List SourceLine :=
  if content.isEmpty then [⟨1, 0, [], 0⟩] else numberLines 1 0 (splitLines content)

/-- The line that holds an offset; an offset at the end of the text belongs to the last
line. -/
def lineAt (content : List Char) (offset : Nat) : SourceLine :=
  let lines := sourceLines content
  (lines.find? fun l => l.start ≤ offset && offset < l.stop).getD (lines.getLastD default)

/-- The characters of a line in front of an offset. -/
def SourceLine.upTo (line : SourceLine) (offset : Nat) : List Char :=
  textBefore line.text (offset - line.start)

/-! ## Excerpts -/

/-- An empty range covers the character behind it, if there is one. -/
def shownRange (range : TextRange) (limit : Nat) : TextRange :=
  if range.start = range.stop then ⟨range.start, min (range.start + 1) limit⟩ else range

/-- A row of one character. -/
def row (c : Char) (length : Nat) : String := String.ofList (List.replicate length c)

/-- A text in front of which some blanks stand. -/
def indented (width : Nat) (text : String) : String := row ' ' width ++ text

/-- The word in front of a message. -/
def titleMark : String := "error: "

/-- A message behind its mark. Further lines of it start below its first character. -/
def title (message : String) : String :=
  titleMark ++ String.ofList ((shownText message.toList).flatMap fun c =>
    if c == '\n' then c :: List.replicate titleMark.length ' ' else [c])

/-- The message, the place, the line and the carets. The column in the place counts
characters, with the line break as one; the carets are laid out in cells and stay behind the
last character of the line. -/
def excerptIn (source : Source) (d : Diagnostic) : String :=
  let content := source.content.toList
  let range := shownRange d.span.range (byteLength content)
  let line := lineAt content range.start
  let before := line.upTo range.start
  let beyond := if range.start - line.start > byteLength line.text then 1 else 0
  let carets := max 1 (cellsOf (line.upTo range.stop) - cellsOf before)
  let number := toString line.number
  let width := number.length
  let column := toString (before.length + beyond + 1)
  let shown := cutLine line.text (cellsOf before)
  let code := if shown.text.isEmpty then "" else " " ++ String.ofList shown.text
  let indent := row ' ' (cellsOf before - shown.cells)
  "\n".intercalate
    [title d.message,
      indented width "--> " ++ source.path ++ ":" ++ number ++ ":" ++ column,
      indented width " |",
      number ++ " |" ++ code,
      indented width " | " ++ indent ++ row '^' carets ++ " " ++ d.kind.label]

namespace Diagnostic

/-- One diagnostic; of an unknown source only the message is shown. -/
def excerpt (sources : SourceMap) (d : Diagnostic) : String :=
  match sources.get? d.span.source with
  | none => titleMark ++ d.message ++ "\n"
  | some source => excerptIn source d

/-- A batch, with a line break between two excerpts. -/
def excerptAll (sources : SourceMap) (batch : List Diagnostic) : String :=
  "\n".intercalate (batch.map (excerpt sources))

end Diagnostic

end RubySig
