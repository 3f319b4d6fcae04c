import RubySig.Text.Width

/-!
# Lines that begin far to the right

A line with many blanks in front is shown without most of them:

    2 | ...                   def a: () -> Nope
      |                                    ^^^^

The blanks in front of the text count, as far as they are also in front of the marked span.
Six of them are set aside as room for the dots. If more than twenty are left, all but
sixteen of these go.

* `leadingBlanks`: the columns of blanks in front of a line.
* `marginCut`: the number of cells to leave out.
* `CutLine`, `cutLine`: the line as it is shown.
-/

namespace RubySig

/-- The number of blanks set aside for the dots. -/
def cutMarkRoom : Nat := 6

/-- The number of further blanks that a line may begin with and stay whole. -/
def longMargin : Nat := 20

/-- The number of further blanks that a shortened line keeps. -/
def keptMargin : Nat := 16

/-- The sign for the part of a line that was left out. -/
def cutMark : List Char := "...".toList

/-- The columns of one blank, whatever its width is, except for a tab. -/
def blankColumns (c : Char) : Nat := if c == '\t' then tabWidth else 1

/-- The columns of the blanks in front of a line. A line of blanks only has no text that they
could be in front of. -/
def leadingBlanks (line : List Char) : Nat :=
  if line.all isBlank then 0 else ((line.takeWhile isBlank).map blankColumns).foldr (· + ·) 0

/-- The number of cells to leave out of a line in which the marked span begins after the given
number of cells. -/
def marginCut (line : List Char) (spanStart : Nat) : Nat :=
  let margin := min (leadingBlanks line) spanStart - cutMarkRoom
  if margin > longMargin then margin - keptMargin else 0

/-- A line as it is shown. -/
structure CutLine where
  /-- The number of cells that were left out. -/
  cells : Nat
  /-- What is shown, with the dots. -/
  text : List Char
  deriving Repr, Inhabited, DecidableEq

/-- Puts the dots in place of the first cells of a text. If a wide character is in the way, it
goes as a whole, and blanks behind the dots fill up its place. -/
def withCutMark (text : List Char) : List Char :=
  let (gone, rest) := dropCells cutMark.length text
  cutMark ++ List.replicate (gone - cutMark.length) ' ' ++ rest

/-- A line without the cells that `marginCut` leaves out. -/
def cutLine (line : List Char) (spanStart : Nat) : CutLine :=
  let cut := marginCut line spanStart
  let (gone, rest) := dropCells cut (shownText line)
  if cut = 0 then ⟨0, rest⟩ else ⟨gone, withCutMark rest⟩

end RubySig
