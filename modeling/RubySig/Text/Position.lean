/-!
# Positions in a text

Offsets count UTF-8 bytes. A position shown to a reader is a line, counted from one,
and a column, counted in characters from zero.

* `takeBytes?`: the characters that make up the first bytes of a text.
* `lineColumn`: the position of an offset.
* `TextRange`: a half-open range of offsets.
-/

namespace RubySig

/-- The number of bytes of a list of characters. -/
def byteLength (text : List Char) : Nat := (text.map Char.utf8Size).foldr (· + ·) 0

/-- The characters that make up exactly the first `n` bytes, if `n` is a boundary between
characters. -/
def takeBytes? : Nat → List Char → Option (List Char)
  | 0, _ => some []
  | _ + 1, [] => none
  | n + 1, c :: cs =>
    if c.utf8Size ≤ n + 1 then (takeBytes? (n + 1 - c.utf8Size) cs).map (c :: ·) else none

/-- The text in front of an offset. An offset beyond the end stands for the end, and so
does an offset inside a character. -/
def textBefore (content : List Char) (offset : Nat) : List Char :=
  (takeBytes? (min offset (byteLength content)) content).getD content

/-- The position right after a text: its newlines and one, and the characters after the
last newline. -/
def positionAfter (before : List Char) : Nat × Nat :=
  (before.count '\n' + 1, (before.reverse.takeWhile (· != '\n')).length)

/-- The line and column of an offset. -/
def lineColumn (content : String) (offset : Nat) : Nat × Nat :=
  positionAfter (textBefore content.toList offset)

/-- A range of byte offsets, without its end. -/
structure TextRange where
  /-- The first offset. -/
  start : Nat
  /-- The offset after the last one. -/
  stop : Nat
  deriving Repr, Inhabited, DecidableEq

namespace TextRange

/-- The empty range at an offset. -/
def emptyAt (offset : Nat) : TextRange := ⟨offset, offset⟩

/-- The smallest range that contains both. -/
def cover (a b : TextRange) : TextRange := ⟨min a.start b.start, max a.stop b.stop⟩

end TextRange

end RubySig
