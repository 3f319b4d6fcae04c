import RubySig.Text.CharClass

/-!
# Columns on a screen

On a screen with cells of one size most characters take one cell, those of the East
Asian scripts and most pictures take two, and marks that combine with a character next to
them take none. A row of marks under a text is laid out in cells.

* `cellWidth`, `cellsOf`: the cells of a character and of a text.
* `shownChar`, `shownText`: what stands for a character that has no picture of its own.
* `dropCells`: a text without its first cells.
-/

namespace RubySig

/-- The number of cells of a tab, which is shown as blanks. -/
def tabWidth : Nat := 4

/-- Whether a character steers a device and has no picture. -/
def isControl (c : Char) : Bool := c.toNat < 32 || c.toNat == 127

/-- Whether a character only changes the direction of the text around it. -/
def isDirection (c : Char) : Bool := inRanges [(0x202A, 0x202E), (0x2066, 0x2069)] c.toNat

/-- Whether a character has no cell of its own. -/
def isCellless (c : Char) : Bool :=
  [ignorableRanges, extenderRanges, jamoRanges, leadRanges].any (inRanges · c.toNat)

/-- The number of cells of a character. A change of direction has one, because a sign is
shown for it; U+17D8 is the one character drawn as three letters. -/
def cellWidth (c : Char) : Nat :=
  if c == '\t' then tabWidth
  else if c.toNat < 128 || isDirection c then 1
  else if isCellless c then 0
  else if c.toNat == 0x17D8 then 3
  else if inRanges wideRanges c.toNat then 2
  else 1

/-- The number of cells of a text. -/
def cellsOf (text : List Char) : Nat := (text.map cellWidth).foldr (· + ·) 0

/-- What is shown for a character: a tab as blanks, a control character as its symbol, a
change of direction as the replacement character, and a joiner not at all. -/
def shownChar (c : Char) : List Char :=
  if c == '\t' then List.replicate tabWidth ' '
  else if c == '\n' then [c]
  else if c.toNat == 127 then ['\u2421']
  else if isControl c then [Char.ofNat (0x2400 + c.toNat)]
  else if c.toNat == 0x200D then []
  else if isDirection c then ['\uFFFD']
  else [c]

/-- What is shown for a text. -/
def shownText (text : List Char) : List Char := text.flatMap shownChar

/-- Takes characters off the front of a text until at least `n` cells are gone. Gives the
number of cells that went, which is more than `n` if the last character was wider than what
was left to take, and the rest of the text. -/
def dropCells : Nat → List Char → Nat × List Char
  | 0, text => (0, text)
  | _ + 1, [] => (0, [])
  | n + 1, c :: text =>
    let (gone, rest) := dropCells (n + 1 - cellWidth c) text
    (cellWidth c + gone, rest)

end RubySig
