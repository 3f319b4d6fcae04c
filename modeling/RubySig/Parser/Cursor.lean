import RubySig.Parser.Lexeme
import RubySig.Source

/-!
# The cursor of the parser

The grammar rules are programs over a `Cursor`: the lexemes that are still to be read
and some counters. A rule that fails stops the whole file with a `Stop`.

* `Cursor`, `Stop`, `Fault`, `Parser`: the state and the ways to stop.
* `look`, `bump`, `eat`, `expect`, `unexpected`: the steps from which rules are built.
* `nested`: a step into a deeper level of the grammar.
* `separated`, `repeatedAfter`: repetition, bounded by the number of lexemes left.

Taking a lexeme costs one unit of the step budget, if there is one. The cursor also
counts how often a rule looks at a lexeme before it takes one and how deep the levels
go; these counts never change what is read.
-/

namespace RubySig

/-! ## State and stops -/

/-- A rule of the grammar did something that no text should make it do. -/
inductive Fault
  /-- It took a lexeme after the last one. -/
  | tookBeyondEnd
  /-- It was entered on another lexeme than its own first one. -/
  | wrongStart (expected found : TokenKind)
  /-- It looked too often without taking a lexeme. -/
  | lookedTooOften
  /-- A repetition went on although every lexeme had been taken. -/
  | endlessRepetition
  deriving Repr, Inhabited, DecidableEq

/-- Why parsing stops before the end of the text. -/
inductive Stop
  /-- The text is not in the language. -/
  | syntaxError (message : String) (range : TextRange)
  /-- The step budget is used up. -/
  | execFuelExhausted
  /-- The text is nested too deeply. -/
  | recursionLimitExceeded
  /-- The grammar is at fault. -/
  | fault (f : Fault)
  deriving Repr, Inhabited, DecidableEq

/-- What is still to be read. -/
structure Cursor where
  /-- The source that is read. -/
  source : SourceId
  /-- The length of its text in bytes. -/
  textEnd : Nat
  /-- The lexemes not taken yet. -/
  rest : List Lexeme
  /-- The end of the last lexeme taken. -/
  lastEnd : Nat
  /-- The number of lexemes that may still be taken, unless there is no limit. -/
  fuel : Option Nat
  /-- The number of levels that are open. -/
  depth : Nat
  /-- The greatest number of levels that were open at once. -/
  deepest : Nat
  /-- The number of looks since a lexeme was taken or a level opened or closed. -/
  looks : Nat
  /-- The greatest such number. -/
  mostLooks : Nat
  deriving Repr, Inhabited, DecidableEq

/-- A rule of the grammar. -/
abbrev Parser (α : Type) := EStateM Stop Cursor α

namespace Parser

variable {α : Type}

/-! ## Looking -/

/-- Counts one look. -/
def countLook : Parser Unit := fun c =>
  .ok () { c with looks := c.looks + 1, mostLooks := max c.mostLooks (c.looks + 1) }

/-- The kind of the lexeme `n` places ahead. -/
def peek (n : Nat) : Parser TokenKind := do
  countLook
  return ((← get).rest[n]?.map (·.kind)).getD .endOfText

/-- The kind of the next lexeme. -/
def look : Parser TokenKind := peek 0

/-- Whether the next lexeme is of a kind. -/
def isAt (kind : TokenKind) : Parser Bool := return (← look) == kind

/-- Whether the lexeme after the next one is of a kind. -/
def isFollowedBy (kind : TokenKind) : Parser Bool := return (← peek 1) == kind

/-- Whether the next lexeme is of one kind and the one after it of another. -/
def isAtPair (kind following : TokenKind) : Parser Bool := do
  if ← isAt kind then isFollowedBy following else return false

/-- Whether every lexeme has been taken. -/
def atEnd : Parser Bool := return (← get).rest.isEmpty

/-- The range of the next lexeme, or the empty range at the end of the text. -/
def currentRange : Parser TextRange := do
  let c ← get
  return (c.rest.head?.map (·.range)).getD (.emptyAt c.textEnd)

/-- The text of the next lexeme. -/
def currentText : Parser String := return ((← get).rest.head?.map (·.text)).getD ""

/-- Where the next lexeme starts. -/
def startOffset : Parser Nat := return (← currentRange).start

/-- Whether the next lexeme touches the one before it. -/
def isAdjacent : Parser Bool := return ((← get).rest.head?.map fun l => !l.spaced).getD false

/-- Whether the lexeme after the next one stands on the same line as the next one. -/
def nextOnSameLine : Parser Bool := return ((← get).rest[1]?.map fun l => !l.onNewLine).getD false

/-! ## Stopping -/

/-- Stops at a range. -/
def failAt (range : TextRange) (message : String) : Parser α := throw (.syntaxError message range)

/-- How an error message names a lexeme. -/
def describe (l : Lexeme) : String :=
  if l.kind == .garbage then "character `" ++ l.text ++ "`" else "`" ++ l.text ++ "`"

/-- Stops at the next lexeme, which is not what a rule needs. -/
def unexpected (what : String) : Parser α := do
  if ← atEnd then
    failAt (← currentRange) ("unexpected end of input, expected " ++ what)
  else
    countLook
    let found := ((← get).rest.head?.map describe).getD ""
    failAt (← currentRange) ("unexpected " ++ found ++ ", expected " ++ what)

/-- Stops with a fault if a rule is not entered on its first lexeme. -/
def assertAt (kind : TokenKind) : Parser Unit := do
  let found ← look
  if found != kind then throw (.fault (.wrongStart kind found))

/-! ## Taking lexemes -/

/-- Takes the next lexeme and returns its text. -/
def bump : Parser String := fun c =>
  match c.rest with
  | [] => .error (.fault .tookBeyondEnd) c
  | l :: rest =>
    match c.fuel with
    | some 0 => .error .execFuelExhausted c
    | fuel =>
      .ok l.text
        { c with rest := rest, lastEnd := l.range.stop, fuel := fuel.map (· - 1), looks := 0 }

/-- Takes the next lexeme if it is of a kind, and says whether it did. -/
def eat (kind : TokenKind) : Parser Bool := do
  if ← isAt kind then
    let _ ← bump
    return true
  else return false

/-- Takes the next lexeme, which has to be of a kind. -/
def expect (kind : TokenKind) (what : String) : Parser TextRange := do
  if ← isAt kind then
    let range ← currentRange
    let _ ← bump
    return range
  else unexpected what

/-! ## Spans -/

/-- A range of the source that is read. -/
def spanOf (range : TextRange) : Parser Span := return ⟨(← get).source, range⟩

/-- From an offset to the end of the last lexeme taken. -/
def rangeFrom (start : Nat) : Parser TextRange := return ⟨start, max (← get).lastEnd start⟩

/-- `rangeFrom` in the source that is read. -/
def spanFrom (start : Nat) : Parser Span := do spanOf (← rangeFrom start)

/-! ## Levels -/

/-- Opens a level. -/
def openLevel : Parser Unit := fun c =>
  .ok () { c with depth := c.depth + 1, deepest := max c.deepest (c.depth + 1), looks := 0 }

/-- Closes a level. -/
def closeLevel : Parser Unit := fun c => .ok () { c with depth := c.depth - 1, looks := 0 }

/-- Runs a rule one level deeper. -/
def nested (p : Parser α) : Parser α := do
  openLevel
  let a ← p
  closeLevel
  return a

/-- Stops because no deeper level is allowed. -/
def tooDeep : Parser α := throw .recursionLimitExceeded

/-! ## Repetition -/

/-- A bound on the rounds of a repetition in which every round but the last takes a
lexeme. -/
def rounds : Parser Nat := return (← get).rest.length + 1

/-- `separated` for at most a given number of rounds. -/
def separatedWithin (separator : TokenKind) (p : Parser α) : Nat → Parser (List α)
  | 0 => throw (.fault .endlessRepetition)
  | n + 1 => do
    let a ← p
    if ← eat separator then return a :: (← separatedWithin separator p n)
    else return [a]

/-- One `p`, and another one behind every separator. -/
def separated (separator : TokenKind) (p : Parser α) : Parser (List α) := do
  separatedWithin separator p (← rounds)

/-- `separatedUntil` for at most a given number of rounds. -/
def separatedUntilWithin (close separator : TokenKind) (p : Parser α) : Nat → Parser (List α)
  | 0 => throw (.fault .endlessRepetition)
  | n + 1 => do
    if ← isAt close then return []
    else
      let a ← p
      if ← eat separator then return a :: (← separatedUntilWithin close separator p n)
      else return [a]

/-- Any number of `p` with separators between them. A separator may stand behind the last
one, in front of the closing lexeme, which is not taken. -/
def separatedUntil (close separator : TokenKind) (p : Parser α) : Parser (List α) := do
  separatedUntilWithin close separator p (← rounds)

/-- `repeatedAfter` for at most a given number of rounds. -/
def repeatedAfterWithin (mark : TokenKind) (p : Parser α) : Nat → Parser (List α)
  | 0 => throw (.fault .endlessRepetition)
  | n + 1 => do
    if ← eat mark then
      let a ← p
      return a :: (← repeatedAfterWithin mark p n)
    else return []

/-- One `p` behind every mark. -/
def repeatedAfter (mark : TokenKind) (p : Parser α) : Parser (List α) := do
  repeatedAfterWithin mark p (← rounds)

end Parser

end RubySig
