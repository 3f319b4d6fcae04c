import RubySig.Token.Lexer

/-!
# Lexemes

The grammar reads the meaningful tokens only. Of the layout between them it can ask two
things: whether anything stands in front of a token, and whether a line break does.

* `Lexeme`: a token that is not trivia, with these two answers.
* `Lexeme.ofTokens`: the lexemes of a token list.
-/

namespace RubySig

/-- A token that is not trivia. -/
structure Lexeme where
  /-- What it is. -/
  kind : TokenKind
  /-- Its text. -/
  text : String
  /-- Where it stands. -/
  range : TextRange
  /-- Whether trivia stands between it and the token before it. -/
  spaced : Bool
  /-- Whether a line break is part of that trivia. -/
  onNewLine : Bool
  deriving Repr, Inhabited, DecidableEq

namespace Lexeme

/-- Drops trivia and remembers what was dropped in front of each lexeme. -/
def collect (spaced onNewLine : Bool) : List Token → List Lexeme
  | [] => []
  | t :: rest =>
    if t.kind.isTrivia then collect true (onNewLine || t.kind == .newline) rest
    else ⟨t.kind, t.text, t.range, spaced, onNewLine⟩ :: collect false false rest

/-- The lexemes of a token list. -/
def ofTokens (tokens : List Token) : List Lexeme := collect false false tokens

/-- The lexemes of a text. -/
def ofText (text : String) : List Lexeme := ofTokens (Token.ofText text)

end Lexeme

end RubySig
