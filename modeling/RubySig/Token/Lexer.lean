import RubySig.Token

/-!
# Cutting a text into tokens

At each place the rules read the text side by side. The longest piece that some rule
describes becomes a token. Where no rule describes any piece, the characters that could
still have begun a token are skipped, at least one of them, and neighbouring skipped
pieces are one token of kind `garbage`. No character is lost.

* `scan`: how far the rules get at one place.
* `cut`: the pieces of a text with their kinds.
* `Token.ofText`: the tokens of a text, with byte ranges.
-/

namespace RubySig

/-! ## One piece -/

/-- Lets every rule read one more character and drops those that cannot go on. -/
def advance (c : Char) (rules : List TokenRule) : List TokenRule :=
  (rules.map fun r => ⟨r.kind, r.pattern.derivative c⟩).filter fun r => r.pattern != .never

/-- The kind of the first rule that could stop here. -/
def accepted? (rules : List TokenRule) : Option TokenKind :=
  (rules.find? fun r => r.pattern.nullable).map (·.kind)

/-- What the rules found at one place. -/
structure Scan where
  /-- The longest piece so far, by its kind and number of characters. -/
  best : Option (TokenKind × Nat)
  /-- The number of characters after which some rule could still go on. -/
  alive : Nat
  deriving Repr, Inhabited, DecidableEq

/-- Reads on after `n` characters with the rules that are still possible. -/
def scanFrom (rules : List TokenRule) (found : Scan) (n : Nat) : List Char → Scan
  | [] => found
  | c :: cs =>
    let next := advance c rules
    if next.isEmpty then found
    else
      let best := ((accepted? next).map fun kind => (kind, n + 1)).or found.best
      scanFrom next ⟨best, n + 1⟩ (n + 1) cs

/-- What the rules find at the beginning of a text. -/
def scan (rules : List TokenRule) (text : List Char) : Scan := scanFrom rules ⟨none, 0⟩ 0 text

/-- The kind and length of the first piece of a text that is not empty. -/
def firstPiece (rules : List TokenRule) (text : List Char) : TokenKind × Nat :=
  let found := scan rules text
  found.best.getD (.garbage, max 1 found.alive)

/-! ## All pieces -/

/-- Cuts a text into pieces, garbage in the small pieces in which it was skipped. -/
def cutRaw (rules : List TokenRule) : List Char → List (TokenKind × List Char)
  | [] => []
  | c :: cs =>
    let piece := firstPiece rules (c :: cs)
    (piece.1, c :: cs.take (piece.2 - 1)) :: cutRaw rules (cs.drop (piece.2 - 1))
  termination_by text => text.length
  decreasing_by
    simp only [List.length_drop, List.length_cons]
    omega

/-- Joins neighbouring pieces of garbage. -/
def joinGarbage : List (TokenKind × List Char) → List (TokenKind × List Char)
  | [] => []
  | (kind, text) :: rest =>
    match kind, joinGarbage rest with
    | .garbage, (.garbage, more) :: others => (.garbage, text ++ more) :: others
    | _, others => (kind, text) :: others

/-- Cuts a text into pieces. -/
def cut (rules : List TokenRule) (text : List Char) : List (TokenKind × List Char) :=
  joinGarbage (cutRaw rules text)

/-- Gives every piece its range, the first one starting at `offset`. -/
def place (offset : Nat) : List (TokenKind × List Char) → List Token
  | [] => []
  | (kind, text) :: rest =>
    let stop := offset + byteLength text
    ⟨kind, String.ofList text, ⟨offset, stop⟩⟩ :: place stop rest

/-- The tokens of a text. -/
def Token.ofText (text : String) : List Token := place 0 (cut tokenRules text.toList)

/-! ## No character is lost -/

/-- The pieces of a text, one after the other, are the text. -/
theorem flatten_cutRaw (rules : List TokenRule) (text : List Char) :
    ((cutRaw rules text).map (·.2)).flatten = text := by
  fun_induction cutRaw rules text with
  | case1 => rfl
  | case2 c cs piece ih => simp [ih]

theorem flatten_joinGarbage (ps : List (TokenKind × List Char)) :
    ((joinGarbage ps).map (·.2)).flatten = (ps.map (·.2)).flatten := by
  fun_induction joinGarbage ps <;> simp_all

theorem flatten_cut (rules : List TokenRule) (text : List Char) :
    ((cut rules text).map (·.2)).flatten = text := by
  rw [cut, flatten_joinGarbage, flatten_cutRaw]

end RubySig
