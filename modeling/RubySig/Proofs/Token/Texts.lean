import RubySig.Proofs.Token.Kinds

/-!
# Words of texts that are put together

The words of a text that begins with a word, a symbol, a number, a quoted text or a piece of
punctuation are that word and the words of the rest, if the rest keeps away from the characters that
the first one is open to.

* `Avoids`: how a text goes on.
* `words_append_of_openTo`: the words of a text that begins with a token.
* `words_blank_append`: a blank does not matter.
* `words_literal`: the words of a text that begins with punctuation.
-/

namespace RubySig

/-! ## What follows -/

/-- A text does not begin with a character of a set. -/
def Avoids (set : Char → Bool) (rest : String) : Prop := ∀ c ∈ rest.toList.head?, set c = false

theorem avoids_empty (set : Char → Bool) : Avoids set "" := by
  intro c hc
  rw [String.toList_empty] at hc
  cases hc

theorem avoids_noChar (rest : String) : Avoids noChar rest := fun _ _ => rfl

/-- Only the beginning matters. -/
theorem avoids_append {set : Char → Bool} {text : String}
    (h : text.toList.head?.any (fun c => !set c) = true) (rest : String) :
    Avoids set (text ++ rest) := by
  obtain ⟨c, cs, htext⟩ : ∃ c cs, text.toList = c :: cs := by
    refine List.exists_cons_of_ne_nil fun hnil => ?_
    rw [hnil] at h
    cases h
  rw [htext] at h
  intro d hd
  rw [String.toList_append, htext] at hd
  cases hd
  simpa using h

/-- The characters that do not follow a type. -/
def inType (c : Char) : Bool := !(c == ',' || c == ']' || c == ')' || c == ' ')

/-- What follows a type keeps away from a character that does not follow types. -/
theorem Avoids.mono {set set' : Char → Bool} {rest : String} (h : Avoids set rest)
    (hset : ∀ c, set c = false → set' c = false) : Avoids set' rest :=
  fun c hc => hset c (h c hc)

/-- What follows a type also ends a token that is open to none of its four characters. -/
theorem Avoids.of_inType {set : Char → Bool} {rest : String} (h : Avoids inType rest)
    (hset : (set ',' || set ']' || set ')' || set ' ') = false) : Avoids set rest := by
  refine h.mono fun c hc => ?_
  simp only [inType, Bool.not_eq_false', Bool.or_eq_true, beq_iff_eq] at hc
  simp only [Bool.or_eq_false_iff] at hset
  rcases hc with ((rfl | rfl) | rfl) | rfl
  · exact hset.1.1.1
  · exact hset.1.1.2
  · exact hset.1.2
  · exact hset.2

/-! ## Tokens -/

theorem words_append_of_openTo {kind : TokenKind} {text rest : String} {set : Char → Bool}
    (h : kind.Spells text.toList) (hopen : OpenTo set text.toList) (hrest : Avoids set rest)
    (hkind : kind ≠ .garbage ∧ kind.isTrivia = false) :
    words (text ++ rest) = (kind, text) :: words rest := by
  rw [words_append h hkind.1 (hopen.stops hrest), if_neg (by rw [hkind.2]; rintro ⟨⟩)]

theorem words_append_of_isWord {kind : TokenKind} {text rest : String}
    (h : kind.Spells text.toList) (hkind : kind.isWord = true) (hrest : Avoids inWord rest) :
    words (text ++ rest) = (kind, text) :: words rest := by
  refine words_append_of_openTo h (openTo_of_isWord h hkind) hrest ?_
  cases kind <;> simp_all [TokenKind.isWord, TokenKind.isTrivia]

/-! ## Blanks -/

/-- Blanks and tabs. -/
def isSpace (c : Char) : Bool := c == ' ' || c == '\t'

theorem survivors_spaces {text : List Char} (hne : text ≠ []) (h : ∀ c ∈ text, isSpace c = true) :
    survivors tokenRules text =
      [⟨.whitespace, .many (.one (.either (.only ' ') (.only '\t')))⟩] := by
  obtain ⟨c, cs, rfl⟩ := List.exists_cons_of_ne_nil hne
  obtain ⟨hc, hcs⟩ := List.forall_mem_cons.1 h
  have hfirst : survivors tokenRules [c] =
      [⟨.whitespace, .many (.one (.either (.only ' ') (.only '\t')))⟩] := by
    rw [isSpace, Bool.or_eq_true, beq_iff_eq, beq_iff_eq] at hc
    rcases hc with rfl | rfl <;> decide
  rw [← List.singleton_append, survivors_append, hfirst]
  refine survivors_of_loop (by rintro ⟨⟩) fun d hd => ?_
  have hone : (Pattern.one (.either (.only ' ') (.only '\t'))).derivative d = .nothing :=
    if_pos (hcs d hd)
  rw [Pattern.derivative, hone]
  rfl

/-- Blanks in front of a text make no words. -/
theorem wordsOf_cut_spaces {text rest : List Char} (h : ∀ c ∈ text, isSpace c = true)
    (hrest : ∀ c ∈ rest.head?, isSpace c = false) :
    wordsOf (cut tokenRules (text ++ rest)) = wordsOf (cut tokenRules rest) := by
  by_cases hne : text = []
  · rw [hne, List.nil_append]
  · have hall := survivors_spaces hne h
    have hspells : TokenKind.whitespace.Spells text := by
      rw [TokenKind.Spells, hall]
      rfl
    have hopen : OpenTo isSpace text := by
      rw [OpenTo, hall]
      exact List.forall_mem_singleton.2 rfl
    rw [cut_append hspells (by rintro ⟨⟩) (hopen.stops hrest)]
    rfl

/-- A blank in front of a text does not matter. -/
theorem words_blank_append (rest : String) : words (" " ++ rest) = words rest := by
  have hsplit : rest.toList.takeWhile isSpace ++ rest.toList.dropWhile isSpace = rest.toList :=
    List.takeWhile_append_dropWhile
  have hspaces : ∀ c ∈ rest.toList.takeWhile isSpace, isSpace c = true :=
    fun _ hc => List.all_eq_true.1 List.all_takeWhile _ hc
  have hrest : ∀ c ∈ (rest.toList.dropWhile isSpace).head?, isSpace c = false := by
    intro c hc
    have := List.head?_dropWhile_not isSpace rest.toList
    rw [Option.mem_def.1 hc] at this
    simpa using this
  rw [words_eq, words_eq, String.toList_append, ← hsplit, wordsOf_cut_spaces hspaces hrest,
    ← List.append_assoc]
  exact wordsOf_cut_spaces (List.forall_mem_cons.2 ⟨rfl, hspaces⟩) hrest

/-! ## Punctuation -/

/-- How the punctuation of types is written. -/
def punctuation : TokenKind → String
  | .parenOpen => "("
  | .parenClose => ")"
  | .bracketOpen => "["
  | .bracketClose => "]"
  | .braceOpen => "\x7b"
  | .braceClose => "\x7d"
  | .doubleColon => "::"
  | .comma => ","
  | .arrow => "->"
  | .fatArrow => "=>"
  | .caret => "^"
  | .pipe => "|"
  | .amp => "&"
  | .question => "?"
  | .starStar => "**"
  | .whitespace => " "
  | _ => ""

/-- The kinds of this punctuation. -/
def punctuationKinds : List TokenKind :=
  [.parenOpen, .parenClose, .bracketOpen, .bracketClose, .braceOpen, .braceClose, .doubleColon,
    .comma, .arrow, .fatArrow, .caret, .pipe, .amp, .question, .starStar, .whitespace]

/-- Punctuation in front of a text is a word of its own. -/
theorem words_punctuation_append {kind : TokenKind} (hkind : kind ∈ punctuationKinds)
    (rest : String) : words (punctuation kind ++ rest) =
      if kind.isTrivia then words rest else (kind, punctuation kind) :: words rest := by
  by_cases hblank : kind = .whitespace
  · rw [hblank]
    exact words_blank_append rest
  · have hclosed : ∀ kind ∈ punctuationKinds, kind ≠ .whitespace →
        kind.Spells (punctuation kind).toList ∧ OpenTo noChar (punctuation kind).toList ∧
          kind ≠ .garbage := by
      decide +kernel
    obtain ⟨hspells, hopen, hgarbage⟩ := hclosed kind hkind hblank
    exact words_append hspells hgarbage (hopen.stops (avoids_noChar rest))

/-- The words of a text that begins with several pieces of punctuation. -/
theorem words_literal (text : String) (kinds : List TokenKind)
    (h : text = String.join (kinds.map punctuation) ∧ ∀ kind ∈ kinds, kind ∈ punctuationKinds)
    (rest : String) :
    words (text ++ rest) =
      (kinds.filter fun kind => !kind.isTrivia).map (fun kind => (kind, punctuation kind)) ++
        words rest := by
  rw [h.1]
  have hkinds := h.2
  clear h
  induction kinds with
  | nil => rw [List.map_nil, String.join_nil, String.empty_append]; rfl
  | cons kind kinds ih =>
    obtain ⟨hkind, hrest⟩ := List.forall_mem_cons.1 hkinds
    rw [List.map_cons, String.join_cons, String.append_assoc, words_punctuation_append hkind,
      ih hrest]
    cases htrivia : kind.isTrivia <;> simp [htrivia]

end RubySig
