import RubySig.Parser.Types
import RubySig.Proofs.Token.Openness

/-!
# Words, symbols, numbers and quoted texts

What tokens of each kind look like, and the characters that they are open to: quoted texts to none,
words and numbers to those of a word, symbols to those of a word and to a mark if they have none.

* `survivors_of_inWord`: which rules a first character leaves.
* `openTo_of_isWord`, `openTo_of_symbol`, `openTo_of_string`: by kinds of tokens.
* `symbol_cases`, `exists_of_isMarked`: the name in a symbol is a word, perhaps with a mark.
* `spells_integer`, `integerValue_toString`: a printed number is a token, which stands for it.
-/

namespace RubySig

/-! ## Characters -/

/-- The characters that a word can go on with. -/
def inWord (c : Char) : Bool := TokenRule.wordRest.contains c

/-- The marks that a symbol can end with. -/
def isMark (c : Char) : Bool := c == '?' || c == '!' || c == '='

/-- Whether a name ends with a mark. -/
def isMarked (name : String) : Bool := name.toList.getLast?.any isMark

theorem toNat_lt_of_inWord {c : Char} (h : inWord c = true) : c.toNat < 128 := by
  have hbound : TokenRule.wordRest.within (fun c => c.toNat < 128) = true := rfl
  exact of_decide_eq_true (CharClass.mem_of_within hbound h)

/-- The characters of words can be looked up in a table. -/
theorem forall_of_table (holds : Char → Prop)
    (h : ∀ n < 128, inWord (Char.ofNat n) = true → holds (Char.ofNat n)) {c : Char}
    (hc : inWord c = true) : holds c := by
  have hlookup := h c.toNat (toNat_lt_of_inWord hc)
  rw [Char.ofNat_toNat] at hlookup
  exact hlookup hc

/-- The characters that a word can begin with. -/
def beginsWord (c : Char) : Bool := TokenRule.wordStart.contains c

theorem inWord_of_beginsWord {c : Char} (h : beginsWord c = true) : inWord c = true :=
  Bool.or_eq_true_iff.2 (Or.inl h)

/-- A number behind its first digit. -/
def numberRest : Pattern := .many (.one TokenRule.digit)

/-- A letter or an underscore begins words only, one of which goes on like any word unless it is an
underscore, and a digit begins numbers only. -/
theorem survivors_of_inWord {c : Char} (hc : inWord c = true) :
    (beginsWord c = true → ∀ r ∈ survivors tokenRules [c], r.kind.isWord = true) ∧
    (beginsWord c = true → c = '_' ∨
      ∃ r ∈ survivors tokenRules [c], r.pattern = TokenRule.tail) ∧
    (TokenRule.digit.contains c = true →
      survivors tokenRules [c] = [⟨.integerLit, numberRest⟩]) :=
  forall_of_table (fun c =>
    (beginsWord c = true → ∀ r ∈ survivors tokenRules [c], r.kind.isWord = true) ∧
    (beginsWord c = true → c = '_' ∨
      ∃ r ∈ survivors tokenRules [c], r.pattern = TokenRule.tail) ∧
    (TokenRule.digit.contains c = true →
      survivors tokenRules [c] = [⟨.integerLit, numberRest⟩]))
    (by decide +kernel) hc

/-! ## Words -/

theorem within_of_isWord :
    ∀ r ∈ tokenRules, r.kind.isWord = true → r.pattern.within inWord = true := by
  decide

theorem openTo_of_forall_inWord {text : List Char} (hne : text ≠ [])
    (h : ∀ c ∈ text, inWord c = true) : OpenTo inWord text := by
  obtain ⟨c, cs, rfl⟩ := List.exists_cons_of_ne_nil hne
  have hc := h c List.mem_cons_self
  obtain ⟨hwords, -, hnumbers⟩ := survivors_of_inWord hc
  have hfirst : OpenTo inWord [c] := by
    rcases Bool.or_eq_true_iff.1 hc with hbegins | hdigit
    · intro r hr
      obtain ⟨⟨r', hr', hkind, hpattern⟩, -⟩ := mem_advance.1 hr
      rw [hpattern]
      exact Pattern.within_derivative (within_of_isWord r' hr' (hkind ▸ hwords hbegins r hr))
    · rw [OpenTo, hnumbers hdigit]
      exact List.forall_mem_singleton.2 rfl
  exact hfirst.append cs

/-- A word goes on with characters of a word only. -/
theorem openTo_of_isWord {kind : TokenKind} {text : List Char} (h : kind.Spells text)
    (hkind : kind.isWord = true) : OpenTo inWord text := by
  obtain ⟨r, hr, rfl, hmatches⟩ := h.exists_rule
  refine openTo_of_forall_inWord ?_ (Pattern.mem_of_matches hmatches (within_of_isWord r hr hkind))
  rintro rfl
  exact not_spells_nil _ h

theorem derivative_seq_one (cls : CharClass) (p : Pattern) (c : Char) :
    (Pattern.seq (.one cls) p).derivative c = if cls.contains c then p else .never := by
  show Pattern.mkSeq (if cls.contains c then .nothing else .never) p = _
  split <;> rfl

theorem derivative_tail {c : Char} (hc : inWord c = true) :
    TokenRule.tail.derivative c = TokenRule.tail := by
  have hone : (Pattern.one TokenRule.wordRest).derivative c = .nothing := if_pos hc
  rw [TokenRule.tail, Pattern.derivative, hone]
  rfl

/-- A rule that reads the rest of a word goes on through it. -/
theorem mem_survivors_of_inWord {kind : TokenKind} {rules : List TokenRule} {text : List Char}
    (hmem : ⟨kind, TokenRule.tail⟩ ∈ rules) (h : ∀ c ∈ text, inWord c = true) :
    ⟨kind, TokenRule.tail⟩ ∈ survivors rules text := by
  induction text generalizing rules with
  | nil => exact hmem
  | cons c text ih =>
    obtain ⟨hc, htext⟩ := List.forall_mem_cons.1 h
    exact ih (mem_advance.2 ⟨⟨_, hmem, rfl, (derivative_tail hc).symm⟩, (by rintro ⟨⟩)⟩) htext

/-- What a rule for words is left with behind an underscore. -/
def underscoreRest : Pattern :=
  .optional (.seq (.one (.either TokenRule.lower (.either TokenRule.digit (.only '_'))))
    TokenRule.tail)

/-- An underscore can begin two kinds of words, which the next character tells apart. -/
theorem survivors_underscore : survivors tokenRules ['_'] =
    [⟨.lowerIdent, underscoreRest⟩,
      ⟨.interfaceIdent, .seq (.one TokenRule.upper) TokenRule.tail⟩] := by
  decide

theorem exists_tail_of_underscore {c : Char} (hc : inWord c = true) :
    ∃ r ∈ survivors tokenRules ['_', c], r.pattern = TokenRule.tail := by
  rw [show ['_', c] = ['_'] ++ [c] from rfl, survivors_append, survivors_underscore]
  by_cases hupper : TokenRule.upper.contains c = true
  · refine ⟨⟨.interfaceIdent, TokenRule.tail⟩, mem_advance.2 ⟨⟨_, List.mem_cons_of_mem _
      List.mem_cons_self, rfl, ?_⟩, (by rintro ⟨⟩)⟩, rfl⟩
    rw [derivative_seq_one, if_pos hupper]
  · have hlower : (CharClass.either TokenRule.lower
        (.either TokenRule.digit (.only '_'))).contains c = true := by
      simp only [inWord, TokenRule.wordRest, TokenRule.wordStart, CharClass.contains,
        Bool.or_eq_true] at hc ⊢
      rcases hc with (h | h | h) | h
      · exact absurd h hupper
      · exact Or.inl h
      · exact Or.inr (Or.inr h)
      · exact Or.inr (Or.inl h)
    refine ⟨⟨.lowerIdent, TokenRule.tail⟩, mem_advance.2 ⟨⟨_, List.mem_cons_self, rfl, ?_⟩,
      (by rintro ⟨⟩)⟩, rfl⟩
    rw [underscoreRest, Pattern.optional, Pattern.derivative, derivative_seq_one, if_pos hlower]
    rfl

/-- Some rule reads the whole of what begins like a word and goes on like one. -/
theorem exists_nullable_of_word {c : Char} {text : List Char} (hc : beginsWord c = true)
    (h : ∀ d ∈ text, inWord d = true) :
    ∃ r ∈ survivors tokenRules (c :: text), r.pattern.nullable = true := by
  rcases (survivors_of_inWord (inWord_of_beginsWord hc)).2.1 hc with rfl | ⟨⟨kind, p⟩, hr, rfl⟩
  · cases text with
    | nil =>
      rw [survivors_underscore]
      exact ⟨_, List.mem_cons_self, rfl⟩
    | cons d text =>
      obtain ⟨hd, htext⟩ := List.forall_mem_cons.1 h
      obtain ⟨⟨kind, p⟩, hr, rfl⟩ := exists_tail_of_underscore hd
      have hmem := mem_survivors_of_inWord hr htext
      exact ⟨_, hmem, rfl⟩
  · have hmem := mem_survivors_of_inWord hr h
    exact ⟨_, hmem, rfl⟩

/-- Whatever begins like a word and goes on like one is a word. -/
theorem exists_isWord {c : Char} {text : List Char} (hc : beginsWord c = true)
    (h : ∀ d ∈ text, inWord d = true) :
    ∃ kind : TokenKind, kind.isWord = true ∧ kind.Spells (c :: text) := by
  obtain ⟨r, hr⟩ := Option.isSome_iff_exists.1
    (List.find?_isSome.2 (exists_nullable_of_word hc h))
  refine ⟨r.kind, ?_, Option.map_eq_some_iff.2 ⟨r, hr, rfl⟩⟩
  have hmem : r ∈ survivors (survivors tokenRules [c]) text := List.mem_of_find?_eq_some hr
  obtain ⟨r', hr', hkind, -⟩ := exists_of_mem_survivors hmem
  rw [hkind]
  exact (survivors_of_inWord (inWord_of_beginsWord hc)).1 hc r' hr'

/-! ## Symbols -/

/-- The marks that a symbol can end with, as a class. -/
def markClass : CharClass := .either (.only '?') (.either (.only '!') (.only '='))

/-- A symbol behind its first letter. -/
def symbolRest : Pattern := .seq TokenRule.tail (.optional (.one markClass))

theorem contains_markClass (c : Char) : markClass.contains c = isMark c :=
  (Bool.or_assoc _ _ _).symm

theorem isMark_of_inWord {c : Char} (hc : inWord c = true) : isMark c = false := by
  cases hmark : isMark c with
  | false => rfl
  | true =>
    simp only [isMark, Bool.or_eq_true, beq_iff_eq] at hmark
    rcases hmark with (rfl | rfl) | rfl <;> cases hc

theorem matches_one_iff {cls : CharClass} {text : List Char} :
    (Pattern.one cls).Matches text ↔ ∃ c, text = [c] ∧ cls.contains c = true := by
  constructor
  · intro h
    cases h with
    | one hc => exact ⟨_, rfl, hc⟩
  · rintro ⟨c, rfl, hc⟩
    exact .one hc

theorem matches_char_iff {c : Char} {text : List Char} :
    (Pattern.char c).Matches text ↔ text = [c] := by
  rw [Pattern.char, matches_one_iff]
  constructor
  · rintro ⟨d, rfl, hd⟩
    rw [CharClass.contains, beq_iff_eq] at hd
    rw [hd]
  · rintro rfl
    exact ⟨c, rfl, beq_self_eq_true c⟩

/-- A symbol is a colon, a word and perhaps a mark. -/
theorem exists_of_symbol {text : List Char} (h : TokenKind.symbolLit.Spells text) :
    ∃ c name marks, text = ':' :: c :: (name ++ marks) ∧ beginsWord c = true ∧
      (∀ d ∈ name, inWord d = true) ∧ (marks = [] ∨ ∃ m, marks = [m] ∧ isMark m = true) := by
  have hrules : ∀ r ∈ tokenRules, r.kind = .symbolLit →
      r.pattern = .seq (.char ':') (.seq (.one TokenRule.wordStart) symbolRest) := by
    decide
  have htail : TokenRule.tail.within inWord = true := rfl
  obtain ⟨r, hr, hkind, hmatches⟩ := h.exists_rule
  rw [hrules r hr hkind] at hmatches
  obtain ⟨colon, _, rfl, hcolon, hmatches⟩ := Pattern.matches_seq_iff.1 hmatches
  obtain ⟨first, _, rfl, hfirst, hmatches⟩ := Pattern.matches_seq_iff.1 hmatches
  obtain ⟨name, marks, rfl, hname, hmarks⟩ := Pattern.matches_seq_iff.1 hmatches
  obtain rfl := matches_char_iff.1 hcolon
  obtain ⟨c, rfl, hc⟩ := matches_one_iff.1 hfirst
  refine ⟨c, name, marks, rfl, hc, Pattern.mem_of_matches hname htail, ?_⟩
  rcases Pattern.matches_alt_iff.1 hmarks with hmark | hnone
  · obtain ⟨m, rfl, hm⟩ := matches_one_iff.1 hmark
    exact Or.inr ⟨m, rfl, contains_markClass m ▸ hm⟩
  · exact Or.inl (Pattern.matches_nothing_iff.1 hnone)

/-- A symbol is the name in it behind a colon. -/
theorem spells_symbolName {text : String} (h : TokenKind.symbolLit.Spells text.toList) :
    TokenKind.symbolLit.Spells (':' :: (Parser.symbolName text).toList) := by
  obtain ⟨c, name, marks, htext, -⟩ := exists_of_symbol h
  rw [Parser.symbolName, String.toList_ofList]
  rw [htext] at h ⊢
  exact h

theorem advance_singleton (c : Char) (kind : TokenKind) (p : Pattern) :
    advance c [⟨kind, p⟩] =
      if p.derivative c = .never then [] else [⟨kind, p.derivative c⟩] := by
  by_cases hnever : p.derivative c = .never <;> simp [advance, hnever]

/-- A rule that every character of a text leaves as it is reads the whole text. -/
theorem survivors_of_loop {kind : TokenKind} {p : Pattern} {text : List Char} (hp : p ≠ .never)
    (h : ∀ c ∈ text, p.derivative c = p) : survivors [⟨kind, p⟩] text = [⟨kind, p⟩] := by
  induction text with
  | nil => rfl
  | cons c text ih =>
    obtain ⟨hc, htext⟩ := List.forall_mem_cons.1 h
    rw [survivors_cons, advance_singleton, hc, if_neg hp, ih htext]

theorem derivative_symbolRest {c : Char} (hc : inWord c = true) :
    symbolRest.derivative c = symbolRest := by
  have hmark : (Pattern.one markClass).derivative c = .never :=
    if_neg (by rw [contains_markClass, isMark_of_inWord hc]; rintro ⟨⟩)
  rw [symbolRest, Pattern.derivative, derivative_tail hc, Pattern.optional, Pattern.derivative,
    hmark]
  rfl

theorem survivors_colon : survivors tokenRules [':'] =
    [⟨.doubleColon, .text [':']⟩, ⟨.colon, .nothing⟩,
      ⟨.symbolLit, .seq (.one TokenRule.wordStart) symbolRest⟩] := by
  decide

/-- Behind a colon a letter can only belong to a symbol. -/
theorem survivors_symbol {c : Char} (hc : beginsWord c = true) :
    survivors tokenRules [':', c] = [⟨.symbolLit, symbolRest⟩] := by
  have hcolon : (CharClass.only ':').contains c = false := by
    refine beq_eq_false_iff_ne.2 ?_
    rintro rfl
    cases hc
  have hstart : TokenRule.wordStart.contains c = true := hc
  have hnothing : Pattern.nothing.derivative c = .never := rfl
  rw [show [':', c] = [':'] ++ [c] from rfl, survivors_append, survivors_colon]
  simp [survivors, advance, Pattern.text, Pattern.char, derivative_seq_one, hnothing, hcolon,
    hstart, symbolRest]

/-- The characters that a symbol can go on with. -/
def inSymbol (c : Char) : Bool := inWord c || isMark c

theorem openTo_of_symbol {text : List Char} (h : TokenKind.symbolLit.Spells text) :
    OpenTo inSymbol text := by
  obtain ⟨c, name, marks, rfl, hc, -, -⟩ := exists_of_symbol h
  have hentered : OpenTo inSymbol [':', c] := by
    rw [OpenTo, survivors_symbol hc]
    exact List.forall_mem_singleton.2 rfl
  exact hentered.append _

/-- No character. -/
def noChar (_ : Char) : Bool := false

/-- Behind the mark of a symbol the rule for symbols is at its end. -/
theorem survivors_marked {c m : Char} {name : List Char} (hc : beginsWord c = true)
    (hname : ∀ d ∈ name, inWord d = true) (hm : isMark m = true) :
    survivors tokenRules (':' :: c :: (name ++ [m])) = [⟨.symbolLit, .nothing⟩] := by
  have hloop : survivors [⟨.symbolLit, symbolRest⟩] name = [⟨.symbolLit, symbolRest⟩] :=
    survivors_of_loop (by rintro ⟨⟩) fun d hd => derivative_symbolRest (hname d hd)
  have hend : survivors [⟨.symbolLit, symbolRest⟩] [m] = [⟨.symbolLit, .nothing⟩] := by
    simp only [isMark, Bool.or_eq_true, beq_iff_eq] at hm
    rcases hm with (rfl | rfl) | rfl <;> rfl
  rw [show ':' :: c :: (name ++ [m]) = [':', c] ++ (name ++ [m]) from rfl, survivors_append,
    survivors_symbol hc, survivors_append, hloop, hend]

/-- Nothing goes on behind the mark of a symbol. -/
theorem openTo_of_marked {c m : Char} {name : List Char} (hc : beginsWord c = true)
    (hname : ∀ d ∈ name, inWord d = true) (hm : isMark m = true) :
    OpenTo noChar (':' :: c :: (name ++ [m])) := by
  rw [OpenTo, survivors_marked hc hname hm]
  exact List.forall_mem_singleton.2 rfl

/-- A name of characters of words has no mark. -/
theorem isMarked_eq_false {name : String} (h : ∀ c ∈ name.toList, inWord c = true) :
    isMarked name = false := by
  cases hlast : name.toList.getLast? with
  | none => rw [isMarked, hlast]; rfl
  | some d =>
    rw [isMarked, hlast]
    exact isMark_of_inWord (h d (List.mem_of_getLast? hlast))

theorem isMarked_append_mark {m : Char} (hm : isMark m = true) (name : String) :
    isMarked (name ++ String.singleton m) = true := by
  rw [isMarked, String.toList_append, String.toList_singleton, List.getLast?_concat]
  exact hm

/-- Whether the name of a symbol is marked decides what can be read behind the symbol and whether
the name is a word. -/
theorem symbol_cases {name : String} (h : TokenKind.symbolLit.Spells (':' :: name.toList)) :
    (isMarked name = true ∧ OpenTo noChar (':' :: name.toList)) ∨
      (isMarked name = false ∧
        ∃ kind : TokenKind, kind.isWord = true ∧ kind.Spells name.toList) := by
  obtain ⟨c, text, marks, htext, hc, hin, rfl | ⟨m, rfl, hm⟩⟩ := exists_of_symbol h
  · rw [List.append_nil] at htext
    have hname : name.toList = c :: text := (List.cons.inj htext).2
    refine Or.inr ⟨isMarked_eq_false ?_, hname ▸ exists_isWord hc hin⟩
    rw [hname]
    exact List.forall_mem_cons.2 ⟨inWord_of_beginsWord hc, hin⟩
  · have hname : name.toList = (c :: text) ++ [m] := (List.cons.inj htext).2
    refine Or.inl ⟨?_, htext ▸ openTo_of_marked hc hin hm⟩
    rw [isMarked, hname, List.getLast?_concat]
    exact hm

/-- The name of a symbol with a mark is a word with the mark behind it. -/
theorem exists_of_isMarked {name : String} (h : TokenKind.symbolLit.Spells (':' :: name.toList))
    (hmarked : isMarked name = true) :
    ∃ (word : String) (m : Char), name = word ++ String.singleton m ∧ isMark m = true ∧
      ∃ kind : TokenKind, kind.isWord = true ∧ kind.Spells word.toList := by
  obtain ⟨c, text, marks, htext, hc, hin, rfl | ⟨m, rfl, hm⟩⟩ := exists_of_symbol h
  · have hname : name.toList = c :: text := by simpa using (List.cons.inj htext).2
    have hplain : isMarked name = false := isMarked_eq_false (by
      rw [hname]
      exact List.forall_mem_cons.2 ⟨inWord_of_beginsWord hc, hin⟩)
    rw [hplain] at hmarked
    cases hmarked
  · have hname : name.toList = (c :: text) ++ [m] := (List.cons.inj htext).2
    refine ⟨String.ofList (c :: text), m, String.toList_injective ?_, hm, ?_⟩
    · rw [hname, String.toList_append, String.toList_ofList, String.toList_singleton]
    · rw [String.toList_ofList]
      exact exists_isWord hc hin

/-- Behind a symbol without a mark there may be one. -/
theorem spells_append_mark {name : String} {m : Char}
    (h : TokenKind.symbolLit.Spells (':' :: name.toList)) (hplain : isMarked name = false)
    (hm : isMark m = true) :
    TokenKind.symbolLit.Spells (':' :: (name ++ String.singleton m).toList) := by
  obtain ⟨c, text, marks, htext, hc, hin, rfl | ⟨m', rfl, hm'⟩⟩ := exists_of_symbol h
  · have hname : name.toList = c :: text := by simpa using (List.cons.inj htext).2
    rw [String.toList_append, String.toList_singleton, hname, TokenKind.Spells, List.cons_append,
      survivors_marked hc hin hm]
    rfl
  · have hname : name.toList = (c :: text) ++ [m'] := (List.cons.inj htext).2
    rw [isMarked, hname, List.getLast?_concat] at hplain
    exact absurd (hplain.symm.trans hm') Bool.false_ne_true

/-! ## Quoted texts -/

/-- What a quoted text consists of. -/
def quotedChar (quote : Char) : Pattern :=
  .alt (.one (.excluding [quote, '\\'])) (.seq (.char '\\') (.one (.excluding ['\n'])))

/-- A quoted text behind its opening quote. -/
def insideQuotes (quote : Char) : Pattern := .seq (.many (quotedChar quote)) (.char quote)

/-- A quoted text behind a backslash. -/
def behindBackslash (quote : Char) : Pattern :=
  .seq (.seq (.one (.excluding ['\n'])) (.many (quotedChar quote))) (.char quote)

/-- What a rule for a quoted text can be left with. -/
def quotedStates (quote : Char) : List Pattern :=
  [insideQuotes quote, behindBackslash quote, .nothing, .never]

theorem derivative_mem_quotedStates {quote : Char} (hquote : quote ≠ '\\') {p : Pattern}
    (hp : p ∈ quotedStates quote) (c : Char) : p.derivative c ∈ quotedStates quote := by
  simp only [quotedStates, List.mem_cons, List.not_mem_nil, or_false] at hp
  rcases hp with rfl | rfl | rfl | rfl
  · by_cases hc : c = quote
    · subst hc
      simp [quotedStates, insideQuotes, quotedChar, Pattern.char, Pattern.derivative,
        Pattern.nullable, Pattern.mkSeq, Pattern.mkAlt, CharClass.contains, hquote]
    · by_cases hslash : c = '\\'
      · subst hslash
        simp [quotedStates, insideQuotes, behindBackslash, quotedChar, Pattern.char,
          Pattern.derivative, Pattern.nullable, Pattern.mkSeq, Pattern.mkAlt, CharClass.contains,
          hquote.symm]
      · simp [quotedStates, insideQuotes, quotedChar, Pattern.char, Pattern.derivative,
          Pattern.nullable, Pattern.mkSeq, Pattern.mkAlt, CharClass.contains, hc, hslash]
  · by_cases hc : c = '\n' <;>
      simp [quotedStates, insideQuotes, behindBackslash, Pattern.derivative, Pattern.nullable,
        Pattern.mkSeq, Pattern.char, CharClass.contains, hc]
  · simp [quotedStates, Pattern.derivative]
  · simp [quotedStates, Pattern.derivative]

theorem survivors_quoted {quote : Char} (hquote : quote ≠ '\\') {kind : TokenKind} {p : Pattern}
    (hp : p ∈ quotedStates quote) (text : List Char) :
    survivors [⟨kind, p⟩] text = [] ∨
      ∃ p' ∈ quotedStates quote, survivors [⟨kind, p⟩] text = [⟨kind, p'⟩] := by
  induction text generalizing p with
  | nil => exact Or.inr ⟨p, hp, rfl⟩
  | cons c text ih =>
    rw [survivors_cons, advance_singleton]
    split
    · exact Or.inl (survivors_of_isEmpty rfl text)
    · exact ih (derivative_mem_quotedStates hquote hp c)

/-- Nothing goes on behind the closing quote. -/
theorem openTo_of_string {text : List Char} (h : TokenKind.stringLit.Spells text) :
    OpenTo noChar text := by
  have hrules : ∀ r ∈ tokenRules, r.kind = .stringLit →
      r.pattern = .alt (TokenRule.quoted '"') (TokenRule.quoted '\'') := by
    decide
  -- where the quote is closed no rule but the closed one is left
  have hclosed : ∀ {quote : Char} {rest : List Char}, quote ≠ '\\' → text = quote :: rest →
      survivors tokenRules [quote] = [⟨.stringLit, insideQuotes quote⟩] → OpenTo noChar text := by
    intro quote rest hquote htext hentered
    have hall : survivors tokenRules text = survivors [⟨.stringLit, insideQuotes quote⟩] rest := by
      rw [← hentered, htext]
      rfl
    rw [TokenKind.Spells, hall] at h
    rw [OpenTo, hall]
    rcases survivors_quoted hquote List.mem_cons_self rest with hnone | ⟨p, hp, hstate⟩
    · rw [hnone] at h
      cases h
    · rw [hstate] at h ⊢
      simp only [quotedStates, List.mem_cons, List.not_mem_nil, or_false] at hp
      rcases hp with rfl | rfl | rfl | rfl
      · cases h
      · cases h
      · exact List.forall_mem_singleton.2 rfl
      · cases h
  obtain ⟨r, hr, hkind, hmatches⟩ := h.exists_rule
  rw [hrules r hr hkind] at hmatches
  rcases Pattern.matches_alt_iff.1 hmatches with hquoted | hquoted
  all_goals
    obtain ⟨first, rest, htext, hfirst, -⟩ := Pattern.matches_seq_iff.1 hquoted
    obtain rfl := matches_char_iff.1 hfirst
  · exact hclosed (by decide) htext rfl
  · exact hclosed (by decide) htext rfl

/-! ## Numbers -/

theorem inWord_of_isDigit {c : Char} (hc : c.isDigit = true) :
    inWord c = true ∧ TokenRule.digit.contains c = true := by
  have hdigit : TokenRule.digit.contains c = true := by
    rw [Char.isDigit, Bool.and_eq_true, decide_eq_true_eq, decide_eq_true_eq] at hc
    exact Bool.and_eq_true_iff.2 ⟨decide_eq_true hc.1, decide_eq_true hc.2⟩
  exact ⟨Bool.or_eq_true_iff.2 (Or.inr hdigit), hdigit⟩

theorem survivors_minus : survivors tokenRules ['-'] =
    [⟨.arrow, .text ['>']⟩, ⟨.operator, .alt .nothing (.text ['@'])⟩,
      ⟨.integerLit, .seq (.one TokenRule.digit) numberRest⟩] := by
  decide

/-- A digit begins a number and can follow its sign. -/
theorem survivors_digit {c : Char} (hc : c.isDigit = true) :
    survivors tokenRules [c] = [⟨.integerLit, numberRest⟩] ∧
      survivors tokenRules ['-', c] = [⟨.integerLit, numberRest⟩] := by
  obtain ⟨hin, hdigit⟩ := inWord_of_isDigit hc
  have hother : ∀ d, d.isDigit = false → (CharClass.only d).contains c = false := by
    refine fun d hd => beq_eq_false_iff_ne.2 ?_
    rintro rfl
    rw [hc] at hd
    cases hd
  refine ⟨(survivors_of_inWord hin).2.2 hdigit, ?_⟩
  have hat : (Pattern.alt .nothing (.seq (.one (.only '@')) .nothing)).derivative c = .never := by
    rw [Pattern.derivative, derivative_seq_one, hother '@' rfl]
    rfl
  rw [show ['-', c] = ['-'] ++ [c] from rfl, survivors_append, survivors_minus]
  simp [survivors, advance, Pattern.text, Pattern.char, derivative_seq_one, hother '>' rfl, hat,
    hdigit, numberRest]

/-- Digits, with or without a sign, are a number. -/
theorem survivors_digits {text : List Char} (hne : text ≠ []) (h : ∀ c ∈ text, c.isDigit = true) :
    survivors tokenRules text = [⟨.integerLit, numberRest⟩] ∧
      survivors tokenRules ('-' :: text) = [⟨.integerLit, numberRest⟩] := by
  have hloop : ∀ c, c.isDigit = true → numberRest.derivative c = numberRest := by
    intro c hc
    have hone : (Pattern.one TokenRule.digit).derivative c = .nothing :=
      if_pos (inWord_of_isDigit hc).2
    rw [numberRest, Pattern.derivative, hone]
    rfl
  obtain ⟨c, cs, rfl⟩ := List.exists_cons_of_ne_nil hne
  obtain ⟨hc, hcs⟩ := List.forall_mem_cons.1 h
  have hrest : survivors [⟨.integerLit, numberRest⟩] cs = [⟨.integerLit, numberRest⟩] :=
    survivors_of_loop (by rintro ⟨⟩) fun d hd => hloop d (hcs d hd)
  have hsplit : ∀ {s : List Char}, survivors tokenRules s = [⟨.integerLit, numberRest⟩] →
      survivors tokenRules (s ++ cs) = [⟨.integerLit, numberRest⟩] := by
    intro s hs
    rw [survivors_append, hs, hrest]
  exact ⟨hsplit (survivors_digit hc).1, hsplit (survivors_digit hc).2⟩

/-- The digits of a printed number, behind its sign if it is negative. -/
theorem toList_toString (v : Int) :
    (toString v).toList = if 0 ≤ v then Nat.toDigits 10 v.toNat
      else '-' :: Nat.toDigits 10 (-v).toNat := by
  rw [Int.toString_eq_repr, Int.repr_eq_if]
  split
  · rw [Nat.repr_eq_ofList_toDigits, String.toList_ofList]
  · rw [Nat.repr_eq_ofList_toDigits, String.toList_append, String.toList_ofList,
      String.toList_ofList]
    rfl

theorem isDigit_toDigits (n : Nat) : ∀ c ∈ Nat.toDigits 10 n, c.isDigit = true :=
  fun _ hc => Nat.isDigit_of_mem_toDigits (by decide) (by decide) hc

/-- A printed number is a token that goes on with characters of a word only. -/
theorem spells_integer (v : Int) : TokenKind.integerLit.Spells (toString v).toList ∧
    OpenTo inWord (toString v).toList := by
  have hread : ∀ {text : List Char},
      survivors tokenRules text = [⟨.integerLit, numberRest⟩] →
      TokenKind.integerLit.Spells text ∧ OpenTo inWord text := by
    intro text htext
    rw [TokenKind.Spells, OpenTo, htext]
    exact ⟨rfl, List.forall_mem_singleton.2 rfl⟩
  have hdigits := fun n => survivors_digits (Nat.toDigits_ne_nil (b := 10)) (isDigit_toDigits n)
  rw [toList_toString]
  split
  · exact hread (hdigits _).1
  · exact hread (hdigits _).2

theorem decimalValue_toDigits (n : Nat) : Parser.decimalValue (Nat.toDigits 10 n) = n := by
  rw [Parser.decimalValue, ← Nat.ofDigitChars_eq_foldl, Nat.ofDigitChars_ten_toDigits]

/-- A printed number stands for the number that was printed. -/
theorem integerValue_toString (v : Int) : Parser.integerValue (toString v).toList = v := by
  rw [toList_toString]
  split
  · obtain ⟨c, cs, hdigits⟩ : ∃ c cs, Nat.toDigits 10 v.toNat = c :: cs :=
      List.exists_cons_of_ne_nil Nat.toDigits_ne_nil
    have hc : c ≠ '-' := by
      rintro rfl
      have := isDigit_toDigits v.toNat '-' (hdigits ▸ List.mem_cons_self)
      cases this
    have hvalue : Parser.integerValue (c :: cs) = Parser.decimalValue (c :: cs) := by
      rw [Parser.integerValue]
      rintro _ ⟨⟩
      exact hc rfl
    rw [hdigits, hvalue, ← hdigits, decimalValue_toDigits]
    omega
  · rw [Parser.integerValue, decimalValue_toDigits]
    omega

end RubySig
