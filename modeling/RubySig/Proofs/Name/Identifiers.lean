import RubySig.Proofs.Name.Printed
import RubySig.Proofs.Token.LongestMatch
import RubySig.Proofs.TypeExpr.Spelled

/-!
# Identifiers that are tokens

An identifier is a token of the kind that it begins like, unless it is a keyword, and every token of
these kinds is an identifier.  So the names that consist of tokens are those that can be read from
their segments, but for keywords at the end.

* `NameKind.tokenKind`: the kind of token that spells a simple name.
* `isIdentifier_of_spells`, `spells_of_isIdentifier`: tokens and identifiers.
* `isClassSegment_iff`: the segments that can enclose others.
* `TypeName.spelled_iff`: the names that consist of tokens.
-/

namespace RubySig

/-! ## Identifiers and tokens -/

/-- The kind of the token that spells a simple name. -/
def NameKind.tokenKind : NameKind → TokenKind
  | classLike => .upperIdent
  | interface => .interfaceIdent
  | typeAlias => .lowerIdent

theorem exists_tokenKind {kind : TokenKind} (h : Parser.acceptsAny kind = true) :
    ∃ k : NameKind, k.tokenKind = kind := by
  simp only [Parser.acceptsAny, Parser.acceptsMixin, Bool.or_eq_true, beq_iff_eq] at h
  rcases h with (rfl | rfl) | rfl
  · exact ⟨.classLike, rfl⟩
  · exact ⟨.interface, rfl⟩
  · exact ⟨.typeAlias, rfl⟩

theorem isWord_of_acceptsAny {kind : TokenKind} (h : Parser.acceptsAny kind = true) :
    kind.isWord = true := by
  obtain ⟨k, rfl⟩ := exists_tokenKind h
  cases k <;> rfl

theorem acceptsAny_tokenKind (k : NameKind) : Parser.acceptsAny k.tokenKind = true := by
  cases k <;> rfl

theorem contains_upper (c : Char) : TokenRule.upper.contains c = c.isUpper :=
  (Bool.decide_and _ _).symm

theorem contains_lower (c : Char) : TokenRule.lower.contains c = c.isLower := rfl

theorem contains_digit (c : Char) : TokenRule.digit.contains c = c.isDigit := rfl

theorem isAlpha_eq (c : Char) : c.isAlpha = (c.isUpper || c.isLower) := rfl

theorem isAlphanum_eq (c : Char) : c.isAlphanum = (c.isAlpha || c.isDigit) := rfl

theorem isIdentifierStart_eq (c : Char) : isIdentifierStart c = beginsWord c := by
  simp only [isIdentifierStart, beginsWord, TokenRule.wordStart, CharClass.contains, contains_upper,
    contains_lower, isAlpha_eq, Bool.or_assoc]

theorem isIdentifierRest_eq (c : Char) : isIdentifierRest c = inWord c := by
  simp only [isIdentifierRest, inWord, TokenRule.wordRest, TokenRule.wordStart, CharClass.contains,
    contains_upper, contains_lower, contains_digit, isAlphanum_eq, isAlpha_eq]
  ac_rfl

theorem matches_text_iff {spelling text : List Char} :
    (Pattern.text spelling).Matches text ↔ text = spelling := by
  induction spelling generalizing text with
  | nil => exact Pattern.matches_nothing_iff
  | cons c spelling ih =>
    rw [Pattern.text, Pattern.matches_seq_iff]
    constructor
    · rintro ⟨first, rest, rfl, hfirst, hrest⟩
      rw [matches_char_iff.1 hfirst, ih.1 hrest, List.singleton_append]
    · rintro rfl
      exact ⟨[c], spelling, rfl, matches_char_iff.2 rfl, ih.2 rfl⟩

/-- A keyword is spelled in one way. -/
theorem eq_text_of_spells {k : Keyword} {text : List Char} (h : (TokenKind.keyword k).Spells text) :
    text = k.text.toList := by
  have hrules : ∀ r ∈ tokenRules, r.kind = .keyword k → r.pattern = .text k.text.toList := by
    cases k <;> decide
  obtain ⟨r, hr, hkind, hmatches⟩ := h.exists_rule
  rw [hrules r hr hkind] at hmatches
  exact matches_text_iff.1 hmatches

theorem all_of_matches_tail {text : List Char} (h : TokenRule.tail.Matches text) :
    text.all isIdentifierRest = true := by
  have hwithin : TokenRule.tail.within inWord = true := by decide
  simp only [List.all_eq_true, isIdentifierRest_eq]
  exact Pattern.mem_of_matches h hwithin

theorem ofChars_of_isUpper {c : Char} (h : c.isUpper = true) (cs : List Char) :
    NameKind.ofChars (c :: cs) = .classLike := by
  unfold NameKind.ofChars
  split
  · next heq =>
    obtain ⟨rfl, -⟩ := List.cons.inj heq
    exact absurd h (by decide)
  · next heq =>
    obtain ⟨rfl, -⟩ := List.cons.inj heq
    rw [if_pos h]
  · next heq => cases heq

/-- What follows the underscore of an alias name. -/
def aliasRest : CharClass := .either TokenRule.lower (.either TokenRule.digit (.only '_'))

theorem isUpper_of_aliasRest {c : Char} (h : aliasRest.contains c = true) : c.isUpper = false := by
  simp only [aliasRest, TokenRule.lower, TokenRule.digit, CharClass.contains, Bool.or_eq_true,
    Bool.and_eq_true, decide_eq_true_eq, beq_iff_eq, Char.le_def] at h
  rw [← contains_upper, ← Bool.not_eq_true]
  intro hupper
  simp only [TokenRule.upper, CharClass.contains, Bool.and_eq_true, decide_eq_true_eq,
    Char.le_def] at hupper
  rcases h with h | h | rfl
  · exact absurd (UInt32.le_trans h.1 hupper.2) (by decide)
  · exact absurd (UInt32.le_trans hupper.1 h.2) (by decide)
  · exact absurd hupper (by decide)

theorem isIdentifierRest_of_aliasRest {c : Char} (h : aliasRest.contains c = true) :
    isIdentifierRest c = true := by
  simp only [aliasRest, CharClass.contains, contains_lower, contains_digit, Bool.or_eq_true] at h
  simp only [isIdentifierRest, isAlphanum_eq, isAlpha_eq, Bool.or_eq_true]
  tauto

theorem ofChars_of_isLower {c : Char} (h : c.isLower = true) (cs : List Char) :
    NameKind.ofChars (c :: cs) = .typeAlias := by
  have hrest : aliasRest.contains c = true := by
    simp [aliasRest, CharClass.contains, contains_lower, h]
  have hupper := isUpper_of_aliasRest hrest
  unfold NameKind.ofChars
  split
  · next heq =>
    obtain ⟨rfl, -⟩ := List.cons.inj heq
    exact absurd h (by decide)
  · next heq =>
    obtain ⟨rfl, -⟩ := List.cons.inj heq
    simp [hupper]
  · next heq => cases heq

theorem matches_one_seq_iff {cls : CharClass} {p : Pattern} {text : List Char} :
    (Pattern.seq (.one cls) p).Matches text ↔
      ∃ c rest, text = c :: rest ∧ cls.contains c = true ∧ p.Matches rest := by
  rw [Pattern.matches_seq_iff]
  constructor
  · rintro ⟨first, rest, rfl, hfirst, hrest⟩
    obtain ⟨c, rfl, hc⟩ := matches_one_iff.1 hfirst
    exact ⟨c, rest, rfl, hc, hrest⟩
  · rintro ⟨c, rest, rfl, hc, hrest⟩
    exact ⟨[c], rest, rfl, .one hc, hrest⟩

/-- An identifier token is an identifier, and begins as its kind says. -/
theorem isIdentifier_of_spells {k : NameKind} {text : List Char} (h : k.tokenKind.Spells text) :
    isIdentifier text = true ∧ NameKind.ofChars text = k := by
  obtain ⟨r, hr, hkind, hmatches⟩ := h.exists_rule
  cases k with
  | classLike =>
    have hrule : ∀ r ∈ tokenRules, r.kind = .upperIdent →
        r.pattern = .seq (.one TokenRule.upper) TokenRule.tail := by decide
    rw [hrule r hr hkind, matches_one_seq_iff] at hmatches
    obtain ⟨c, rest, rfl, hc, hrest⟩ := hmatches
    rw [contains_upper] at hc
    refine ⟨?_, ofChars_of_isUpper hc rest⟩
    simp [isIdentifier, isIdentifierStart, isAlpha_eq, hc, all_of_matches_tail hrest]
  | interface =>
    have hrule : ∀ r ∈ tokenRules, r.kind = .interfaceIdent → r.pattern =
        .seq (.one (.only '_')) (.seq (.one TokenRule.upper) TokenRule.tail) := by decide
    rw [hrule r hr hkind, matches_one_seq_iff] at hmatches
    obtain ⟨underscore, rest, rfl, hunderscore, hrest⟩ := hmatches
    obtain rfl : underscore = '_' := beq_iff_eq.1 hunderscore
    obtain ⟨c, rest, rfl, hc, hrest⟩ := matches_one_seq_iff.1 hrest
    rw [contains_upper] at hc
    constructor
    · simp [isIdentifier, isIdentifierStart, isIdentifierRest, isAlphanum_eq, isAlpha_eq, hc,
        all_of_matches_tail hrest]
    · simp [NameKind.ofChars, hc]
  | typeAlias =>
    have hrule : ∀ r ∈ tokenRules, r.kind = .lowerIdent → r.pattern =
        .alt (.seq (.one TokenRule.lower) TokenRule.tail) (.seq (.one (.only '_'))
          (.optional (.seq (.one aliasRest) TokenRule.tail))) := by decide
    rw [hrule r hr hkind, Pattern.matches_alt_iff] at hmatches
    rcases hmatches with hletter | hunderscore
    · obtain ⟨c, rest, rfl, hc, hrest⟩ := matches_one_seq_iff.1 hletter
      rw [contains_lower] at hc
      refine ⟨?_, ofChars_of_isLower hc rest⟩
      simp [isIdentifier, isIdentifierStart, isAlpha_eq, hc, all_of_matches_tail hrest]
    · obtain ⟨underscore, rest, rfl, hsame, hrest⟩ := matches_one_seq_iff.1 hunderscore
      obtain rfl : underscore = '_' := beq_iff_eq.1 hsame
      rcases Pattern.matches_alt_iff.1 hrest with hmore | hnothing
      · obtain ⟨c, rest, rfl, hc, hrest⟩ := matches_one_seq_iff.1 hmore
        constructor
        · simp [isIdentifier, isIdentifierStart, isIdentifierRest_of_aliasRest hc,
            all_of_matches_tail hrest]
        · simp [NameKind.ofChars, isUpper_of_aliasRest hc]
      · rw [Pattern.matches_nothing_iff.1 hnothing]
        decide

/-- An identifier that is no keyword is a token, of the kind that it begins like. -/
theorem spells_of_isIdentifier {text : List Char} (h : isIdentifier text = true)
    (hkeyword : ∀ k : Keyword, text ≠ k.text.toList) :
    (NameKind.ofChars text).tokenKind.Spells text := by
  cases text with
  | nil => cases h
  | cons c cs =>
    simp only [isIdentifier, isIdentifierStart_eq, Bool.and_eq_true, List.all_eq_true,
      isIdentifierRest_eq] at h
    obtain ⟨kind, hword, hspells⟩ := exists_isWord h.1 h.2
    have htoken : ∀ k : NameKind, k.tokenKind = kind →
        (NameKind.ofChars (c :: cs)).tokenKind.Spells (c :: cs) := by
      rintro k rfl
      rwa [(isIdentifier_of_spells hspells).2]
    cases kind with
    | keyword k => exact absurd (eq_text_of_spells hspells) (hkeyword k)
    | upperIdent => exact htoken .classLike rfl
    | lowerIdent => exact htoken .typeAlias rfl
    | interfaceIdent => exact htoken .interface rfl
    | _ => cases hword

/-- The identifiers of a kind are its tokens, but for the keywords. -/
theorem spells_tokenKind_iff {k : NameKind} {text : List Char} : k.tokenKind.Spells text ↔
    isIdentifier text = true ∧ NameKind.ofChars text = k ∧ ∀ w : Keyword, text ≠ w.text.toList := by
  constructor
  · intro h
    obtain ⟨hidentifier, hkind⟩ := isIdentifier_of_spells h
    refine ⟨hidentifier, hkind, ?_⟩
    rintro w rfl
    have hsame := h.unique (spells_keyword w)
    cases k <;> cases hsame
  · rintro ⟨hidentifier, rfl, hkeyword⟩
    exact spells_of_isIdentifier hidentifier hkeyword

/-- No keyword is capitalized. -/
theorem isClassSegment_iff {text : List Char} :
    TypeName.isClassSegment text = true ↔ TokenKind.upperIdent.Spells text := by
  have hkeywords : ∀ w : Keyword, NameKind.ofChars w.text.toList = .typeAlias := by
    intro w
    cases w <;> decide
  have htokens : TokenKind.upperIdent.Spells text ↔ _ := spells_tokenKind_iff (k := .classLike)
  rw [TypeName.isClassSegment, Bool.and_eq_true, beq_iff_eq]
  constructor
  · rintro ⟨hidentifier, hkind⟩
    refine htokens.2 ⟨hidentifier, hkind, ?_⟩
    rintro w rfl
    rw [hkeywords w] at hkind
    cases hkind
  · intro h
    obtain ⟨hidentifier, hkind, -⟩ := htokens.1 h
    exact ⟨hidentifier, hkind⟩

/-- The names that consist of tokens are those that can be read from their segments, unless their
last segment is a keyword. -/
theorem TypeName.spelled_iff {n : TypeName} : n.Spelled Parser.acceptsAny ↔
    n.WellSpelled ∧ ∀ k : Keyword, n.name.toList ≠ k.text.toList := by
  constructor
  · rintro ⟨hpath, kind, haccepted, hlast⟩
    obtain ⟨k, rfl⟩ := exists_tokenKind haccepted
    obtain ⟨hidentifier, -, hkeyword⟩ := spells_tokenKind_iff.1 hlast
    exact ⟨⟨fun segment hsegment => isClassSegment_iff.2 (hpath segment hsegment), hidentifier⟩,
      hkeyword⟩
  · rintro ⟨⟨hpath, hlast⟩, hkeyword⟩
    refine ⟨fun segment hsegment => isClassSegment_iff.1 (hpath segment hsegment), ?_⟩
    exact ⟨_, acceptsAny_tokenKind _, spells_of_isIdentifier hlast hkeyword⟩

end RubySig
