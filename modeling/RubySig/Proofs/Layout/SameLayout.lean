import RubySig.Proofs.Token.Starts

/-!
# Texts with the same layout

The grammar asks two things about the layout between two tokens: whether anything stands there, and
whether a line break does.  Two texts have the same layout if they agree in this and in the tokens
themselves.

* `Token.meaningful`, `Token.innerGaps`: the tokens that are not trivia, and what stands between
  them.
* `SameLayout`: texts that differ only where the grammar does not ask.
* `SameLayout.words_lexemes`, `SameLayout.gaps_lexemes`: the lexemes of such texts.
-/

namespace RubySig

/-! ## Gaps -/

namespace Token

/-- Whether a token is one that the grammar reads. -/
def isMeaningful (t : Token) : Bool := !t.kind.isTrivia

/-- The tokens that the grammar reads. -/
def meaningful (tokens : List Token) : List Token := tokens.filter isMeaningful

/-- The trivia in front of the first of these tokens, between two neighbours and behind the last
one. -/
def gaps (tokens : List Token) : List (List Token) := tokens.splitOnP isMeaningful

/-- The trivia between two neighbours. -/
def innerGaps (tokens : List Token) : List (List Token) := (gaps tokens).tail.dropLast

/-- What can be asked about a gap: whether anything stands there, and whether a line break does. -/
def gapFace (gap : List Token) : Bool × Bool := (!gap.isEmpty, gap.any (·.kind == .newline))

end Token

/-- The same kinds and texts in the same order, and between neighbours trivia in both token lists or
in neither, and a line break in both or in neither. -/
structure SameLayout (tokens tokens' : List Token) : Prop where
  words : (Token.meaningful tokens).map (fun t => (t.kind, t.text)) =
    (Token.meaningful tokens').map fun t => (t.kind, t.text)
  gaps : (Token.innerGaps tokens).map Token.gapFace = (Token.innerGaps tokens').map Token.gapFace

/-! ## Lexemes -/

namespace Lexeme

/-- What can be asked about the gap in front of a lexeme. -/
def gapFace (l : Lexeme) : Bool × Bool := (l.spaced, l.onNewLine)

/-- Lexemes are the tokens that are not trivia. -/
theorem map_collect (spaced onNewLine : Bool) (tokens : List Token) :
    (collect spaced onNewLine tokens).map (fun l => (l.kind, l.text, l.range)) =
      (Token.meaningful tokens).map fun t => (t.kind, t.text, t.range) := by
  induction tokens generalizing spaced onNewLine with
  | nil => rfl
  | cons t rest ih =>
    rw [collect, Token.meaningful, List.filter_cons, Token.isMeaningful]
    cases t.kind.isTrivia with
    | true => exact ih _ _
    | false => exact congrArg _ (ih _ _)

/-- A lexeme remembers the gap in front of it.  The first one also has what was dropped before. -/
theorem map_gapFace_collect (spaced onNewLine : Bool) (tokens : List Token) :
    ∃ gap gaps, Token.gaps tokens = gap :: gaps ∧
      (collect spaced onNewLine tokens).map gapFace =
        ((spaced || (Token.gapFace gap).1, onNewLine || (Token.gapFace gap).2) ::
          gaps.map Token.gapFace).dropLast := by
  induction tokens generalizing spaced onNewLine with
  | nil => exact ⟨[], [], rfl, rfl⟩
  | cons t rest ih =>
    rw [Token.gaps, List.splitOnP_cons_eq_if_modifyHead, collect, Token.isMeaningful]
    cases htrivia : t.kind.isTrivia with
    | true =>
      obtain ⟨gap, gaps, hgaps, hfaces⟩ := ih true (onNewLine || t.kind == .newline)
      refine ⟨t :: gap, gaps, ?_, ?_⟩
      · rw [Token.gaps] at hgaps
        rw [hgaps]
        rfl
      · rw [if_pos rfl, hfaces]
        simp only [Token.gapFace, List.isEmpty_cons, List.any_cons, Bool.true_or, Bool.not_false,
          Bool.or_true, Bool.or_assoc]
    | false =>
      obtain ⟨gap, gaps, hgaps, hfaces⟩ := ih false false
      refine ⟨[], gap :: gaps, congrArg _ hgaps, ?_⟩
      rw [if_neg Bool.false_ne_true, List.map_cons, hfaces]
      simp only [gapFace, Token.gapFace, List.isEmpty_nil, List.any_nil, Bool.not_true,
        Bool.or_false, Bool.false_or, List.map_cons, List.dropLast_cons_cons]

/-- The lexemes but the first one remember the gaps between the tokens. -/
theorem map_gapFace_tail (tokens : List Token) :
    (ofTokens tokens).tail.map gapFace = (Token.innerGaps tokens).map Token.gapFace := by
  obtain ⟨gap, gaps, hgaps, hfaces⟩ := map_gapFace_collect false false tokens
  rw [List.map_tail, ofTokens, hfaces, List.tail_dropLast, List.tail_cons, ← List.map_dropLast,
    Token.innerGaps, hgaps, List.tail_cons]

end Lexeme

namespace SameLayout

variable {tokens tokens' : List Token} (h : SameLayout tokens tokens')
include h

theorem words_lexemes :
    (Lexeme.ofTokens tokens).map (fun l => (l.kind, l.text)) =
      (Lexeme.ofTokens tokens').map fun l => (l.kind, l.text) := by
  have hwords : ∀ tokens : List Token,
      (Lexeme.ofTokens tokens).map (fun l => (l.kind, l.text)) =
        (Token.meaningful tokens).map fun t => (t.kind, t.text) := fun tokens => by
    have hall := congrArg (List.map fun w => (w.1, w.2.1)) (Lexeme.map_collect false false tokens)
    rwa [List.map_map, List.map_map] at hall
  rw [hwords, hwords, h.words]

theorem gaps_lexemes :
    (Lexeme.ofTokens tokens).tail.map Lexeme.gapFace =
      (Lexeme.ofTokens tokens').tail.map Lexeme.gapFace := by
  rw [Lexeme.map_gapFace_tail, Lexeme.map_gapFace_tail, h.gaps]

theorem length_lexemes : (Lexeme.ofTokens tokens).length = (Lexeme.ofTokens tokens').length := by
  simpa using congrArg List.length h.words_lexemes

end SameLayout

/-! ## Ranges -/

/-- Ranges that are not empty and stand one behind the other in a text of the given length. -/
structure Apart (textEnd : Nat) (ranges : List TextRange) : Prop where
  proper : ∀ r ∈ ranges, r.start < r.stop
  inside : ∀ r ∈ ranges, r.stop ≤ textEnd
  behind : ranges.Pairwise fun r s => r.stop ≤ s.start

/-- Pieces that are not empty are placed one behind the other, from the offset on. -/
theorem apart_place {ps : List (TokenKind × List Char)} (h : ∀ p ∈ ps, p.2 ≠ []) (offset : Nat) :
    Apart (offset + byteLength (ps.map (·.2)).flatten) ((place offset ps).map (·.range)) ∧
      ∀ t ∈ place offset ps, offset ≤ t.range.start := by
  induction ps generalizing offset with
  | nil =>
    exact ⟨⟨fun _ hr => absurd hr List.not_mem_nil, fun _ hr => absurd hr List.not_mem_nil, .nil⟩,
      fun _ ht => absurd ht List.not_mem_nil⟩
  | cons p rest ih =>
    obtain ⟨kind, text⟩ := p
    obtain ⟨htext, hrest⟩ := List.forall_mem_cons.1 h
    obtain ⟨⟨hproper, hinside, hbehind⟩, hstarts⟩ := ih hrest (offset + byteLength text)
    have hpos : 0 < byteLength text := byteLength_pos htext
    rw [place, List.map_cons, List.map_cons, List.flatten_cons, byteLength_append, ← Nat.add_assoc]
    refine ⟨⟨List.forall_mem_cons.2 ⟨Nat.lt_add_of_pos_right hpos, hproper⟩,
      List.forall_mem_cons.2 ⟨Nat.le_add_right _ _, hinside⟩,
      List.pairwise_cons.2 ⟨List.forall_mem_map.2 hstarts, hbehind⟩⟩,
      List.forall_mem_cons.2 ⟨le_refl _, fun t ht => ?_⟩⟩
    exact (Nat.le_add_right _ _).trans (hstarts t ht)

/-- Where the tokens of a text that the grammar reads stand. -/
def Token.ranges (text : String) : List TextRange := (meaningful (ofText text)).map (·.range)

theorem Token.ranges_eq (text : String) : ranges text = (Lexeme.ofText text).map (·.range) := by
  have hall := congrArg (List.map fun l => l.2.2) (Lexeme.map_collect false false (ofText text))
  rw [List.map_map, List.map_map] at hall
  exact hall.symm

theorem Token.apart_ranges (text : String) : Apart text.utf8ByteSize (ranges text) := by
  have hpieces : ∀ p ∈ cut tokenRules text.toList, p.2 ≠ [] := ne_nil_of_mem_cut
  have hall := (apart_place hpieces 0).1
  rw [flatten_cut, Nat.zero_add, byteLength_toList] at hall
  have hsub : (ranges text).Sublist ((ofText text).map (·.range)) :=
    List.filter_sublist.map _
  exact ⟨fun r hr => hall.proper r (hsub.subset hr), fun r hr => hall.inside r (hsub.subset hr),
    hall.behind.sublist hsub⟩

end RubySig
