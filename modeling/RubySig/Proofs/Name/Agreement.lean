import RubySig.Parser.File
import RubySig.Proofs.Name.Identifiers
import RubySig.Proofs.Parser.NameReads

/-!
# Two readers of names

A name is read in two ways: from its segments, which are checked character by character, and by the
grammar, from tokens.  A text without trivia whose last segment is no keyword is the same name to
both of them.

* `Parser.typeName_words`: the words in front of which the rule for names returns a name.
* `TypeName.ofSource?`: what the grammar makes of a text that is a name.
* `TypeName.ofSource?_eq_some_iff`: it reads the name that is printed like the text.
* `TypeName.readers_agree`: both readers return the same.
-/

namespace RubySig

/-! ## Words in front of the rule for names -/

/-- The kinds and texts of lexemes. -/
def wordsAt (ls : List Lexeme) : List Word := ls.map fun l => (l.kind, l.text)

theorem text_of_doubleColon {l : Lexeme} (hproper : l.Proper) (hkind : l.kind = .doubleColon) :
    l.text = "::" := by
  have hrule : ∀ r ∈ tokenRules, r.kind = .doubleColon → r.pattern = .text [':', ':'] := by decide
  have hspells : TokenKind.doubleColon.Spells l.text.toList := by
    rw [← hkind]
    exact hproper (by rw [hkind]; decide)
  obtain ⟨r, hr, hsame, hmatches⟩ := hspells.exists_rule
  rw [hrule r hr hsame, matches_text_iff] at hmatches
  rw [← String.toList_inj, hmatches]
  rfl

namespace Parser

/-- Whether a lexeme of the kind is there or not, it is known what is behind. -/
theorem Ensures.eatKnown {β : Type} {pre : List Lexeme → Prop} {result : β → List Lexeme → Prop}
    {kind : TokenKind} {f : Bool → Parser β}
    (htrue : ∀ l : Lexeme, l.Proper → l.kind = kind →
      Ensures (fun ls => pre (l :: ls)) (f true) result)
    (hfalse : Ensures pre (f false) result) : Ensures pre (Parser.eat kind >>= f) result := by
  rw [Parser.eat, bind_assoc]
  refine .isAt kind ?_ (hfalse.mono (fun _ h => h.2) fun _ _ => id)
  simp only [if_true, bind_assoc, pure_bind]
  refine .bump fun l hl => .of_forall fun ls hls => ?_
  exact (htrue l hl hls.1).mono (fun _ h => h ▸ hls.2) fun _ _ => id

/-- The words of the segments in front of the last one. -/
def pathWords (path : List String) : List Word :=
  path.flatMap fun segment => [(.upperIdent, segment), (.doubleColon, "::")]

theorem enclosingSegmentsWithin_words (n : Nat) (ls : List Lexeme) :
    Ensures (· = ls) (enclosingSegmentsWithin n) fun path left =>
      wordsAt ls = pathWords path ++ wordsAt left := by
  induction n generalizing ls with
  | zero => exact .throw _
  | succ n ih =>
    refine .isAtPair .upperIdent .doubleColon ?_ ?_
    · refine .bump fun l _ => .bump fun l' hl' => .of_forall fun left hleft => ?_
      obtain ⟨⟨hkind, hkind'⟩, rfl⟩ := hleft
      have hword : (l.kind, l.text) = (.upperIdent, l.text) := by rw [← hkind]; rfl
      have hword' : (l'.kind, l'.text) = (.doubleColon, "::") := by
        rw [text_of_doubleColon hl' hkind', ← hkind']
        rfl
      refine .bind (ih left) fun path => .pure fun left' hleft' => ?_
      simp only [wordsAt, List.map_cons, hword, hword'] at hleft' ⊢
      rw [hleft']
      rfl
    · refine .pure fun left hleft => ?_
      rw [hleft.2]
      rfl

/-- What the rule for names returns was written in front of what it leaves. -/
theorem typeName_words (what : String) (accept : TokenKind → Bool) (ls : List Lexeme) :
    Ensures (· = ls) (typeName what accept) fun r left =>
      ∃ kind, accept kind = true ∧ wordsAt ls = nameWords r.1 kind (wordsAt left) := by
  -- both branches behind the question for the leading `::` are this rule
  have hpath : ∀ (absolute : Bool) (start : Nat) (ls' : List Lexeme),
      (wordsAt ls = (if absolute then [(.doubleColon, "::")] else []) ++ wordsAt ls') →
      Ensures (· = ls') (do
        let path ← enclosingSegments
        if accept (← look) then
          let last ← bump
          return ((⟨⟨path, absolute⟩, last⟩ : TypeName), ← rangeFrom start)
        else Parser.unexpected what) fun r left =>
          ∃ kind, accept kind = true ∧ wordsAt ls = nameWords r.1 kind (wordsAt left) := by
    intro absolute start ls' hls
    have hsegments : Ensures (· = ls') enclosingSegments fun path left =>
        wordsAt ls' = pathWords path ++ wordsAt left :=
      .reads (fun c n c' hrun => by cases hrun; rfl) fun n => enclosingSegmentsWithin_words n ls'
    refine .bind hsegments fun path => .look fun kind => .ite (fun hkind => ?_)
      fun _ => .unexpected _
    refine .bump fun l _ => .reads (fun c range c' hrun => by cases hrun; rfl) fun range =>
      .pure fun left hleft => ?_
    refine ⟨kind, hkind, ?_⟩
    have hsame : l.kind = kind := hleft.1
    rw [hls, hleft.2, nameWords, ← hsame]
    simp [wordsAt, pathWords]
  refine .reads (fun c start c' hrun => by cases hrun; rfl) fun start => .eatKnown ?_ ?_
  · intro l hl hkind
    refine .of_forall fun ls' hls' => hpath true start ls' ?_
    rw [← hls', wordsAt, List.map_cons, text_of_doubleColon hl hkind, hkind]
    rfl
  · exact hpath false start ls rfl

end Parser

/-! ## What the grammar reads -/

namespace TypeName

/-- The name that the rule for names makes of a text, as it does for types, if it reads the text to
its end. -/
def ofSource? (source : SourceId) (text : String) : Option TypeName :=
  match Parser.typeName "a type" Parser.acceptsAny (Cursor.start source text none) with
  | .ok (n, _) c => if c.rest.isEmpty then some n else none
  | .error _ _ => none

variable {source : SourceId} {text : String} {n : TypeName}

theorem words_of_ofSource? (h : ofSource? source text = some n) :
    ∃ kind, Parser.acceptsAny kind = true ∧ words text = nameWords n kind [] := by
  unfold ofSource? at h
  split at h
  · next m range c hrun =>
    split at h
    · next hempty =>
      obtain rfl := Option.some.inj h
      have hproper : ∀ l ∈ (Cursor.start source text none).rest, l.Proper :=
        fun l hl => Lexeme.spells_of_mem_ofText hl
      obtain ⟨-, kind, hkind, hwords⟩ := Parser.typeName_words "a type" Parser.acceptsAny
        (Cursor.start source text none).rest _ _ _ hproper rfl hrun
      rw [List.isEmpty_iff.1 hempty] at hwords
      exact ⟨kind, hkind, hwords⟩
    · cases h
  · cases h

theorem ofSource?_of_words {kind : TokenKind} (hkind : Parser.acceptsAny kind = true)
    (h : words text = nameWords n kind []) : ofSource? source text = some n := by
  have hreads : Parser.Reads (Parser.typeName "a type" Parser.acceptsAny) (nameWords n kind [])
      (fun r => r.1 = n) [] :=
    Parser.reads_typeName "a type" hkind (isWord_of_acceptsAny hkind) (by decide)
  obtain ⟨⟨m, range⟩, c, hrun, rfl, -, hrest⟩ := hreads.run (Cursor.start source text none) rfl h
  have hempty : c.rest.isEmpty = true := by
    rw [List.isEmpty_iff]
    exact List.map_eq_nil_iff.1 hrest
  rw [ofSource?, hrun]
  exact if_pos hempty

end TypeName

/-! ## Texts without trivia -/

/-- No part of the text is without meaning for the grammar. -/
def WithoutTrivia (text : String) : Prop := ∀ t ∈ Token.ofText text, t.kind.isTrivia = false

theorem WithoutTrivia.words_eq {text : String} (h : WithoutTrivia text) :
    words text = (Token.ofText text).map fun t => (t.kind, t.text) := by
  have hall : (Token.ofText text).filter (fun t => !t.kind.isTrivia) = Token.ofText text :=
    List.filter_eq_self.2 fun t ht => by rw [h t ht]; rfl
  have hfilter : (fun p : TokenKind × List Char => !p.1.isTrivia) ∘ Token.piece =
      fun t => !t.kind.isTrivia := rfl
  rw [RubySig.words_eq, ← Token.map_piece_ofText, wordsOf, List.filter_map, hfilter, hall,
    List.map_map]
  simp [Function.comp_def, Token.piece]

theorem WithoutTrivia.join_words {text : String} (h : WithoutTrivia text) :
    String.join ((words text).map (·.2)) = text := by
  rw [h.words_eq, List.map_map]
  exact Token.joined_ofText text

theorem spells_of_mem_words {text word : String} {kind : TokenKind} (h : (kind, word) ∈ words text)
    (hkind : kind ≠ .garbage) : kind.Spells word.toList := by
  obtain ⟨l, hl, hsame⟩ := List.mem_map.1 h
  cases hsame
  exact Lexeme.spells_of_mem_ofText hl hkind

/-- The texts of the words of a name are the printed name. -/
theorem join_nameWords (n : TypeName) (kind : TokenKind) :
    String.join ((nameWords n kind []).map (·.2)) = n.render := by
  obtain ⟨⟨path, absolute⟩, name⟩ := n
  rw [← String.toList_inj, TypeName.render, Namespace.render, nameWords]
  cases absolute <;> simp [List.flatMap_map, List.flatMap_assoc, String.toList_join]

namespace TypeName

variable {source : SourceId} {text : String} {n : TypeName}

/-- The grammar reads a text without trivia as the name that is printed like it, if there is one
that consists of tokens. -/
theorem ofSource?_eq_some_iff (h : WithoutTrivia text) : ofSource? source text = some n ↔
    n.render = text ∧ n.Spelled Parser.acceptsAny := by
  constructor
  · intro hread
    obtain ⟨kind, hkind, hwords⟩ := words_of_ofSource? hread
    have hrender : n.render = text := by rw [← join_nameWords n kind, ← hwords, h.join_words]
    refine ⟨hrender, fun segment hsegment => ?_, kind, hkind, ?_⟩
    · have hword : (.upperIdent, segment) ∈ words text := by
        rw [hwords]
        simp [nameWords, hsegment]
      exact spells_of_mem_words hword (by decide)
    · have hword : (kind, n.name) ∈ words text := by
        rw [hwords]
        simp [nameWords]
      refine spells_of_mem_words hword ?_
      rintro rfl
      cases hkind
  · rintro ⟨rfl, hspelled⟩
    obtain ⟨kind, hkind, -, hwords⟩ :=
      words_name hspelled (fun _ => isWord_of_acceptsAny) (avoids_empty inWord)
    rw [String.append_empty, words_empty] at hwords
    exact ofSource?_of_words hkind hwords

/-- The last token of a text that is read as a name is of the kind that the name is spelled with. -/
theorem kind_of_ofSource? (h : WithoutTrivia text) (hread : ofSource? source text = some n) :
    (Token.ofText text).getLast?.map (·.kind) = some n.kind.tokenKind := by
  obtain ⟨kind, hkind, hwords⟩ := words_of_ofSource? hread
  obtain ⟨k, rfl⟩ := exists_tokenKind hkind
  have hlast : (words text).getLast? = some (k.tokenKind, n.name) := by
    rw [hwords, nameWords]
    simp
  have hspells : k.tokenKind.Spells n.name.toList :=
    spells_of_mem_words (List.mem_of_getLast? hlast) (by cases k <;> decide)
  have hkind : n.kind = k := (isIdentifier_of_spells hspells).2
  rw [h.words_eq, List.getLast?_map, Option.map_eq_some_iff] at hlast
  obtain ⟨t, ht, hword⟩ := hlast
  rw [ht, hkind, Option.map_some, (Prod.mk.inj hword).1]

/-- A text without trivia whose last segment is no keyword is the same name to both readers, or to
neither.  The name is printed as the text, and it is of the kind of the last token.  Every name of
capitalized segments and an identifier is read back from the text that it is printed as. -/
theorem readers_agree :
    (∀ (source : SourceId) (text : String), WithoutTrivia text →
      (∀ k : Keyword, (splitSegments text.toList).getLast? ≠ some k.text.toList) →
        parse? text = ofSource? source text ∧ ∀ n, parse? text = some n →
          (Token.ofText text).getLast?.map (·.kind) = some n.kind.tokenKind ∧ n.render = text) ∧
      ∀ n : TypeName, n.WellSpelled → parse? n.render = some n := by
  refine ⟨?_, fun n h => h.parse?_render⟩
  intro source text htrivia hkeyword
  have hagree : parse? text = ofSource? source text := by
    ext n
    rw [parse?_eq_some_iff, ofSource?_eq_some_iff htrivia, spelled_iff]
    refine and_congr_right fun hrender => ⟨fun hspelled => ⟨hspelled, ?_⟩, fun h => h.1⟩
    intro k hk
    refine hkeyword k ?_
    rw [← hrender, hspelled.getLast?_splitSegments, hk]
  refine ⟨hagree, fun n hn => ⟨kind_of_ofSource? htrivia (hagree ▸ hn), ?_⟩⟩
  exact (parse?_eq_some_iff.1 hn).1

/-- Both readers know an interface in a namespace. -/
theorem readers_agree_each :
    parse? "::Foo::_Each" = some ⟨⟨["Foo"], true⟩, "_Each"⟩ ∧
      ofSource? 0 "::Foo::_Each" = some ⟨⟨["Foo"], true⟩, "_Each"⟩ ∧
      (Token.ofText "::Foo::_Each").getLast?.map (·.kind) = some .interfaceIdent := by
  have hspelled : WellSpelled ⟨⟨["Foo"], true⟩, "_Each"⟩ := ⟨by decide, by decide⟩
  have htrivia : WithoutTrivia "::Foo::_Each" := by
    have htokens : (Token.ofText "::Foo::_Each").map (·.kind) =
        [.doubleColon, .upperIdent, .doubleColon, .interfaceIdent] := by decide +kernel
    intro t ht
    have hkind := List.mem_map_of_mem (f := (·.kind)) ht
    rw [htokens] at hkind
    revert hkind
    generalize t.kind = kind
    decide +revert
  have hread := readers_agree.2 _ hspelled
  obtain ⟨hagree, hprinted⟩ := readers_agree.1 0 "::Foo::_Each" htrivia (by
    intro k
    cases k <;> decide)
  exact ⟨hread, hagree ▸ hread, (hprinted _ hread).1⟩

-- At the end of a name the grammar does not read a keyword.
example : parse? "Foo::end" = some ⟨⟨["Foo"], false⟩, "end"⟩ ∧ ofSource? 0 "Foo::end" = none := by
  decide +kernel

end TypeName

end RubySig
