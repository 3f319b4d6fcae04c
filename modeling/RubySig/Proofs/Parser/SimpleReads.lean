import RubySig.Proofs.Parser.KeyRules
import RubySig.Proofs.Parser.NameReads
import RubySig.Proofs.TypeExpr.Printed

/-!
# Reading printed types without operators

* `Parser.Follows`, `Parser.Behind`: the texts that can stand behind a type.
* `Parser.ReadsBack`: a rule reads the text of a type and returns the type.
* `Parser.ReadsKey`: a rule reads the text of a record key.
* `Parser.readsBack_special` … `Parser.readsBack_record`: one lemma for each kind of type, whatever
  the rule for record keys.
-/

namespace RubySig

namespace Parser

/-! ## What stands behind a type -/

/-- The kinds of words that stand behind a type. -/
def endsType : TokenKind → Bool
  | .endOfText | .comma | .bracketClose | .parenClose | .braceClose | .lowerIdent => true
  | _ => false

/-- The kinds of words that would belong to a type in front of them. -/
def goesOn : TokenKind → Bool
  | .bracketOpen | .doubleColon | .colon | .braceOpen => true
  | _ => false

/-- A text that can stand behind a type, or begins with one of some operators. -/
structure Follows (operators : List TokenKind) (rest : String) : Prop where
  apart : Avoids inType rest
  next : endsType (kindAt (words rest) 0) = true ∨ kindAt (words rest) 0 ∈ operators

/-- A text that does not change the meaning of a type without operators in front of it. -/
structure Behind (set : Char → Bool) (rest : String) : Prop where
  apart : Avoids set rest
  next : goesOn (kindAt (words rest) 0) = false

theorem Follows.ne {operators : List TokenKind} {rest : String} (h : Follows operators rest)
    {kind : TokenKind} (hkind : endsType kind = false ∧ kind ∉ operators) :
    kindAt (words rest) 0 ≠ kind := by
  rintro rfl
  rcases h.next with hends | hmem
  · rw [hkind.1] at hends
    cases hends
  · exact hkind.2 hmem

theorem Follows.behind {operators : List TokenKind} {rest : String} (h : Follows operators rest)
    {set : Char → Bool} (hset : (set ',' || set ']' || set ')' || set ' ') = false)
    (hoperators : ∀ kind ∈ operators, goesOn kind = false) : Behind set rest := by
  refine ⟨h.apart.of_inType hset, ?_⟩
  rcases h.next with hends | hmem
  · revert hends
    cases kindAt (words rest) 0 <;> simp [endsType, goesOn]
  · exact hoperators _ hmem

theorem Follows.mono {operators operators' : List TokenKind} {rest : String}
    (h : Follows operators rest) (hsub : ∀ kind ∈ operators, kind ∈ operators') :
    Follows operators' rest :=
  ⟨h.apart, h.next.imp_right (hsub _)⟩

/-- What begins with a word that stands behind types stands behind types. -/
theorem follows_of_words {text rest word : String} {kind : TokenKind} {ws : List Word}
    (happart : text.toList.head?.any (fun c => !inType c) = true)
    (hwords : words (text ++ rest) = (kind, word) :: ws) (hends : endsType kind = true) :
    Follows [] (text ++ rest) :=
  ⟨avoids_append happart rest, Or.inl (by rw [hwords]; exact hends)⟩

theorem words_comma (rest : String) : words (", " ++ rest) = (.comma, ",") :: words rest :=
  words_literal ", " [.comma, .whitespace] (by decide) rest

theorem follows_comma (rest : String) : Follows [] (", " ++ rest) :=
  follows_of_words (by decide) (words_comma rest) rfl

theorem words_parenClose (rest : String) : words (")" ++ rest) = (.parenClose, ")") :: words rest :=
  words_literal ")" [.parenClose] (by decide) rest

theorem follows_parenClose (rest : String) : Follows [] (")" ++ rest) :=
  follows_of_words (by decide) (words_parenClose rest) rfl

theorem words_bracketClose (rest : String) :
    words ("]" ++ rest) = (.bracketClose, "]") :: words rest :=
  words_literal "]" [.bracketClose] (by decide) rest

theorem follows_bracketClose (rest : String) : Follows [] ("]" ++ rest) :=
  follows_of_words (by decide) (words_bracketClose rest) rfl

/-- Nothing stands behind a type at the end of a text. -/
theorem follows_end : Follows [] "" := ⟨avoids_empty _, Or.inl (by rw [words_empty]; rfl)⟩

/-! ## Reading back -/

/-- Whether a type can begin with a word of a kind. -/
def opensType : TokenKind → Bool
  | .bracketClose | .parenClose | .braceClose | .question | .star | .starStar => false
  | _ => true

theorem opensType_of_isWord {kind : TokenKind} (h : kind.isWord = true) :
    opensType kind = true := by
  cases kind <;> first | rfl | cases h

/-- The words begin with a type and not with a key. -/
structure Leads (ws : List Word) : Prop where
  opens : opensType (kindAt ws 0) = true
  noKey : (kindAt ws 0).isWord = true → kindAt ws 1 ≠ .colon

/-- In front of the text of a type, with a suitable text behind it, a rule returns the type, up to
the places where its parts are written. -/
def ReadsBack (p : Parser TypeExpr) (text : String) (t : TypeExpr) (ok : String → Prop) : Prop :=
  ∀ rest, ok rest → Leads (words (text ++ rest)) ∧
    Reads p (words (text ++ rest)) (·.withoutSpans = t.withoutSpans) (words rest)

theorem Leads.cons {kind : TokenKind} {text : String} {ws : List Word}
    (hopens : opensType kind = true) (hnoKey : kind.isWord = true → kindAt ws 0 ≠ .colon) :
    Leads ((kind, text) :: ws) :=
  ⟨hopens, hnoKey⟩

theorem Leads.ne {ws : List Word} (h : Leads ws) (kind : TokenKind)
    (hkind : opensType kind = false) : kindAt ws 0 ≠ kind := by
  rintro rfl
  rw [h.opens] at hkind
  cases hkind

/-- A word in front of what is no colon can be a type. -/
theorem Behind.leads {set : Char → Bool} {rest : String} (h : Behind set rest) {kind : TokenKind}
    {text : String} (hopens : opensType kind = true) : Leads ((kind, text) :: words rest) := by
  refine .cons hopens fun _ hcolon => ?_
  have hnext := h.next
  rw [hcolon] at hnext
  cases hnext

theorem Behind.ne {set : Char → Bool} {rest : String} (h : Behind set rest) {kind : TokenKind}
    (hkind : goesOn kind = true) : kindAt (words rest) 0 ≠ kind := by
  rintro rfl
  rw [h.next] at hkind
  cases hkind

section Simple

variable {keyRule : Parser RecordKey} {vars : List String} {type returnType : Parser TypeExpr}

/-- The rule for keys matters in front of records only. -/
theorem reads_simpleWith {ws left : List Word} {post : TypeExpr → Prop}
    (hkind : kindAt ws 0 ≠ .braceOpen) (h : Reads (simpleType vars type returnType) ws post left) :
    Reads (simpleWith keyRule vars type returnType) ws post left := by
  refine ⟨h.suffix, fun c hfuel hws => ?_⟩
  rw [simpleWith, if_neg (by rw [kindOf_eq_kindAt, hws]; exact hkind)]
  exact h.run c hfuel hws

theorem reads_simpleWith_record {ws left : List Word} {post : TypeExpr → Prop}
    (hkind : kindAt ws 0 = .braceOpen) (h : Reads (recordWith keyRule type) ws post left) :
    Reads (simpleWith keyRule vars type returnType) ws post left := by
  have hlooked : Reads (do let _ ← look; recordWith keyRule type) ws post left :=
    .exactly reads_look h
  refine ⟨h.suffix, fun c hfuel hws => ?_⟩
  rw [simpleWith, if_pos (by rw [kindOf_eq_kindAt, hws]; exact hkind)]
  exact hlooked.run c hfuel hws

/-! ## Types without parts -/

/-- The keyword of a type with a reserved name. -/
def specialKeyword : SpecialType → Keyword
  | .untyped => .kwUntyped
  | .void => .kwVoid
  | .selfType => .kwSelf
  | .instanceType => .kwInstance
  | .classType => .kwClass
  | .bot => .kwBot
  | .top => .kwTop
  | .nil => .kwNil
  | .bool => .kwBool

theorem spells_keyword : ∀ word ∈ Keyword.all,
    (TokenKind.keyword word).Spells word.text.toList := by
  decide +kernel

theorem mem_all (word : Keyword) : word ∈ Keyword.all := by
  cases word <;> decide

theorem words_keyword (word : Keyword) {rest : String} (hrest : Avoids inWord rest) :
    words (word.text ++ rest) = (.keyword word, word.text) :: words rest :=
  words_append_of_isWord (spells_keyword word (mem_all word)) rfl hrest

theorem readsBack_special (special : SpecialType) :
    ReadsBack (simpleWith keyRule vars type returnType) (TypeExpr.special special).render
      (.special special) (Behind inWord) := by
  intro rest hrest
  have hwords : words (special.render ++ rest) =
      (.keyword (specialKeyword special), (specialKeyword special).text) :: words rest := by
    have htext : special.render = (specialKeyword special).text := by cases special <;> rfl
    rw [htext, words_keyword _ hrest.apart]
  rw [TypeExpr.render, hwords]
  refine ⟨hrest.leads (by cases special <;> rfl),
    reads_simpleWith (by rintro ⟨⟩) (.exactly reads_look ?_)⟩
  cases special <;> exact .exactly reads_bump (.pure rfl)

theorem readsBack_var {name : String} (hmem : name ∈ vars)
    (hspells : TokenKind.upperIdent.Spells name.toList) :
    ReadsBack (simpleWith keyRule vars type returnType) (TypeExpr.var name).render (.var name)
      (Behind inWord) := by
  intro rest hrest
  rw [TypeExpr.render, words_append_of_isWord hspells rfl hrest.apart]
  refine ⟨hrest.leads rfl, reads_simpleWith (by rintro ⟨⟩) (.exactly reads_look ?_)⟩
  have hvar : (!(kindAt (words rest) 0 == .doubleColon) && vars.contains name) = true := by
    rw [beq_eq_false_iff_ne.2 (hrest.ne rfl), List.contains_iff_mem.2 hmem]
    rfl
  exact .ifTrue ((reads_isAtTypeVar vars).mono fun _ hb => hb.trans hvar)
    (.exactly reads_bump (.pure rfl))

theorem readsBack_string {quoted : String} (h : TokenKind.stringLit.Spells quoted.toList) :
    ReadsBack (simpleWith keyRule vars type returnType) (TypeExpr.literal (.string quoted)).render
      (.literal (.string quoted)) (Behind inWord) := by
  intro rest hrest
  rw [TypeExpr.render, Literal.render,
    words_append_of_openTo h (openTo_of_string h) (avoids_noChar rest) ⟨by rintro ⟨⟩, rfl⟩]
  exact ⟨hrest.leads rfl, reads_simpleWith (by rintro ⟨⟩)
    (.exactly reads_look (.exactly reads_bump (.pure rfl)))⟩

theorem toList_colon_append (name : String) : (":" ++ name).toList = ':' :: name.toList := by
  rw [String.toList_append]
  rfl

theorem symbolName_colon_append (name : String) : symbolName (":" ++ name) = name := by
  rw [symbolName, toList_colon_append, List.drop_one, List.tail_cons, String.ofList_toList]

theorem readsBack_symbol {name : String} (h : TokenKind.symbolLit.Spells (':' :: name.toList)) :
    ReadsBack (simpleWith keyRule vars type returnType) (TypeExpr.literal (.symbol name)).render
      (.literal (.symbol name)) (Behind (TypeExpr.literal (.symbol name)).openSet) := by
  intro rest hrest
  have hspells : TokenKind.symbolLit.Spells (":" ++ name).toList :=
    toList_colon_append name ▸ h
  have hwords : words (":" ++ name ++ rest) = (.symbolLit, ":" ++ name) :: words rest := by
    rcases symbol_cases h with ⟨-, hopen⟩ | ⟨hmarked, -⟩
    · rw [← toList_colon_append] at hopen
      exact words_append_of_openTo hspells hopen (avoids_noChar rest) ⟨by rintro ⟨⟩, rfl⟩
    · have hapart : Avoids inSymbol rest := by
        have := hrest.apart
        rwa [TypeExpr.openSet, hmarked] at this
      exact words_append_of_openTo hspells (openTo_of_symbol hspells) hapart ⟨by rintro ⟨⟩, rfl⟩
  rw [TypeExpr.render, Literal.render, hwords]
  refine ⟨hrest.leads rfl, reads_simpleWith (by rintro ⟨⟩)
    (.exactly reads_look (.exactly reads_bump (.pure ?_)))⟩
  rw [symbolName_colon_append]

theorem readsBack_integer {value : Int} (h : fitsInt64 value = true) :
    ReadsBack (simpleWith keyRule vars type returnType) (TypeExpr.literal (.integer value)).render
      (.literal (.integer value)) (Behind inWord) := by
  intro rest hrest
  obtain ⟨hspells, hopen⟩ := spells_integer value
  rw [TypeExpr.render, Literal.render,
    words_append_of_openTo hspells hopen hrest.apart ⟨by rintro ⟨⟩, rfl⟩]
  refine ⟨hrest.leads rfl, reads_simpleWith (by rintro ⟨⟩)
    (.exactly reads_look (.step reads_currentRange fun range => .exactly reads_bump ?_))⟩
  rw [integerValue_toString, if_pos h]
  exact .pure rfl

theorem readsBack_bool (value : Bool) :
    ReadsBack (simpleWith keyRule vars type returnType) (TypeExpr.literal (.bool value)).render
      (.literal (.bool value)) (Behind inWord) := by
  intro rest hrest
  rw [TypeExpr.render]
  cases value with
  | true =>
    rw [Literal.render, show "true" = Keyword.kwTrue.text from rfl, words_keyword _ hrest.apart]
    exact ⟨hrest.leads rfl, reads_simpleWith (by rintro ⟨⟩)
      (.exactly reads_look (.exactly reads_bump (.pure rfl)))⟩
  | false =>
    rw [Literal.render, show "false" = Keyword.kwFalse.text from rfl, words_keyword _ hrest.apart]
    exact ⟨hrest.leads rfl, reads_simpleWith (by rintro ⟨⟩)
    (.exactly reads_look (.exactly reads_bump (.pure rfl)))⟩

/-! ## Names -/

theorem isWord_of_acceptsUpper (kind : TokenKind) (h : acceptsUpper kind = true) :
    kind.isWord = true := by
  rw [beq_iff_eq.1 h]
  rfl

theorem isWord_of_acceptsAny (kind : TokenKind) (h : acceptsAny kind = true) :
    kind.isWord = true := by
  simp only [acceptsAny, acceptsMixin, Bool.or_eq_true, beq_iff_eq] at h
  rcases h with (rfl | rfl) | rfl <;> rfl

theorem readsBack_singleton {target : SingletonType} (h : target.name.Spelled acceptsUpper) :
    ReadsBack (simpleWith keyRule vars type returnType) (TypeExpr.singleton target).render
      (.singleton target) (Behind inWord) := by
  intro rest hrest
  have hclosed : Avoids inWord (")" ++ rest) := avoids_append (by decide) rest
  obtain ⟨kind, hkind, -, hname⟩ := words_name h isWord_of_acceptsUpper hclosed
  have hwords : words ("singleton(" ++ (target.name.render ++ (")" ++ rest))) =
      (.keyword .kwSingleton, "singleton") :: (.parenOpen, "(") ::
        nameWords target.name kind ((.parenClose, ")") :: words rest) := by
    rw [show "singleton(" = Keyword.kwSingleton.text ++ "(" from rfl, String.append_assoc,
      words_keyword _ (avoids_append (by decide) _), words_literal "(" [.parenOpen] (by decide),
      hname, words_parenClose]
    rfl
  rw [TypeExpr.render, String.append_assoc, String.append_assoc, hwords]
  refine ⟨.cons rfl (by rintro ⟨⟩ ⟨⟩), reads_simpleWith (by rintro ⟨⟩) (.exactly reads_look
    (.step reads_startOffset fun start => .step reads_assertAt fun _ => .exactly reads_bump
      (.step (reads_expect _) fun _ =>
        .bind (reads_typeName _ hkind (isWord_of_acceptsUpper kind hkind) (by rintro ⟨⟩)) ?_)))⟩
  rintro ⟨name, range⟩ hname
  refine .step (reads_expect _) fun _ => .step (reads_spanFrom _) fun _ => .pure ?_
  rw [TypeExpr.withoutSpans_eq, TypeExpr.withoutSpans_eq (.singleton target)]
  exact congrArg (fun name => TypeExpr.singleton ⟨name, default⟩) hname

/-! ## Names with arguments -/

/-- The texts of types with commas between them. -/
theorem typeItems {types : List TypeExpr}
    (h : ∀ t ∈ types, ReadsBack type t.render t (Follows [])) :
    Items type TypeExpr.withoutSpans TypeExpr.withoutSpans TypeExpr.render (Follows []) ", " .comma
      "," types :=
  ⟨words_comma, follows_comma, fun t ht rest hrest => (h t ht rest hrest).2⟩

theorem leads_nameWords {name : TypeName} {kind : TokenKind} {ws : List Word}
    (hkind : kind.isWord = true) (hws : kindAt ws 0 ≠ .colon) :
    Leads (nameWords name kind ws) := by
  obtain ⟨⟨path, absolute⟩, last⟩ := name
  cases absolute with
  | true => exact .cons rfl (by rintro ⟨⟩)
  | false =>
    cases path with
    | nil => exact .cons (opensType_of_isWord hkind) fun _ => hws
    | cons segment path => exact .cons rfl fun _ => (by rintro ⟨⟩)

/-- The rule for names is entered where a printed name begins. -/
theorem reads_simpleWith_name {name : TypeName} {kind : TokenKind} {ws left : List Word}
    {post : TypeExpr → Prop} (hkind : acceptsAny kind = true)
    (hfree : kind = .upperIdent → name.isBare = true → name.name ∉ vars)
    (h : Reads (anyNamed type) (nameWords name kind ws) post left) :
    Reads (simpleWith keyRule vars type returnType) (nameWords name kind ws) post left := by
  obtain ⟨⟨path, absolute⟩, last⟩ := name
  cases absolute with
  | true => exact reads_simpleWith (by rintro ⟨⟩) (.exactly reads_look h)
  | false =>
    cases path with
    | cons segment path =>
      exact reads_simpleWith (by rintro ⟨⟩) (.exactly reads_look
        (.ifFalse ((reads_isAtTypeVar vars).mono fun _ hb => hb) h))
    | nil =>
      simp only [acceptsAny, acceptsMixin, Bool.or_eq_true, beq_iff_eq] at hkind
      rcases hkind with (rfl | rfl) | rfl
      · have hout : vars.contains last = false := by
          cases hcontains : vars.contains last with
          | false => rfl
          | true => exact absurd (List.contains_iff_mem.1 hcontains) (hfree rfl rfl)
        refine reads_simpleWith (by rintro ⟨⟩) (.exactly reads_look
          (.ifFalse ((reads_isAtTypeVar vars).mono fun _ hb => ?_) h))
        rw [hb, hout, Bool.and_false]
      · exact reads_simpleWith (by rintro ⟨⟩) (.exactly reads_look h)
      · exact reads_simpleWith (by rintro ⟨⟩) (.exactly reads_look h)

section Named

variable {target : NamedType} {accept : TokenKind → Bool} {kind : TokenKind} {ws : List Word}

/-- A name with arguments without the places where its parts are written. -/
def strippedNamed (t : NamedType) : TypeExpr := (TypeExpr.named t).withoutSpans

theorem strippedNamed_eq {name : TypeName} {args : List TypeExpr} {span : Span}
    (hname : name = target.name)
    (hargs : args.map TypeExpr.withoutSpans = target.args.map TypeExpr.withoutSpans) :
    strippedNamed ⟨name, args, span⟩ = strippedNamed target := by
  rw [strippedNamed, strippedNamed, TypeExpr.withoutSpans_eq,
    TypeExpr.withoutSpans_eq (.named target)]
  show TypeExpr.named ⟨name, args.map _, default⟩ =
    .named ⟨target.name, target.args.map _, default⟩
  rw [hname, hargs]

theorem reads_namedWith_bare (what : String) (hkind : accept kind = true)
    (hword : kind.isWord = true) (hnone : target.args = [])
    (hnext : kindAt ws 0 ≠ .doubleColon ∧ kindAt ws 0 ≠ .bracketOpen) :
    Reads (namedWith type what accept) (nameWords target.name kind ws)
      (strippedNamed · = strippedNamed target) ws :=
  .step reads_startOffset fun _ => .bind (reads_typeName _ hkind hword hnext.1) fun (_, _) hname =>
    .ifFalse (reads_eat_false hnext.2) (.step (reads_spanFrom _) fun _ =>
      .pure (strippedNamed_eq hname (by rw [hnone])))

theorem reads_namedWith_args (what : String) (hkind : accept kind = true)
    (hword : kind.isWord = true) (hsome : target.args ≠ [])
    (hargs : ∀ t ∈ target.args, ReadsBack type t.render t (Follows [])) (rest : String) :
    Reads (namedWith type what accept)
      (nameWords target.name kind ((.bracketOpen, "[") :: words (", ".intercalate
        (target.args.map TypeExpr.render) ++ ("]" ++ rest))))
      (strippedNamed · = strippedNamed target) (words rest) := by
  obtain ⟨t, ts, hcons⟩ := List.exists_cons_of_ne_nil hsome
  have hlist := reads_separated (typeItems (hcons ▸ hargs)) (follows_bracketClose rest)
    (by rw [words_bracketClose]; rintro ⟨⟩)
  rw [← hcons, words_bracketClose] at hlist
  exact .step reads_startOffset fun _ => .bind (reads_typeName _ hkind hword (by rintro ⟨⟩))
    fun (_, _) hname => .ifTrue reads_eat (.bind hlist fun _ hargs =>
      .step (reads_expect _) fun _ => .step (reads_spanFrom _) fun _ =>
        .pure (strippedNamed_eq hname hargs))

end Named

theorem readsBack_named {target : NamedType} (hname : target.name.Spelled acceptsAny)
    (hfree : target.NotVariable vars)
    (hargs : ∀ t ∈ target.args, ReadsBack type t.render t (Follows [])) :
    ReadsBack (simpleWith keyRule vars type returnType) (TypeExpr.named target).render
      (.named target) (Behind inWord) := by
  intro rest hrest
  rw [TypeExpr.render]
  by_cases hnone : target.args = []
  · obtain ⟨kind, hkind, hspells, hwords⟩ := words_name hname isWord_of_acceptsAny hrest.apart
    have hword := isWord_of_acceptsAny kind hkind
    rw [NamedType.render_bare hnone, hwords]
    exact ⟨leads_nameWords hword (hrest.ne rfl), reads_simpleWith_name hkind
      (fun hupper hbare => hfree hbare (hupper ▸ hspells))
      (.bind (reads_namedWith_bare _ hkind hword hnone ⟨hrest.ne rfl, hrest.ne rfl⟩)
        fun _ ht => .pure ht)⟩
  · have hopened : Avoids inWord ("[" ++ (", ".intercalate (target.args.map TypeExpr.render) ++
        ("]" ++ rest))) := avoids_append (by decide) _
    obtain ⟨kind, hkind, hspells, hwords⟩ := words_name hname isWord_of_acceptsAny hopened
    have hword := isWord_of_acceptsAny kind hkind
    rw [NamedType.render_args hnone, String.append_assoc, String.append_assoc, String.append_assoc,
      hwords, words_literal "[" [.bracketOpen] (by decide)]
    exact ⟨leads_nameWords hword (by rintro ⟨⟩), reads_simpleWith_name hkind
      (fun hupper hbare => hfree hbare (hupper ▸ hspells))
      (.bind (reads_namedWith_args _ hkind hword hnone hargs rest) fun _ ht => .pure ht)⟩

/-! ## Tuples and records -/

theorem readsBack_tuple {types : List TypeExpr}
    (h : ∀ t ∈ types, ReadsBack type t.render t (Follows [])) :
    ReadsBack (simpleWith keyRule vars type returnType) (TypeExpr.tuple types).render (.tuple types)
      (Behind inWord) := by
  intro rest hrest
  by_cases hnone : types = []
  · subst hnone
    rw [TypeExpr.render, words_literal "[ ]" [.bracketOpen, .whitespace, .bracketClose] (by decide)]
    exact ⟨.cons rfl (by rintro ⟨⟩), reads_simpleWith (by rintro ⟨⟩) (.exactly reads_look
      (.step reads_assertAt fun _ => .exactly reads_bump (.exactly (reads_separatedUntil_nil rfl)
        (.step (reads_expect _) fun _ => .pure rfl))))⟩
  · obtain ⟨t, ts, rfl⟩ := List.exists_cons_of_ne_nil hnone
    have hlist := reads_separatedUntil (typeItems h)
      (fun t ht rest hrest => (h t ht rest hrest).1.ne .bracketClose rfl)
      (follows_bracketClose rest) (by rw [words_bracketClose]; rintro ⟨⟩)
    rw [words_bracketClose] at hlist
    rw [TypeExpr.render_tuple hnone, String.append_assoc, String.append_assoc,
      words_literal "[" [.bracketOpen] (by decide)]
    refine ⟨.cons rfl (by rintro ⟨⟩), reads_simpleWith (by rintro ⟨⟩) (.exactly reads_look
      (.step reads_assertAt fun _ => .exactly reads_bump (.bind hlist fun types' htypes =>
        .step (reads_expect _) fun _ => .pure ?_)))⟩
    rw [TypeExpr.withoutSpans_eq, TypeExpr.withoutSpans_eq (.tuple (t :: ts))]
    exact congrArg TypeExpr.tuple htypes

theorem words_colon (rest : String) : words (": " ++ rest) = (.colon, ":") :: words rest := by
  have hspells : TokenKind.colon.Spells ":".toList := by decide
  have hopen : OpenTo (fun c => c != ' ') ":".toList := by decide
  rw [show ": " = ":" ++ " " from rfl, String.append_assoc,
    words_append_of_openTo hspells hopen (avoids_append (by decide) _) ⟨by rintro ⟨⟩, rfl⟩,
    words_blank_append]

/-- A rule reads a printed key, which does not begin with the end of a record. -/
def ReadsKey (keyRule : Parser RecordKey) (key : RecordKey) : Prop :=
  ∀ rest, kindAt (words (key.render ++ rest)) 0 ≠ .braceClose ∧
    Reads keyRule (words (key.render ++ rest)) (· = key) (words rest)

theorem words_symbolKey {name : String} (h : IsWord name) : ∃ kind : TokenKind,
    kind.isWord = true ∧ ∀ rest, words ((RecordKey.symbol name).render ++ rest) =
      (kind, name) :: (.colon, ":") :: words rest := by
  obtain ⟨kind, hkind, hspells⟩ := h
  refine ⟨kind, hkind, fun rest => ?_⟩
  rw [RecordKey.render, String.append_assoc,
    words_append_of_isWord hspells hkind (avoids_append (by decide) _), words_colon]

theorem words_stringKey {quoted : String} (h : TokenKind.stringLit.Spells quoted.toList)
    (rest : String) : words ((RecordKey.string quoted).render ++ rest) =
      (.stringLit, quoted) :: (.fatArrow, "=>") :: words rest := by
  rw [RecordKey.render, String.append_assoc,
    words_append_of_openTo h (openTo_of_string h) (avoids_noChar _) ⟨by rintro ⟨⟩, rfl⟩,
    words_literal " => " [.whitespace, .fatArrow, .whitespace] (by decide)]
  rfl

/-- Keys without marks are read back. -/
theorem readsKey_recordKey {key : RecordKey} (hkey : key.Spelled) (hplain : key.isMarked = false) :
    ReadsKey recordKey key := by
  intro rest
  cases key with
  | symbol name =>
    have hname : IsWord name := hkey.resolve_right fun h => by
      rw [RecordKey.isMarked, h.isMarked] at hplain
      cases hplain
    obtain ⟨kind, hkind, hwords⟩ := words_symbolKey hname
    have hword : Reads (wordKey? kind) ((kind, name) :: (.colon, ":") :: words rest) (· = true)
        ((kind, name) :: (.colon, ":") :: words rest) := by
      rw [wordKey?, if_pos hkind]
      exact (reads_isFollowedBy .colon).mono fun _ hb => hb
    rw [hwords]
    exact ⟨ne_of_isWord hkind rfl, .exactly reads_look
      (.ifTrue hword (.exactly reads_bump (.exactly reads_bump (.pure rfl))))⟩
  | string quoted =>
    rw [words_stringKey hkey]
    exact ⟨by rintro ⟨⟩, .exactly reads_look (.ifFalse (.pure rfl)
      (.exactly reads_bump (.step (reads_expect _) fun _ => .pure rfl)))⟩

/-- A field without the places where its parts are written. -/
def stripField (f : RecordField) : RecordField := ⟨f.key, f.type.withoutSpans⟩

/-- A field is read back, and it does not begin with the end of a record. -/
theorem reads_fieldWith {keyRule : Parser RecordKey} {f : RecordField}
    (hkey : ReadsKey keyRule f.key) (h : ReadsBack type f.type.render f.type (Follows []))
    {rest : String} (hrest : Follows [] rest) :
    kindAt (words (f.render ++ rest)) 0 ≠ .braceClose ∧
      Reads (fieldWith keyRule type) (words (f.render ++ rest)) (stripField · = stripField f)
        (words rest) := by
  obtain ⟨key, t⟩ := f
  rw [RecordField.render, String.append_assoc]
  refine ⟨(hkey _).1, .bind (hkey _).2 fun key' hkey' => .bind (h rest hrest).2 fun t' ht =>
    .pure ?_⟩
  rw [stripField, stripField, hkey', ht]

theorem words_braceOpen (rest : String) :
    words ("\x7b " ++ rest) = (.braceOpen, "\x7b") :: words rest :=
  words_literal "\x7b " [.braceOpen, .whitespace] (by decide) rest

theorem words_braceClose (rest : String) :
    words (" \x7d" ++ rest) = (.braceClose, "\x7d") :: words rest :=
  words_literal " \x7d" [.whitespace, .braceClose] (by decide) rest

theorem words_record (fields : List RecordField) :
    ∃ inside : String, ∀ rest, words ((TypeExpr.record fields).render ++ rest) =
      (.braceOpen, "\x7b") :: words (inside ++ rest) := by
  cases fields with
  | nil =>
    refine ⟨"\x7d", fun rest => ?_⟩
    rw [TypeExpr.render, show "\x7b \x7d" = "\x7b " ++ "\x7d" from rfl, String.append_assoc,
      words_braceOpen]
  | cons f fields =>
    refine ⟨", ".intercalate ((f :: fields).map RecordField.render) ++ " \x7d", fun rest => ?_⟩
    rw [TypeExpr.render_record (List.cons_ne_nil _ _), String.append_assoc, words_braceOpen]

/-- A record is read back if its keys are. -/
theorem readsBack_recordWith {keyRule : Parser RecordKey} {fields : List RecordField}
    (hkeys : ∀ f ∈ fields, ReadsKey keyRule f.key)
    (h : ∀ f ∈ fields, ReadsBack type f.type.render f.type (Follows [])) :
    ReadsBack (recordWith keyRule type) (TypeExpr.record fields).render (.record fields)
      (Behind inWord) := by
  intro rest hrest
  by_cases hnone : fields = []
  · subst hnone
    rw [TypeExpr.render,
      words_literal "\x7b \x7d" [.braceOpen, .whitespace, .braceClose] (by decide)]
    exact ⟨.cons rfl (by rintro ⟨⟩), .step reads_assertAt fun _ => .exactly reads_bump
      (.exactly (reads_separatedUntil_nil rfl) (.step (reads_expect _) fun _ => .pure rfl))⟩
  · obtain ⟨f, fs, rfl⟩ := List.exists_cons_of_ne_nil hnone
    have hfield := fun f hf rest (hrest : Follows [] rest) =>
      reads_fieldWith (hkeys f hf) (h f hf) hrest
    have hitems : Items (fieldWith keyRule type) stripField stripField RecordField.render
        (Follows []) ", " .comma "," (f :: fs) :=
      ⟨words_comma, follows_comma, fun f hf rest hrest => (hfield f hf rest hrest).2⟩
    have hend : Follows [] (" \x7d" ++ rest) :=
      follows_of_words (by decide) (words_braceClose rest) rfl
    have hlist := reads_separatedUntil hitems (fun f hf rest hrest => (hfield f hf rest hrest).1)
      hend (by rw [words_braceClose]; rintro ⟨⟩)
    rw [words_braceClose] at hlist
    rw [TypeExpr.render_record hnone, String.append_assoc, String.append_assoc, words_braceOpen]
    refine ⟨.cons rfl (by rintro ⟨⟩), .step reads_assertAt fun _ => .exactly reads_bump
      (.bind hlist fun fields' hfields => .step (reads_expect _) fun _ => .pure ?_)⟩
    rw [TypeExpr.withoutSpans_eq, TypeExpr.withoutSpans_eq (.record (f :: fs))]
    exact congrArg TypeExpr.record hfields

theorem readsBack_record {fields : List RecordField}
    (hkeys : ∀ f ∈ fields, ReadsKey keyRule f.key)
    (h : ∀ f ∈ fields, ReadsBack type f.type.render f.type (Follows [])) :
    ReadsBack (simpleWith keyRule vars type returnType) (TypeExpr.record fields).render
      (.record fields) (Behind inWord) := by
  intro rest hrest
  obtain ⟨hleads, hread⟩ := readsBack_recordWith hkeys h rest hrest
  obtain ⟨inside, hwords⟩ := words_record fields
  rw [hwords] at hleads hread ⊢
  exact ⟨hleads, reads_simpleWith_record rfl hread⟩

end Simple

end Parser

end RubySig
