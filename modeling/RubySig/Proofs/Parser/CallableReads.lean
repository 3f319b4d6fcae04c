import RubySig.Proofs.Parser.SimpleReads

/-!
# Reading printed procs

* `Parser.reads_param`, `Parser.reads_params`: parameters are read as they are written and sorted
  back into their slots.
* `Parser.reads_block`: blocks.
* `Parser.readsBack_proc`: procs.
-/

namespace RubySig

namespace Parser

/-! ## Stars -/

theorem words_star_append {rest : String} (h : Avoids (· == '*') rest) :
    words ("*" ++ rest) = (.star, "*") :: words rest := by
  have hspells : TokenKind.star.Spells "*".toList := by decide
  have hopen : OpenTo (· == '*') "*".toList := by decide
  exact words_append_of_openTo hspells hopen h ⟨by rintro ⟨⟩, rfl⟩

/-- A text that begins like a type does not begin with a star. -/
theorem Leads.avoids_star {rest : String} (h : Leads (words rest)) : Avoids (· == '*') rest := by
  have hsplit : ∀ {text : String}, '*' ∈ text.toList.head? → ∃ tail, text = "*" ++ tail := by
    intro text hhead
    obtain ⟨cs, hcs⟩ := List.head?_eq_some_iff.1 (Option.mem_def.1 hhead)
    refine ⟨String.ofList cs, String.toList_injective ?_⟩
    rw [hcs, String.toList_append]
    exact congrArg ('*' :: ·) String.toList_ofList.symm
  intro c hc
  by_contra hstar
  obtain rfl : c = '*' := by simpa using hstar
  obtain ⟨tail, rfl⟩ := hsplit hc
  by_cases htail : Avoids (· == '*') tail
  · rw [words_star_append htail] at h
    exact h.ne .star rfl rfl
  · -- two stars are one word
    simp only [Avoids, not_forall] at htail
    obtain ⟨d, hd, hdstar⟩ := htail
    obtain rfl : d = '*' := by simpa using hdstar
    obtain ⟨tail, rfl⟩ := hsplit hd
    rw [← String.append_assoc, show "*" ++ "*" = "**" from rfl,
      words_literal "**" [.starStar] (by decide)] at h
    exact h.ne .starStar rfl rfl

theorem words_question (rest : String) : words ("?" ++ rest) = (.question, "?") :: words rest :=
  words_literal "?" [.question] (by decide) rest

/-! ## Parameters -/

/-- A text that can stand behind a parameter. -/
structure EndsParam (rest : String) : Prop where
  follows : Follows [] rest
  noName : kindAt (words rest) 0 ≠ .lowerIdent

section Callables

variable {type returnType : Parser TypeExpr}

/-- A parameter without the places in its type, as it is written. -/
def strippedAsWritten (p : Param) : Param := FunctionType.withType TypeExpr.withoutSpans p.asWritten

theorem reads_paramOf (slot : Slot) {p : Param}
    (hname : ∀ name ∈ p.name, TokenKind.lowerIdent.Spells name.toList)
    (h : ReadsBack type p.type.render p.type (Follows [])) {rest : String}
    (hrest : EndsParam rest) :
    Leads (words (p.render ++ rest)) ∧
      Reads (paramOf slot type) (words (p.render ++ rest))
        (FunctionType.withType TypeExpr.withoutSpans · = ⟨slot, p.type.withoutSpans, p.name⟩)
        (words rest) := by
  obtain ⟨pslot, t, name⟩ := p
  rw [Param.render, String.append_assoc]
  cases name with
  | none =>
    obtain ⟨hleads, hread⟩ := h _ hrest.follows
    rw [String.empty_append]
    exact ⟨hleads, .bind hread fun t' ht => .ifFalse (reads_isAt_false hrest.noName) (.pure
      (congrArg (Param.mk slot · none) ht))⟩
  | some name =>
    have hwords : words (" " ++ (name ++ rest)) = (.lowerIdent, name) :: words rest := by
      rw [words_blank_append, words_append_of_isWord (hname name rfl) rfl
        (hrest.follows.apart.of_inType (by decide))]
    have hbehind : Follows [] (" " ++ (name ++ rest)) :=
      follows_of_words (by decide) hwords rfl
    obtain ⟨hleads, hread⟩ := h _ hbehind
    rw [String.append_assoc]
    rw [hwords] at hread
    exact ⟨hleads, .bind hread fun t' ht => .ifTrue (reads_isAt_true rfl) (.exactly reads_bump
      (.pure (congrArg (Param.mk slot · (some name)) ht)))⟩

/-- A keyword and its colon. -/
theorem words_keywordName {key : String} (h : IsWord key) :
    ∃ kind : TokenKind, kind.isWord = true ∧ ∀ rest : String,
      words (key ++ (": " ++ rest)) = (kind, key) :: (.colon, ":") :: words rest := by
  obtain ⟨kind, hkind, hspells⟩ := h
  refine ⟨kind, hkind, fun rest => ?_⟩
  rw [words_append_of_isWord hspells hkind (avoids_append (by decide) _), words_colon]

theorem reads_keywordName {kind : TokenKind} {key : String} {ws : List Word} :
    Reads keywordName ((kind, key) :: (.colon, ":") :: ws) (· = key) ws :=
  .exactly reads_bump (.step (reads_expect _) fun _ => .pure rfl)

theorem reads_isOptionalKeyword {ws : List Word} :
    Reads isOptionalKeyword ws (· = ((kindAt ws 1).isWord && kindAt ws 2 == .colon)) ws := by
  refine .exactly (reads_peek 1) ?_
  cases hword : (kindAt ws 1).isWord with
  | true => exact .exactly (reads_peek 2) (.pure rfl)
  | false => exact .pure rfl

/-- A word that a type or a keyword begins with begins no other parameter. -/
theorem reads_param_word {kind : TokenKind} {ws left : List Word} {post : Param → Prop}
    (hkind : kindAt ws 0 = kind) (hopens : opensType kind = true)
    (h : Reads (if kind.isWord then do
        if ← isFollowedBy .colon then
          let key ← keywordName
          paramOf (.requiredKeyword key) type
        else paramOf .required type
      else paramOf .required type) ws post left) :
    Reads (param type) ws post left := by
  subst hkind
  refine .exactly reads_look ?_
  split
  · rename_i hquestion
    rw [hquestion] at hopens
    cases hopens
  · rename_i hstars
    rw [hstars] at hopens
    cases hopens
  · rename_i hstar
    rw [hstar] at hopens
    cases hopens
  · exact h

/-- A parameter without a mark. -/
theorem reads_param_required {p : Param}
    (hname : ∀ name ∈ p.name, TokenKind.lowerIdent.Spells name.toList)
    (h : ReadsBack type p.type.render p.type (Follows [])) {rest : String}
    (hrest : EndsParam rest) :
    Reads (param type) (words (p.render ++ rest))
      (FunctionType.withType TypeExpr.withoutSpans · = ⟨.required, p.type.withoutSpans, p.name⟩)
      (words rest) := by
  obtain ⟨hleads, hread⟩ := reads_paramOf .required hname h hrest
  refine reads_param_word rfl hleads.opens ?_
  split
  · refine .ifFalse ((reads_isFollowedBy .colon).mono fun b hb => ?_) hread
    rw [hb, beq_eq_false_iff_ne]
    exact hleads.noKey ‹_›
  · exact hread

/-- A parameter is read as it is written, and it does not begin with the end of a list. -/
theorem reads_param {p : Param} (hp : p.Spelled)
    (h : ReadsBack type p.type.render p.type (Follows [])) {rest : String}
    (hrest : EndsParam rest) :
    kindAt (words (p.text ++ rest)) 0 ≠ .parenClose ∧
      Reads (param type) (words (p.text ++ rest))
        (FunctionType.withType TypeExpr.withoutSpans · = strippedAsWritten p) (words rest) := by
  have hparam := fun slot => reads_paramOf slot hp.name h hrest
  have hleads : Leads (words (p.render ++ rest)) := (hparam .required).1
  have hword := hp.slot
  rw [Param.text, String.append_assoc]
  obtain ⟨slot, t, name⟩ := p
  cases slot with
  | required | trailing =>
    rw [Slot.render, String.empty_append]
    exact ⟨hleads.ne .parenClose rfl, reads_param_required hp.name h hrest⟩
  | optional =>
    have hnoKey : Reads isOptionalKeyword ((.question, "?") :: words (_ ++ rest)) (· = false)
        ((.question, "?") :: words (_ ++ rest)) :=
      reads_isOptionalKeyword.mono fun b hb => by
        rw [hb, Bool.and_eq_false_iff, beq_eq_false_iff_ne, ← Bool.not_eq_true, ← imp_iff_not_or]
        exact hleads.noKey
    rw [Slot.render, words_question]
    exact ⟨by rintro ⟨⟩, .exactly reads_look (.ifFalse hnoKey
      (.exactly reads_bump (hparam .optional).2))⟩
  | rest =>
    rw [Slot.render, words_star_append hleads.avoids_star]
    exact ⟨by rintro ⟨⟩, .exactly reads_look (.exactly reads_bump (hparam .rest).2)⟩
  | requiredKeyword key =>
    obtain ⟨kind, hkind, hwords⟩ := words_keywordName hword
    rw [Slot.render, String.append_assoc, hwords]
    refine ⟨ne_of_isWord hkind rfl, reads_param_word rfl (opensType_of_isWord hkind) ?_⟩
    show Reads (if kind.isWord = true then _ else _) _ _ _
    rw [if_pos hkind]
    exact .ifTrue ((reads_isFollowedBy .colon).mono fun _ hb => hb)
      (.exactly reads_keywordName (hparam (.requiredKeyword key)).2)
  | optionalKeyword key =>
    obtain ⟨kind, hkind, hwords⟩ := words_keywordName hword
    rw [Slot.render, String.append_assoc, String.append_assoc,
      words_question, hwords]
    refine ⟨by rintro ⟨⟩, .exactly reads_look (.ifTrue (reads_isOptionalKeyword.mono fun b hb => ?_)
      (.exactly reads_bump (.exactly reads_keywordName (hparam (.optionalKeyword key)).2)))⟩
    exact hb.trans (Bool.and_eq_true_iff.2 ⟨hkind, rfl⟩)
  | restKeywords =>
    rw [Slot.render, words_literal "**" [.starStar] (by decide)]
    exact ⟨by rintro ⟨⟩, .exactly reads_look (.exactly reads_bump (hparam .restKeywords).2)⟩

theorem words_parenOpen (rest : String) : words ("(" ++ rest) = (.parenOpen, "(") :: words rest :=
  words_literal "(" [.parenOpen] (by decide) rest

/-- A printed parameter list is read and sorted back. -/
theorem reads_params {f : FunctionType} (hps : SpelledParams f.params)
    (h : ∀ p ∈ f.params, ReadsBack type p.type.render p.type (Follows [])) (rest : String) :
    Reads (params type) (words (f.renderParams ++ rest))
      (fun ps => ps.map (FunctionType.withType TypeExpr.withoutSpans) =
        f.params.map (FunctionType.withType TypeExpr.withoutSpans)) (words rest) := by
  have hsorted : ∀ written : List Param,
      written.map (FunctionType.withType TypeExpr.withoutSpans) = f.params.map strippedAsWritten →
      (FunctionType.arrange written).map (FunctionType.withType TypeExpr.withoutSpans) =
        f.params.map (FunctionType.withType TypeExpr.withoutSpans) := by
    intro written hwritten
    rw [FunctionType.arrange_map, hwritten,
      ← FunctionType.arrange_map_asWritten hps.settled, FunctionType.arrange_map,
      FunctionType.arrange_map_asWritten hps.settled, List.map_map]
    rfl
  rw [FunctionType.renderParams_eq, String.append_assoc, String.append_assoc, words_parenOpen]
  refine .ifTrue reads_eat ?_
  by_cases hnone : f.params = []
  · rw [hnone, List.map_nil, String.intercalate_nil, String.empty_append, words_parenClose]
    exact .exactly (reads_separatedUntil_nil rfl) (.step (reads_expect _) fun _ => .pure rfl)
  · obtain ⟨p, ps, hcons⟩ := List.exists_cons_of_ne_nil hnone
    have hparam := fun p hp rest (hrest : EndsParam rest) =>
      reads_param (hps.each p hp) (h p hp) hrest
    have hitems : Items (param type) (FunctionType.withType TypeExpr.withoutSpans)
        strippedAsWritten Param.text EndsParam ", " .comma "," f.params :=
      ⟨words_comma, fun rest => ⟨follows_comma rest, by rw [words_comma]; rintro ⟨⟩⟩,
        fun p hp rest hrest => (hparam p hp rest hrest).2⟩
    rw [hcons] at hitems
    have hlist := reads_separatedUntil hitems
      (fun q hq rest hrest => (hparam q (hcons ▸ hq) rest hrest).1)
      ⟨follows_parenClose rest, by rw [words_parenClose]; rintro ⟨⟩⟩
      (by rw [words_parenClose]; rintro ⟨⟩)
    rw [← hcons, words_parenClose] at hlist
    exact .bind hlist fun written hwritten => .step (reads_expect _) fun _ =>
      .pure (hsorted written hwritten)

/-! ## Blocks and procs -/

/-- A function without the places in its types, told by its parts. -/
theorem mapTypes_eq {f g : FunctionType}
    (hparams : g.params.map (FunctionType.withType TypeExpr.withoutSpans) =
      f.params.map (FunctionType.withType TypeExpr.withoutSpans))
    (hreturn : g.returnType.withoutSpans = f.returnType.withoutSpans) :
    g.mapTypes TypeExpr.withoutSpans = f.mapTypes TypeExpr.withoutSpans :=
  congrArg₂ FunctionType.mk hparams hreturn

/-- What is read of a function: its types can be read, and its parameters can be written. -/
structure ReadsFunction (type returnType : Parser TypeExpr) (f : FunctionType)
    (returnText : String) : Prop where
  spelled : SpelledParams f.params
  params : ∀ p ∈ f.params, ReadsBack type p.type.render p.type (Follows [])
  returnType : ReadsBack returnType returnText f.returnType (Follows [])

theorem reads_blockBody (required : Bool) {f : FunctionType}
    (h : ReadsFunction type type f f.returnType.render) (rest : String) :
    Reads (blockBody required type)
      (words (f.renderParams ++ (" -> " ++ (f.returnType.render ++ (" \x7d " ++ rest)))))
      (fun block => block.map (·.mapTypes TypeExpr.withoutSpans) =
        some (Block.mapTypes TypeExpr.withoutSpans ⟨required, f⟩)) (words rest) := by
  have harrow : ∀ rest : String, words (" -> " ++ rest) = (.arrow, "->") :: words rest :=
    words_literal " -> " [.whitespace, .arrow, .whitespace] (by decide)
  have hclose : words (" \x7d " ++ rest) = (.braceClose, "\x7d") :: words rest :=
    words_literal " \x7d " [.whitespace, .braceClose, .whitespace] (by decide) rest
  have hparams := reads_params h.spelled h.params
    (" -> " ++ (f.returnType.render ++ (" \x7d " ++ rest)))
  obtain ⟨-, hreturn⟩ := h.returnType (" \x7d " ++ rest)
    (follows_of_words (by decide) hclose rfl)
  rw [hclose] at hreturn
  rw [harrow] at hparams
  exact .bind hparams fun ps hps => .step (reads_expect _) fun _ => .bind hreturn fun t ht =>
    .step (reads_expect _) fun _ => .pure (congrArg (fun f => some (Block.mk required f))
      (mapTypes_eq hps ht))

/-- A printed block is read, in front of an arrow. -/
theorem reads_block {b : Option Block}
    (h : ∀ b' ∈ b, ReadsFunction type type b'.function b'.function.returnType.render)
    {rest : String} (hrest : kindAt (words rest) 0 = .arrow) :
    Reads (block type) (words (renderBlock b ++ rest))
      (fun b' => b'.map (·.mapTypes TypeExpr.withoutSpans) =
        b.map (·.mapTypes TypeExpr.withoutSpans)) (words rest) := by
  cases b with
  | none =>
    rw [renderBlock, String.empty_append]
    refine .exactly reads_look ?_
    rw [hrest]
    exact .pure rfl
  | some b =>
    obtain ⟨required, f⟩ := b
    have hbody := reads_blockBody required (h _ rfl) rest
    rw [renderBlock_some]
    simp only [String.append_assoc]
    cases required with
    | true =>
      rw [if_pos rfl, String.empty_append, words_braceOpen]
      exact .exactly reads_look (.exactly reads_bump hbody)
    | false =>
      rw [if_neg Bool.false_ne_true, words_question, words_braceOpen]
      exact .exactly reads_look (.ifTrue ((reads_isFollowedBy .braceOpen).mono fun _ hb => hb)
        (.exactly reads_bump (.exactly reads_bump hbody)))

theorem reads_callable {f : FunctionType} {b : Option Block} {returnText : String}
    (hf : ReadsFunction type returnType f returnText)
    (hb : ∀ b' ∈ b, ReadsFunction type type b'.function b'.function.returnType.render)
    {rest : String} (hrest : Follows [] rest) :
    Reads (callable type returnType)
      (words (f.renderParams ++ (" " ++ (renderBlock b ++ ("-> " ++ (returnText ++ rest))))))
      (fun r => r.1.mapTypes TypeExpr.withoutSpans = f.mapTypes TypeExpr.withoutSpans ∧
        r.2.map (·.mapTypes TypeExpr.withoutSpans) = b.map (·.mapTypes TypeExpr.withoutSpans))
      (words rest) := by
  have harrow : words ("-> " ++ (returnText ++ rest)) =
      (.arrow, "->") :: words (returnText ++ rest) :=
    words_literal "-> " [.arrow, .whitespace] (by decide) _
  have hparams := reads_params hf.spelled hf.params
    (" " ++ (renderBlock b ++ ("-> " ++ (returnText ++ rest))))
  have hblock := reads_block hb (congrArg (kindAt · 0) harrow)
  rw [words_blank_append] at hparams
  rw [harrow] at hblock
  exact .bind hparams fun ps hps => .bind hblock fun b' hb' => .step (reads_expect _) fun _ =>
    .bind (hf.returnType rest hrest).2 fun t ht => .pure ⟨mapTypes_eq hps ht, hb'⟩

theorem readsBack_proc {keyRule : Parser RecordKey} {vars : List String} {f : FunctionType}
    {b : Option Block}
    (hf : ReadsFunction type returnType f (f.returnType.operandText .optional))
    (hb : ∀ b' ∈ b, ReadsFunction type type b'.function b'.function.returnType.render) :
    ReadsBack (simpleWith keyRule vars type returnType) (TypeExpr.proc f b).render (.proc f b)
      (Follows []) := by
  intro rest hrest
  rw [TypeExpr.render_proc, FunctionType.renderArrow_eq]
  simp only [String.append_assoc]
  rw [words_literal "^" [.caret] (by decide)]
  refine ⟨.cons rfl (by rintro ⟨⟩), reads_simpleWith (by rintro ⟨⟩) (.exactly reads_look
    (.step reads_assertAt fun _ => .exactly reads_bump
      (.bind (reads_callable hf hb hrest) fun (g, b') hcallable => .pure ?_)))⟩
  rw [TypeExpr.withoutSpans_eq, TypeExpr.withoutSpans_eq (.proc f b)]
  exact congrArg₂ TypeExpr.proc hcallable.1 hcallable.2

end Callables

end Parser

end RubySig
