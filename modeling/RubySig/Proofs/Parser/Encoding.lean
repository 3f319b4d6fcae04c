import Mathlib
import RubySig.Proofs.Declaration.Encoding
import RubySig.Proofs.Name.Identifiers
import RubySig.Proofs.Parser.BodyCut
import RubySig.Proofs.Parser.BodyScope
import RubySig.Proofs.Parser.TypeSpelling

/-!
# Parsed declarations are told apart by their encoding

Every name that the grammar returns is read back from its printed form, and every parameter list was
sorted into its slots.  So the declarations of a text are determined by their encoding, at any depth
and with all their spans.

* `Parser.typeExpr_recoverable`, `Parser.methodType_recoverable`: types and overloads.
* `Parser.bodyMember_recoverable`, `Parser.entityDeclAt_recoverable`: elements of bodies and
  declarations.
* `recoverable_of_parseSource`: the declarations of a text.
* `dump_lossless`: lists of parsed declarations with the same encoding are equal.
-/

namespace RubySig

open Json (Same)

/-! ## Types that can be written -/

theorem TypeName.Spelled.wellSpelled {accept : TokenKind → Bool} {n : TypeName}
    (h : n.Spelled accept) (haccept : ∀ kind, accept kind = true → Parser.acceptsAny kind = true) :
    n.WellSpelled := by
  obtain ⟨kind, hkind, hlast⟩ := h.last
  exact (TypeName.spelled_iff.1 ⟨h.path, kind, haccept kind hkind, hlast⟩).1

namespace Parser

theorem acceptsAny_of_acceptsUpper (kind : TokenKind) (h : acceptsUpper kind = true) :
    acceptsAny kind = true := by
  rw [beq_iff_eq.1 h]
  rfl

theorem acceptsAny_of_acceptsInterface (kind : TokenKind) (h : acceptsInterface kind = true) :
    acceptsAny kind = true := by
  rw [beq_iff_eq.1 h]
  rfl

theorem acceptsAny_of_acceptsLower (kind : TokenKind) (h : acceptsLower kind = true) :
    acceptsAny kind = true := by
  rw [beq_iff_eq.1 h]
  rfl

theorem acceptsAny_of_acceptsMixin (kind : TokenKind) (h : acceptsMixin kind = true) :
    acceptsAny kind = true :=
  Bool.or_eq_true_iff.2 (Or.inl h)

end Parser

theorem TypeExpr.SpelledAt.recoverableAt {vars : List String} {t : TypeExpr}
    (h : t.SpelledAt vars) : t.RecoverableAt := by
  cases t with
  | named target => exact h.1.wellSpelled fun _ => id
  | singleton target => exact h.wellSpelled Parser.acceptsAny_of_acceptsUpper
  | proc function block => exact ⟨h.1.settled, fun b hb => (h.2 b hb).settled⟩
  | _ => trivial

/-- What can be written is determined by its encoding. -/
theorem TypeExpr.Spelled.recoverable {vars : List String} {t : TypeExpr} (h : t.Spelled vars) :
    t.Recoverable :=
  fun u hu => (h u hu).recoverableAt

namespace Parser

variable (vars : List String) (levels : Nat)

/-! ## Overloads -/

theorem typeExpr_recoverable :
    Ensures anywhere (typeExpr vars levels) fun t _ => t.Recoverable :=
  (typeExpr_returnType_spelled vars levels).1.mono (fun _ => id) fun _ _ h => h.recoverable

theorem namedType_recoverable (what : String) :
    Ensures anywhere (namedType vars levels what) fun t _ => t.Recoverable := by
  have htype := (typeExpr_returnType_spelled vars levels).1
  refine .of_forall fun ls _ => (namedWith_spelled what rfl htype ls).mono (fun _ => id) ?_
  intro t _ h
  exact ⟨h.1.1.wellSpelled acceptsAny_of_acceptsMixin, fun a ha => (h.2 a ha).recoverable⟩

theorem declaredName_wellSpelled (what : String) {accept : TokenKind → Bool}
    (hgarbage : accept .garbage = false)
    (haccept : ∀ kind, accept kind = true → acceptsAny kind = true) :
    Ensures anywhere (typeName what accept) fun r _ => r.1.WellSpelled :=
  (typeName_spelled what hgarbage).mono (fun _ => id) fun _ _ h => h.wellSpelled haccept

theorem typeParam_recoverable (allowVariance : Bool) :
    Ensures anywhere (typeParam allowVariance vars levels) fun p _ => p.Recoverable := by
  refine .step cut_startOffset fun _ => .step (cut_uncheckedMark _ (by decide)) fun _ =>
    .step (cut_variance _ (by decide)) fun _ => .step (cut_isAt _ (by decide)) fun _ =>
      .ite (fun _ => .step .bump fun name => ?_) fun _ => .unexpected _
  have hbound : Ensures anywhere (upperBound (typeExpr (name :: vars) levels)) fun bound _ =>
      ∀ t ∈ bound, t.Recoverable := by
    refine .step (cut_eaten _ (by decide)) fun _ => .ite (fun _ => ?_) fun _ => ?_
    · exact .known (typeExpr_recoverable _ levels) fun _ ht => .pure fun _ _ _ hu =>
        Option.mem_some.1 hu ▸ ht
    · exact .pure fun _ _ => nofun
  exact .known hbound fun _ hbound => .step (cut_spanFrom _) fun _ => .pure fun _ _ => hbound

theorem typeParamsWithin_recoverable (allowVariance : Bool) (n : Nat) :
    Ensures anywhere (typeParamsWithin allowVariance levels vars n) fun ps _ =>
      ∀ p ∈ ps, p.Recoverable := by
  induction n generalizing vars with
  | zero => exact .throw _
  | succ n ih =>
    exact .known (typeParam_recoverable vars levels allowVariance) fun p hp =>
      .step (cut_eaten _ (by decide)) fun _ => .ite (fun _ => .cons hp (ih _))
        fun _ => .singleton hp

theorem typeParams_recoverable (allowVariance : Bool) :
    Ensures anywhere (typeParams allowVariance vars levels) fun ps _ =>
      ∀ p ∈ ps, p.Recoverable :=
  .step (cut_eaten _ (by decide)) fun _ => .ite (fun _ => .step cut_rounds fun _ =>
    .known (typeParamsWithin_recoverable vars levels allowVariance _) fun _ hps =>
      .step (cut_expect _ _ (by decide)) fun _ => .pure fun _ _ => hps) fun _ => .nil

theorem methodType_recoverable :
    Ensures anywhere (methodType vars levels) fun m _ => m.Recoverable := by
  refine .step cut_startOffset fun _ =>
    .known (typeParams_recoverable vars levels false) fun ps hps => ?_
  have htypes := typeExpr_returnType_spelled (typeParamNames ps ++ vars) levels
  refine .known (callable_spelled htypes.1 htypes.2) fun (function, block) hcallable =>
    .step (cut_spanFrom _) fun _ => .pure fun _ _ => ?_
  obtain ⟨hfunction, hblock⟩ := hcallable
  refine ⟨hps, ⟨hfunction.1.settled, fun b hb => (hblock b hb).1.settled⟩, ?_⟩
  refine List.forall_mem_append.2 ⟨fun t ht => (hfunction.2 t ht).recoverable, ?_⟩
  cases block with
  | none => exact fun _ ht => absurd ht List.not_mem_nil
  | some b => exact fun t ht => ((hblock b rfl).2 t ht).recoverable

/-! ## Elements of bodies -/

theorem methodMember_recoverable (visibility : Option Visibility) (start : Nat) :
    Ensures anywhere (methodMember vars levels visibility start) fun m _ =>
      ∀ o ∈ m.overloads, o.Recoverable := by
  have hothers : Ensures anywhere (repeatedAfter .pipe (methodType vars levels)) fun ms _ =>
      ∀ m ∈ ms, m.Recoverable :=
    .step cut_rounds fun n => .repeatedAfterWithin (methodType_recoverable vars levels) n
  exact .step (cut_assertAt _ (by decide)) fun _ => .step .bump fun _ =>
    .step (cut_methodKind (by decide)) fun _ => .step (cut_methodName (by decide)) fun _ =>
      .step (cut_expect _ _ (by decide)) fun _ =>
        .known (methodType_recoverable vars levels) fun _ hfirst => .known hothers fun _ hothers =>
          .step (cut_spanFrom _) fun _ => .pure fun _ _ => List.forall_mem_cons.2 ⟨hfirst, hothers⟩

theorem attributeMember_recoverable (visibility : Option Visibility) (start : Nat) :
    Ensures anywhere (attributeMember vars levels visibility start) fun m _ =>
      m.type.Recoverable :=
  .step (cut_attributeKind (by decide)) fun _ => .step .bump fun _ =>
    .step (cut_eatSelfDot (by decide)) fun _ => .step (cut_look (by decide)) fun _ =>
      .ite (fun _ => .step .bump fun _ => .step (cut_expect _ _ (by decide)) fun _ =>
        .known (typeExpr_recoverable vars levels) fun _ ht => .step (cut_spanFrom _) fun _ =>
          .pure fun _ _ => ht) fun _ => .unexpected _

theorem mixinMember_recoverable (kind : MixinKind) :
    Ensures anywhere (mixinMember vars levels kind) fun m _ => m.target.Recoverable :=
  .step cut_startOffset fun _ => .step .bump fun _ =>
    .known (namedType_recoverable vars levels _) fun _ htarget => .step (cut_spanFrom _) fun _ =>
      .pure fun _ _ => htarget

theorem variableMember_recoverable :
    Ensures anywhere (variableMember vars levels) fun m _ => m.type.Recoverable :=
  .step cut_startOffset fun _ => .step (cut_isAt _ (by decide)) fun _ => .step .bump fun _ =>
    .step (cut_expect _ _ (by decide)) fun _ => .known (typeExpr_recoverable vars levels)
      fun _ ht => .step (cut_spanFrom _) fun _ => .pure fun _ _ => ht

variable {vars}

/-- An element of a body without a declaration in it, put together from what a rule returns. -/
theorem recoverable_built {α : Type} {p : Parser α} {build : α → Member}
    (hnested : ∀ a d, build a ≠ .nested d)
    (h : Ensures anywhere p fun a _ => (build a).RecoverableAt) :
    Ensures anywhere (do return build (← p)) fun m _ => m.Recoverable :=
  .known h fun a ha => .pure fun _ _ => ⟨ha, fun d hd => absurd hd (hnested a d)⟩

theorem visibilityMember_recoverable :
    Ensures anywhere (visibilityMember vars levels) fun m _ => m.Recoverable := by
  refine .step cut_startOffset fun _ => .step cut_currentRange fun _ =>
    .step (cut_isAt _ (by decide)) fun _ => .step (cut_prefixesMember (by decide)) fun _ =>
      .step .bump fun _ => .ite (fun _ => ?_) fun _ => ?_
  · refine .step (cut_isAt _ (by decide)) fun _ => .ite (fun _ => ?_) fun _ => ?_
    · exact recoverable_built nofun (methodMember_recoverable vars levels _ _)
    · exact recoverable_built nofun (attributeMember_recoverable vars levels _ _)
  · exact .step (cut_spanOf _) fun _ => .pure fun _ _ => ⟨trivial, nofun⟩

theorem aliasMember_recoverable :
    Ensures anywhere (do return Member.methodAlias (← aliasMember)) fun m _ => m.Recoverable :=
  .step (cut_aliasMember (by decide)) fun _ => .pure fun _ _ => ⟨trivial, nofun⟩

theorem bodyMember_recoverable {declaration : Parser EntityDecl}
    (h : Ensures anywhere declaration fun d _ => d.Recoverable) :
    Ensures anywhere (bodyMember vars levels declaration) fun m _ => m.Recoverable := by
  have hmixin : ∀ kind, Ensures anywhere (do
      return Member.mixin (← mixinMember vars levels kind)) fun m _ => m.Recoverable :=
    fun kind => recoverable_built nofun (mixinMember_recoverable vars levels kind)
  have hattribute : Ensures anywhere (do
      let start ← startOffset
      return Member.attr (← attributeMember vars levels none start)) fun m _ => m.Recoverable :=
    .step cut_startOffset fun _ =>
      recoverable_built nofun (attributeMember_recoverable vars levels _ _)
  have hvariable : Ensures anywhere (do
      return Member.typedVar (← variableMember vars levels)) fun m _ => m.Recoverable :=
    recoverable_built nofun (variableMember_recoverable vars levels)
  have hnested : Ensures anywhere (do return Member.nested (← declaration)) fun m _ =>
      m.Recoverable :=
    .known h fun d hd => .pure fun _ _ => ⟨trivial, fun _ heq => Member.nested.inj heq ▸ hd⟩
  refine .step (cut_look (by decide)) fun kind => ?_
  split
  · exact .step cut_startOffset fun _ =>
      recoverable_built nofun (methodMember_recoverable vars levels _ _)
  · exact aliasMember_recoverable
  · exact hmixin _
  · exact hmixin _
  · exact hmixin _
  · exact hattribute
  · exact hattribute
  · exact hattribute
  · exact visibilityMember_recoverable levels
  · exact visibilityMember_recoverable levels
  · exact hvariable
  · exact hvariable
  all_goals first | exact hnested | exact .unexpected _

theorem interfaceMember_recoverable :
    Ensures anywhere (interfaceMember vars levels) fun m _ => m.Recoverable := by
  refine .step (cut_look (by decide)) fun kind => ?_
  split
  · exact .step cut_startOffset fun _ =>
      recoverable_built nofun (methodMember_recoverable vars levels _ _)
  · exact aliasMember_recoverable
  · exact recoverable_built nofun (mixinMember_recoverable vars levels _)
  · exact .unexpected _

theorem memberList_recoverable {member : Parser Member}
    (h : Ensures anywhere member fun m _ => m.Recoverable) :
    Ensures anywhere (memberList member) fun ms _ => ∀ m ∈ ms, m.Recoverable := by
  have hwithin : ∀ n, Ensures anywhere (memberListWithin member n) fun ms _ =>
      ∀ m ∈ ms, m.Recoverable := by
    intro n
    induction n with
    | zero => exact .throw _
    | succ n ih =>
      exact .step (cut_eaten _ (by decide)) fun _ => .ite (fun _ => .nil) fun _ =>
        .step cut_atEnd fun _ => .ite (fun _ => .unexpected _) fun _ =>
          .known h fun _ hm => .cons hm ih
  exact .step cut_rounds fun _ => hwithin _

/-! ## Declarations -/

/-- The elements of bodies are determined by their encoding. -/
structure Bodies.Recoverable (b : Bodies) : Prop where
  klass : ∀ vars, Ensures anywhere (b.klass vars) fun ms _ => ∀ m ∈ ms, m.Recoverable
  interface : ∀ vars, Ensures anywhere (b.interface vars) fun ms _ => ∀ m ∈ ms, m.Recoverable

section Declarations

variable {bodies : Bodies}

theorem classDecl_recoverable (h : bodies.Recoverable) :
    Ensures anywhere (classDecl levels bodies) fun d _ => (EntityDecl.klass d).Recoverable := by
  refine .step cut_startOffset fun _ => .step (cut_assertAt _ (by decide)) fun _ =>
    .step .bump fun _ => .known (declaredName_wellSpelled _ rfl acceptsAny_of_acceptsUpper)
      fun (_, _) hname => .known (typeParams_recoverable _ _ _) fun ps hps => ?_
  have hsuper : Ensures anywhere (do
      if ← eat .lt then
        return some (← namedType (typeParamNames ps) levels "a superclass name")
      else return none) fun s _ => ∀ t ∈ s, t.Recoverable := by
    refine .step (cut_eaten _ (by decide)) fun _ => .ite (fun _ => ?_) fun _ => ?_
    · exact .known (namedType_recoverable _ levels _) fun _ hs => .pure fun _ _ _ ht =>
        Option.mem_some.1 ht ▸ hs
    · exact .pure fun _ _ => nofun
  exact .known hsuper fun _ hsuper => .known (h.klass _) fun _ hmembers =>
    .step (cut_spanOf _) fun _ => .step (cut_spanFrom _) fun _ => .pure fun _ _ =>
      EntityDecl.recoverable_of_members hname hps hsuper hmembers

theorem moduleDecl_recoverable (h : bodies.Recoverable) :
    Ensures anywhere (moduleDecl levels bodies) fun d _ => (EntityDecl.module d).Recoverable := by
  refine .step cut_startOffset fun _ => .step (cut_assertAt _ (by decide)) fun _ =>
    .step .bump fun _ => .known (declaredName_wellSpelled _ rfl acceptsAny_of_acceptsUpper)
      fun (_, _) hname => .known (typeParams_recoverable _ _ _) fun ps hps => ?_
  have hself : Ensures anywhere (do
      if ← eat .colon then
        separated .comma (namedType (typeParamNames ps) levels "a self type")
      else return []) fun ss _ => ∀ s ∈ ss, s.Recoverable :=
    .step (cut_eaten _ (by decide)) fun _ => .ite
      (fun _ => .separated (namedType_recoverable _ levels _)) fun _ => .nil
  exact .known hself fun _ hself => .known (h.klass _) fun _ hmembers =>
    .step (cut_spanOf _) fun _ => .step (cut_spanFrom _) fun _ => .pure fun _ _ =>
      EntityDecl.recoverable_of_members hname hps hself hmembers

theorem interfaceDecl_recoverable (h : bodies.Recoverable) :
    Ensures anywhere (interfaceDecl levels bodies) fun d _ =>
      (EntityDecl.interface d).Recoverable :=
  .step cut_startOffset fun _ => .step (cut_assertAt _ (by decide)) fun _ => .step .bump fun _ =>
    .known (declaredName_wellSpelled _ rfl acceptsAny_of_acceptsInterface) fun (_, _) hname =>
      .known (typeParams_recoverable _ _ _) fun _ hps => .known (h.interface _) fun _ hmembers =>
        .step (cut_spanOf _) fun _ => .step (cut_spanFrom _) fun _ => .pure fun _ _ =>
          EntityDecl.recoverable_of_members hname hps trivial hmembers

theorem aliasDecl_recoverable :
    Ensures anywhere (aliasDecl levels) fun d _ => (EntityDecl.typeAlias d).Recoverable :=
  .step cut_startOffset fun _ => .step (cut_assertAt _ (by decide)) fun _ => .step .bump fun _ =>
    .known (declaredName_wellSpelled _ rfl acceptsAny_of_acceptsLower) fun (_, _) hname =>
      .known (typeParams_recoverable _ _ _) fun _ hps => .step (cut_expect _ _ (by decide)) fun _ =>
        .known (typeExpr_recoverable _ levels) fun _ ht => .step (cut_spanOf _) fun _ =>
          .step (cut_spanFrom _) fun _ => .pure fun _ _ =>
            EntityDecl.recoverable_of_members hname hps ht nofun

theorem constantDecl_recoverable (vars : List String) :
    Ensures anywhere (constantDecl vars levels) fun d _ => (EntityDecl.constant d).Recoverable :=
  .step cut_startOffset fun _ =>
    .known (declaredName_wellSpelled _ rfl acceptsAny_of_acceptsUpper) fun (_, _) hname =>
      .step (cut_expect _ _ (by decide)) fun _ => .known (typeExpr_recoverable _ levels) fun _ ht =>
        .step (cut_spanOf _) fun _ => .step (cut_spanFrom _) fun _ => .pure fun _ _ =>
          EntityDecl.recoverable_of_members hname nofun ht nofun

theorem entityDeclAt_recoverable (vars : List String) (h : bodies.Recoverable) (kind : TokenKind) :
    Ensures anywhere (entityDeclAt vars levels bodies kind) fun d _ => d.Recoverable := by
  have hconstant : Ensures anywhere (do return .constant (← constantDecl vars levels))
      fun d _ => EntityDecl.Recoverable d :=
    .known (constantDecl_recoverable levels vars) fun _ hd => .pure fun _ _ => hd
  unfold entityDeclAt
  split
  · exact .known (classDecl_recoverable levels h) fun _ hd => .pure fun _ _ => hd
  · exact .known (moduleDecl_recoverable levels h) fun _ hd => .pure fun _ _ => hd
  · exact .known (interfaceDecl_recoverable levels h) fun _ hd => .pure fun _ _ => hd
  · exact .known (aliasDecl_recoverable levels) fun _ hd => .pure fun _ _ => hd
  · exact hconstant
  · exact hconstant
  · exact .unexpected _

/-- By induction on the levels that may still be opened: a body opens one for each element. -/
theorem bodiesWithin_recoverable : (bodiesWithin levels).Recoverable := by
  induction levels with
  | zero =>
    exact ⟨fun _ => memberList_recoverable (.throw _), fun _ => memberList_recoverable (.throw _)⟩
  | succ n ih =>
    exact ⟨fun vars => memberList_recoverable (.nested (bodyMember_recoverable n
        (.step (cut_look (by decide)) fun kind => entityDeclAt_recoverable n vars ih kind))),
      fun _ => memberList_recoverable (.nested (interfaceMember_recoverable n))⟩

end Declarations

/-! ## Files -/

theorem globalDecl_recoverable :
    Ensures anywhere (globalDecl levels) fun d _ => d.type.Recoverable :=
  .step cut_startOffset fun _ => .step (cut_assertAt _ (by decide)) fun _ =>
    .step .bump fun _ => .step (cut_expect _ _ (by decide)) fun _ =>
      .known (typeExpr_recoverable _ levels) fun _ ht => .step (cut_spanFrom _) fun _ =>
        .pure fun _ _ => ht

theorem declaration_recoverable :
    Ensures anywhere (declaration levels) fun d _ => d.Recoverable := by
  refine .step (cut_look (by decide)) fun kind => ?_
  split
  · exact .known (globalDecl_recoverable levels) fun _ hd => .pure fun _ _ => hd
  · exact .known (entityDeclAt_recoverable levels [] (bodiesWithin_recoverable levels) _)
      fun _ hd => .pure fun _ _ => hd

theorem file_recoverable :
    Ensures anywhere (file levels) fun ds _ => ∀ d ∈ ds, Declaration.Recoverable d := by
  have hwithin : ∀ n, Ensures anywhere (fileWithin levels n) fun ds _ =>
      ∀ d ∈ ds, Declaration.Recoverable d := by
    intro n
    induction n with
    | zero => exact .throw _
    | succ n ih =>
      exact .step cut_atEnd fun _ => .ite (fun _ => .nil) fun _ =>
        .known (declaration_recoverable levels) fun _ hd => .cons hd ih
  exact .step cut_rounds fun _ => hwithin _

end Parser

/-- The declarations of a text are determined by their encoding. -/
theorem recoverable_of_parseSource {limits : Limits} {source : SourceId} {text : String}
    {declarations : List Declaration} {errors : List Diagnostic}
    (h : parseSource limits source text = .ok (declarations, errors)) :
    ∀ d ∈ declarations, d.Recoverable := by
  rcases runFile_of_parseSource h with rfl | ⟨c, hrun⟩
  · exact fun _ hd => absurd hd List.not_mem_nil
  · have hproper : ∀ l ∈ (Cursor.start source text limits.execFuel).rest, l.Proper :=
      fun _ hl => Lexeme.spells_of_mem_ofText hl
    exact (Parser.file_recoverable _ _ _ _ hproper trivial hrun).2

/-! ## Lists of declarations -/

/-- Every declaration of a list was read from a text. -/
def Parsed (declarations : List Declaration) : Prop :=
  ∀ d ∈ declarations, ∃ limits source text own errors,
    parseSource limits source text = .ok (own, errors) ∧ d ∈ own

theorem parsed_of_parseSource {limits : Limits} {source : SourceId} {text : String}
    {declarations : List Declaration} {errors : List Diagnostic}
    (h : parseSource limits source text = .ok (declarations, errors)) : Parsed declarations :=
  fun _ hd => ⟨limits, source, text, declarations, errors, h, hd⟩

theorem Parsed.recoverable {declarations : List Declaration} (h : Parsed declarations) :
    ∀ d ∈ declarations, d.Recoverable := by
  intro d hd
  obtain ⟨_, _, _, _, _, hparse, hown⟩ := h d hd
  exact recoverable_of_parseSource hparse d hown

/-- Declarations that were read from texts are written as JSON without any loss: if two lists of
them have equal values, up to the order of the keys, they are the same declarations, with all spans
and with every name as it was written. -/
theorem dump_lossless {declarations others : List Declaration} (hdeclarations : Parsed declarations)
    (hothers : Parsed others)
    (hsame : (Json.list Declaration.toJson declarations).Same
      (Json.list Declaration.toJson others)) : declarations = others :=
  Same.list_inj hsame fun d hd e he =>
    Declaration.eq_of_same (hdeclarations.recoverable d hd) (hothers.recoverable e he)

/-- `A: ::B` at the beginning of a text. -/
def typedConstant : List Declaration :=
  [.entity (.constant
    { name := ⟨⟨[], false⟩, "A"⟩
      type := .named ⟨⟨⟨[], true⟩, "B"⟩, [], ⟨0, ⟨3, 6⟩⟩⟩
      nameSpan := ⟨0, ⟨0, 1⟩⟩
      span := ⟨0, ⟨0, 6⟩⟩ })]

/-- A comment is no part of what is declared. -/
theorem dump_lossless_comment :
    parseSource .unlimited 0 "A: ::B" = .ok (typedConstant, []) ∧
      ∃ others, parseSource .unlimited 0 "A: ::B # of A" = .ok (others, []) ∧
        (Json.list Declaration.toJson typedConstant).Same (Json.list Declaration.toJson others) ∧
        typedConstant = others := by
  have hplain : parseSource .unlimited 0 "A: ::B" = .ok (typedConstant, []) := by
    cbv
  have hcomment : parseSource .unlimited 0 "A: ::B # of A" = .ok (typedConstant, []) := by
    cbv
  exact ⟨hplain, typedConstant, hcomment, .refl _,
    dump_lossless (parsed_of_parseSource hplain) (parsed_of_parseSource hcomment) (.refl _)⟩

end RubySig
