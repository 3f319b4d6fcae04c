import RubySig.Proofs.Parser.TypeSpans

/-!
# Spans in parsed declarations

A declaration is written between its first lexeme and its last one, and so is a member.  What stands
in a body is read one behind the other.

* `Member.DeepWellNested`: a member with the declaration in it.
* `EntityDecl.wellNested_of`: a declaration, put together from its parts.
* `Parser.bodyMember_fills`, `Parser.entityDeclAt_fills`: elements of bodies and declarations.
* `Parser.bodiesWithin_fills`: bodies, down through all levels of nesting.
* `Parser.file_fills`: the declarations of a file.
-/

namespace RubySig

variable {source : SourceId} {text : String}

/-! ## Declarations and their parts -/

/-- The spans in a member are well nested, those of a declaration in it included. -/
structure Member.DeepWellNested (source : SourceId) (text : String) (m : Member) : Prop where
  own : m.WellNested source text
  nested : ∀ d, m = .nested d → d.WellNested source text

theorem Member.DeepWellNested.of_not_nested {m : Member} (h : m.WellNested source text)
    (hnested : ∀ d, m ≠ .nested d) : m.DeepWellNested source text :=
  ⟨h, fun d hd => absurd hd (hnested d)⟩

/-- A member with references only. -/
theorem Member.wellNested_of_references {m : Member} (hwritten : m.span.Written source text)
    (hreferences : ReferencesIn source text m.span.range m.references)
    (hmethod : ∀ d, m ≠ .method d) : m.WellNested source text :=
  ⟨hwritten, hreferences, fun d hd => absurd hd (hmethod d), fun d hd => absurd hd (hmethod d)⟩

/-- A method with its overloads in a row. -/
theorem Member.wellNested_method {m : MethodMember} (hwritten : m.span.Written source text)
    (hrow : Parser.InRow (Parser.Lies (MethodType.WellNested source text) MethodType.span)
      m.span.range m.overloads) : (Member.method m).WellNested source text := by
  refine ⟨hwritten, referencesIn_flatMap.2 fun o ho => ?_, fun d hd => ?_, fun d hd => ?_⟩
  · obtain ⟨hnested, hwithin⟩ := hrow.each o ho
    exact hnested.references.widen hwithin
  · cases hd
    exact fun o ho => (hrow.each o ho).1
  · cases hd
    exact hrow.siblings

/-- A declaration with its name, type parameters, other references and members in its span. -/
theorem EntityDecl.wellNested_of {d : EntityDecl} {references : List Reference}
    (hwritten : d.span.Written source text) (hname : d.nameSpan.Written source text)
    (hwithin : d.nameSpan.Within d.span)
    (hparams : Parser.InRow (Parser.Lies (TypeParam.WellNested source text) TypeParam.span)
      d.span.range d.typeParams)
    (hheader : d.headerReferences = referencesOfTypeParams d.typeParams ++ references)
    (hreferences : ReferencesIn source text d.span.range references)
    (hmembers : Parser.InRow (Parser.Lies (Member.DeepWellNested source text) Member.span)
      d.span.range d.members) : d.WellNested source text := by
  refine .node ⟨hwritten, hname, hwithin, fun p hp => (hparams.each p hp).1, hparams.siblings, ?_,
    fun m hm => (hmembers.each m hm).1.own, hmembers.siblings⟩ fun e he => ?_
  · rw [hheader, referencesOfTypeParams_eq]
    exact List.forall_mem_append.2
      ⟨referencesIn_flatMap.2 (typesIn_bounds hparams.each), hreferences⟩
  · exact (hmembers.each _ he).1.nested e rfl

namespace Parser

/-! ## Elements of bodies -/

section Members

variable (vars : List String) (levels : Nat)

theorem methodMember_fills (visibility : Option Visibility) (start : Nat) {e : Nat} :
    Fills source text start e (methodMember vars levels visibility start) (Begins text start
      fun range m => Lies (Member.DeepWellNested source text) Member.span range (.method m)) := by
  refine .step (cut_assertAt _ (by decide)) fun _ _ _ => .take .bump fun _ _ _ hlt =>
    .step (cut_methodKind (by decide)) fun kind _ _ => .step (cut_methodName (by decide))
      fun name _ _ => .step (cut_expect _ _ (by decide)) fun _ _ _ =>
        .bind (methodType_fills vars levels _ _) fun first e₁ _ hfirst => .raise <|
          .bind (.repeatedAfter widens_lies (methodType_fills vars levels) _ _)
            fun others e₂ hle hothers => .spanned (by omega) fun hwritten => ?_
  have hrow : InRow (Lies (MethodType.WellNested source text) MethodType.span) ⟨start, e₂⟩
      (first :: others) :=
    .cons widens_lies hfirst (le_max_right _ _) hle (le_max_left _ _) hothers
  exact ⟨.of_not_nested (Member.wellNested_method hwritten hrow) (by rintro _ ⟨⟩), .refl _⟩

theorem attributeMember_fills (visibility : Option Visibility) (start : Nat) {e : Nat} :
    Fills source text start e (attributeMember vars levels visibility start) (Begins text start
      fun range m => Lies (Member.DeepWellNested source text) Member.span range (.attr m)) := by
  refine .step (cut_attributeKind (by decide)) fun kind _ _ => .take .bump fun _ _ _ hlt =>
    .step (cut_eatSelfDot (by decide)) fun singleton _ _ => .step (cut_look (by decide))
      fun _ _ _ => .ite (fun _ => ?_) fun _ => .unexpected _
  refine .step .bump fun name _ _ => .step (cut_expect _ _ (by decide)) fun _ _ _ =>
    .bind (typeExpr_fills vars levels _ _) fun type _ _ htype => .spanned (by omega)
      fun hwritten => ⟨.of_not_nested ?_ (by rintro _ ⟨⟩), .refl _⟩
  exact Member.wellNested_of_references hwritten htype (by rintro _ ⟨⟩)

theorem aliasMember_fills : FillsWith source text aliasMember fun range m =>
    Lies (Member.DeepWellNested source text) Member.span range (.methodAlias m) := by
  refine fun _ _ => .startOffset (widens_lies.comap _) fun start =>
    .step (cut_assertAt _ (by decide)) fun _ _ _ => .take .bump fun _ _ _ hlt =>
      .step (cut_eatSelfDot (by decide)) fun singleton _ _ => .step (cut_methodName (by decide))
        fun newName _ _ => .step cut_currentRange fun _ _ _ =>
          .step (cut_eatSelfDot (by decide)) fun _ _ _ => .ite (fun _ => ?_) fun _ => .throw _
  refine .step (cut_methodName (by decide)) fun oldName _ _ => .spanned (by omega)
    fun hwritten => ⟨.of_not_nested ?_ (by rintro _ ⟨⟩), .refl _⟩
  exact Member.wellNested_of_references hwritten referencesIn_nil (by rintro _ ⟨⟩)

theorem mixinMember_fills (kind : MixinKind) :
    FillsWith source text (mixinMember vars levels kind) fun range m =>
      Lies (Member.DeepWellNested source text) Member.span range (.mixin m) := by
  refine fun _ _ => .startOffset (widens_lies.comap _) fun start =>
    .take .bump fun _ _ _ hlt => .bind (namedType_fills vars levels _ _ _) fun target _ _ htarget =>
      .spanned (by omega) fun hwritten => ⟨.of_not_nested ?_ (by rintro _ ⟨⟩), .refl _⟩
  exact Member.wellNested_of_references hwritten htarget (by rintro _ ⟨⟩)

theorem variableMember_fills : FillsWith source text (variableMember vars levels) fun range m =>
    Lies (Member.DeepWellNested source text) Member.span range (.typedVar m) := by
  refine fun _ _ => .startOffset (widens_lies.comap _) fun start =>
    .step (cut_isAt _ (by decide)) fun _ _ _ => .take .bump fun name _ _ hlt =>
      .step (cut_expect _ _ (by decide)) fun _ _ _ => .bind (typeExpr_fills vars levels _ _)
        fun type _ _ htype => .spanned (by omega)
          fun hwritten => ⟨.of_not_nested ?_ (by rintro _ ⟨⟩), .refl _⟩
  exact Member.wellNested_of_references hwritten htype (by rintro _ ⟨⟩)

theorem visibilityMember_fills : FillsWith source text (visibilityMember vars levels)
    (Lies (Member.DeepWellNested source text) Member.span) := by
  refine fun _ _ => .startOffset widens_lies fun start => .currentRange fun range =>
    .asks (asks_isAt _) fun isPrivate => .asks asks_prefixesMember fun applies =>
      .bump fun _ hwritten hlow hle => .ite (fun _ => ?_) fun _ => .spanOf <| .pure ?_
  · refine .step (cut_isAt _ (by decide)) fun _ _ _ => .ite (fun _ => ?_) fun _ => ?_
    · exact .bind (methodMember_fills vars levels _ start) fun _ _ _ hm => .pure hm
    · exact .bind (attributeMember_fills vars levels _ start) fun _ _ _ hm => .pure hm
  · refine ⟨hlow.trans_lt hwritten.proper, fun _ => ⟨.of_not_nested ?_ (by rintro _ ⟨⟩),
      hlow, le_refl _⟩⟩
    exact Member.wellNested_of_references ⟨rfl, hwritten⟩ referencesIn_nil (by rintro _ ⟨⟩)

theorem method_fills : FillsWith source text (do
      let start ← startOffset
      return Member.method (← methodMember vars levels none start))
    (Lies (Member.DeepWellNested source text) Member.span) := fun _ _ =>
  .startOffset widens_lies fun start => .bind (methodMember_fills vars levels none start)
    fun _ _ _ hm => .pure hm

theorem interfaceMember_fills : FillsWith source text (interfaceMember vars levels)
    (Lies (Member.DeepWellNested source text) Member.span) := by
  refine fun _ _ => .step (cut_look (by decide)) fun kind _ _ => ?_
  split
  · exact method_fills vars levels _ _
  · exact .bind (aliasMember_fills _ _) fun _ _ _ hm => .pure hm
  · exact .bind (mixinMember_fills vars levels _ _ _) fun _ _ _ hm => .pure hm
  · exact .unexpected _

theorem bodyMember_fills {declaration : Parser EntityDecl}
    (h : FillsWith source text declaration
      (Lies (EntityDecl.WellNested source text) EntityDecl.span)) :
    FillsWith source text (bodyMember vars levels declaration)
      (Lies (Member.DeepWellNested source text) Member.span) := by
  have hattr : FillsWith source text (do
        let start ← startOffset
        return Member.attr (← attributeMember vars levels none start))
      (Lies (Member.DeepWellNested source text) Member.span) := fun _ _ =>
    .startOffset widens_lies fun start => .bind (attributeMember_fills vars levels none start)
      fun _ _ _ hm => .pure hm
  have hmixin : ∀ kind, FillsWith source text
      (do return Member.mixin (← mixinMember vars levels kind))
      (Lies (Member.DeepWellNested source text) Member.span) := fun kind _ _ =>
    .bind (mixinMember_fills vars levels kind _ _) fun _ _ _ hm => .pure hm
  have hvar : FillsWith source text (do return Member.typedVar (← variableMember vars levels))
      (Lies (Member.DeepWellNested source text) Member.span) := fun _ _ =>
    .bind (variableMember_fills vars levels _ _) fun _ _ _ hm => .pure hm
  have hnested : FillsWith source text (do return Member.nested (← declaration))
      (Lies (Member.DeepWellNested source text) Member.span) := fun _ _ =>
    .bind (h _ _) fun d _ _ hd => .pure ⟨⟨Member.wellNested_of_references hd.1.own.written
      referencesIn_nil (by rintro _ ⟨⟩), fun _ hm => Member.nested.inj hm ▸ hd.1⟩, hd.2⟩
  refine fun _ _ => .step (cut_look (by decide)) fun kind _ _ => ?_
  split
  · exact method_fills vars levels _ _
  · exact .bind (aliasMember_fills _ _) fun _ _ _ hm => .pure hm
  · exact hmixin _ _ _
  · exact hmixin _ _ _
  · exact hmixin _ _ _
  · exact hattr _ _
  · exact hattr _ _
  · exact hattr _ _
  · exact visibilityMember_fills vars levels _ _
  · exact visibilityMember_fills vars levels _ _
  · exact hvar _ _
  · exact hvar _ _
  all_goals first | exact hnested _ _ | exact .unexpected _

end Members

/-! ## Declarations -/

/-- The elements of a body are well nested, one behind the other. -/
structure Bodies.Fills (source : SourceId) (text : String) (b : Bodies) : Prop where
  klass : ∀ vars, FillsWith source text (b.klass vars)
    (InRow (Lies (Member.DeepWellNested source text) Member.span))
  interface : ∀ vars, FillsWith source text (b.interface vars)
    (InRow (Lies (Member.DeepWellNested source text) Member.span))

section Declarations

variable {bodies : Bodies} (levels : Nat)

theorem classDecl_fills (h : bodies.Fills source text) :
    FillsWith source text (classDecl levels bodies) fun range d =>
      Lies (EntityDecl.WellNested source text) EntityDecl.span range (.klass d) := by
  have hsuper : ∀ vars, FillsWith source text (do
      if ← eat .lt then return some (← namedType vars levels "a superclass name")
      else return none) fun range s =>
        ReferencesIn source text range ((s.map NamedType.references).getD []) := fun vars _ _ =>
    .step (cut_eaten _ (by decide)) fun _ _ _ => .ite
      (fun _ => .bind (namedType_fills vars levels _ _ _) fun _ _ _ ht => .pure ht)
      fun _ => .pure referencesIn_nil
  refine fun _ _ => .startOffset (widens_lies.comap _) fun start =>
    .step (cut_assertAt _ (by decide)) fun _ _ _ => .take .bump fun _ _ _ hlt =>
      .bind (typeName_fills _ _ _ _) fun (name, nameRange) _ _ hname =>
        .bind (typeParams_fills [] levels true _ _) fun params _ _ hparams =>
          .bind (hsuper _ _ _) fun superClass _ _ hsuper => .bind (h.klass _ _ _)
            fun members _ _ hmembers => .spanOf <| .spanned (by omega) fun hwritten => ?_
  exact ⟨EntityDecl.wellNested_of hwritten ⟨rfl, hname.1⟩ (hname.2.trans (.later (by omega)))
    (hparams.widen widens_lies (.later (by omega))) rfl
    (hsuper.widen (.later (by omega))) hmembers, .refl _⟩

theorem moduleDecl_fills (h : bodies.Fills source text) :
    FillsWith source text (moduleDecl levels bodies) fun range d =>
      Lies (EntityDecl.WellNested source text) EntityDecl.span range (.module d) := by
  have hselfTypes : ∀ vars, FillsWith source text (do
      if ← eat .colon then separated .comma (namedType vars levels "a self type") else return [])
      fun range ts => ReferencesIn source text range (ts.flatMap NamedType.references) :=
    fun vars _ _ => .step (cut_eaten _ (by decide)) fun _ _ _ => .ite
      (fun _ => (Fills.separated (widens_references _) (namedType_fills vars levels _) _ _).mono
        fun _ _ _ hts => referencesIn_flatMap.2 hts.each)
      fun _ => .pure referencesIn_nil
  refine fun _ _ => .startOffset (widens_lies.comap _) fun start =>
    .step (cut_assertAt _ (by decide)) fun _ _ _ => .take .bump fun _ _ _ hlt =>
      .bind (typeName_fills _ _ _ _) fun (name, nameRange) _ _ hname =>
        .bind (typeParams_fills [] levels true _ _) fun params _ _ hparams =>
          .bind (hselfTypes _ _ _) fun selfTypes _ _ hselfTypes => .bind (h.klass _ _ _)
            fun members _ _ hmembers => .spanOf <| .spanned (by omega) fun hwritten => ?_
  exact ⟨EntityDecl.wellNested_of hwritten ⟨rfl, hname.1⟩ (hname.2.trans (.later (by omega)))
    (hparams.widen widens_lies (.later (by omega))) rfl
    (hselfTypes.widen (.later (by omega))) hmembers, .refl _⟩

theorem interfaceDecl_fills (h : bodies.Fills source text) :
    FillsWith source text (interfaceDecl levels bodies) fun range d =>
      Lies (EntityDecl.WellNested source text) EntityDecl.span range (.interface d) := by
  refine fun _ _ => .startOffset (widens_lies.comap _) fun start =>
    .step (cut_assertAt _ (by decide)) fun _ _ _ => .take .bump fun _ _ _ hlt =>
      .bind (typeName_fills _ _ _ _) fun (name, nameRange) _ _ hname =>
        .bind (typeParams_fills [] levels true _ _) fun params _ _ hparams =>
          .bind (h.interface _ _ _) fun members _ _ hmembers => .spanOf <| .spanned (by omega)
            fun hwritten => ?_
  exact ⟨EntityDecl.wellNested_of hwritten ⟨rfl, hname.1⟩ (hname.2.trans (.later (by omega)))
    (hparams.widen widens_lies (.later (by omega))) rfl referencesIn_nil hmembers,
    .refl _⟩

theorem aliasDecl_fills : FillsWith source text (aliasDecl levels) fun range d =>
    Lies (EntityDecl.WellNested source text) EntityDecl.span range (.typeAlias d) := by
  refine fun _ _ => .startOffset (widens_lies.comap _) fun start =>
    .step (cut_assertAt _ (by decide)) fun _ _ _ => .take .bump fun _ _ _ hlt =>
      .bind (typeName_fills _ _ _ _) fun (name, nameRange) _ _ hname =>
        .bind (typeParams_fills [] levels true _ _) fun params _ _ hparams =>
          .step (cut_expect _ _ (by decide)) fun _ _ _ => .bind (typeExpr_fills _ levels _ _)
            fun type _ _ htype => .spanOf <| .spanned (by omega) fun hwritten => ?_
  exact ⟨EntityDecl.wellNested_of hwritten ⟨rfl, hname.1⟩ (hname.2.trans (.later (by omega)))
    (hparams.widen widens_lies (.later (by omega))) rfl htype .nil, .refl _⟩

theorem constantDecl_fills (vars : List String) :
    FillsWith source text (constantDecl vars levels) fun range d =>
      Lies (EntityDecl.WellNested source text) EntityDecl.span range (.constant d) := by
  refine fun _ _ => .startOffset (widens_lies.comap _) fun start =>
    .bind (typeName_fills _ _ _ _) fun (name, nameRange) _ _ hname =>
      .take (cut_expect _ _ (by decide)) fun _ _ _ hlt => .bind (typeExpr_fills _ levels _ _)
        fun type _ _ htype => .spanOf <| .spanned (by omega) fun hwritten => ?_
  exact ⟨EntityDecl.wellNested_of hwritten ⟨rfl, hname.1⟩ (hname.2.trans (.later (by omega)))
    .nil rfl htype .nil, .refl _⟩

theorem entityDeclAt_fills (vars : List String) (h : bodies.Fills source text)
    (kind : TokenKind) :
    FillsWith source text (entityDeclAt vars levels bodies kind)
      (Lies (EntityDecl.WellNested source text) EntityDecl.span) := by
  intro low e
  unfold entityDeclAt
  split
  · exact .bind (classDecl_fills levels h _ _) fun _ _ _ hd => .pure hd
  · exact .bind (moduleDecl_fills levels h _ _) fun _ _ _ hd => .pure hd
  · exact .bind (interfaceDecl_fills levels h _ _) fun _ _ _ hd => .pure hd
  · exact .bind (aliasDecl_fills levels _ _) fun _ _ _ hd => .pure hd
  · exact .bind (constantDecl_fills levels vars _ _) fun _ _ _ hd => .pure hd
  · exact .bind (constantDecl_fills levels vars _ _) fun _ _ _ hd => .pure hd
  · exact .unexpected _

/-- By induction on the levels that may still be opened: a body opens one for each element. -/
theorem bodiesWithin_fills : (bodiesWithin levels).Fills source text := by
  induction levels with
  | zero =>
    exact ⟨fun _ => .memberList widens_lies fun _ _ => .throw _,
      fun _ => .memberList widens_lies fun _ _ => .throw _⟩
  | succ n ih =>
    exact ⟨fun vars => .memberList widens_lies fun _ _ => .nested (bodyMember_fills vars n
        (fun _ _ => .step (cut_look (by decide)) fun kind _ _ =>
          entityDeclAt_fills n vars ih kind _ _) _ _),
      fun vars => .memberList widens_lies fun _ _ => .nested (interfaceMember_fills vars n _ _)⟩

end Declarations

/-! ## Files -/

theorem globalDecl_fills (levels : Nat) : FillsWith source text (globalDecl levels)
    (Lies (GlobalDecl.WellNested source text) GlobalDecl.span) := fun _ _ =>
  .startOffset widens_lies fun start => .step (cut_assertAt _ (by decide)) fun _ _ _ =>
    .take .bump fun name _ _ hlt => .step (cut_expect _ _ (by decide)) fun _ _ _ =>
      .bind (typeExpr_fills [] levels _ _) fun type _ _ htype => .spanned (by omega)
        fun hwritten => ⟨⟨hwritten, htype⟩, .refl _⟩

theorem declaration_fills (levels : Nat) : FillsWith source text (declaration levels)
    (Lies (Declaration.WellNested source text) Declaration.span) := by
  refine fun _ _ => .step (cut_look (by decide)) fun kind _ _ => ?_
  split
  · exact .bind (globalDecl_fills levels _ _) fun _ _ _ hd => .pure hd
  · exact .bind (entityDeclAt_fills levels [] (bodiesWithin_fills levels) _ _ _)
      fun _ _ _ hd => .pure hd

/-- The declarations of a file stand one behind the other. -/
theorem file_fills (levels : Nat) : FillsWith source text (file levels)
    (InRow (Lies (Declaration.WellNested source text) Declaration.span)) := by
  have hwithin : ∀ n, FillsWith source text (fileWithin levels n)
      (InRow (Lies (Declaration.WellNested source text) Declaration.span)) := by
    intro n
    induction n with
    | zero => exact fun _ _ => .throw _
    | succ n ih =>
      exact fun _ _ => .step cut_atEnd fun _ _ _ => .ite (fun _ => .pure .nil) fun _ =>
        .bind (declaration_fills levels _ _) fun _ _ _ hd => .cons widens_lies hd (le_refl _) ih
  exact fun _ _ => .step cut_rounds fun n _ _ => hwithin n _ _

end Parser

end RubySig
