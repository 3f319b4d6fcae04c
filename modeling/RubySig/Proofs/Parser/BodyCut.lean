import RubySig.Proofs.Parser.TypeCut

/-!
# The grammar of bodies and files, step by step

Each rule of the grammar of bodies and files as it is built, with the pace at which it is entered
and left.

* `Parser.cut_methodName`, `Parser.cut_methodMember`: elements of bodies.
* `Parser.cut_bodiesWithin`: bodies, with fewer levels and with more.
* `Parser.cut_file`: files.
-/

namespace RubySig

namespace Parser

variable {n m i k : Nat}

/-! ## Method names -/

theorem cut_isTouching (accept : TokenKind → Bool) (hi : i < lookBound) :
    Cut n ⟨i, k⟩ (fun _ => ⟨i + 1, k⟩) (isTouching accept) (isTouching accept) :=
  .bind (cut_look hi) fun _ => .ite
    (fun _ => .reading (fun c => (c.rest.head?.map fun l => !l.spaced).getD false) fun _ _ => rfl)
    fun _ => .pure _ (Pace.covers (le_refl _) (le_refl _))

theorem cut_indexName : Cut n ⟨0, k⟩ (fun _ => ⟨1, k⟩) indexName indexName :=
  .bind (cut_isTouching _ (by decide)) fun _ => .ite
    (fun _ => .bind .bump fun _ => .bind (cut_isTouching _ (by decide)) fun _ => .ite
      (fun _ => .bind .bump fun _ => .pure _ (Pace.covers (by decide) (by omega)))
      fun _ => .pure _ (Pace.covers (le_refl _) (by omega)))
    fun _ => cut_unexpected _ (by decide)

theorem cut_methodName (hi : i + 2 ≤ lookBound) :
    Cut n ⟨i, k⟩ (fun _ => ⟨1, k + 1⟩) methodName methodName :=
  .bind (cut_look (by omega)) fun _ => .ite
    (fun _ => .bind .bump fun _ => .bind (cut_isTouching _ (by decide)) fun _ => .ite
      (fun _ => .bind .bump fun _ => .pure _ (Pace.covers (by decide) (by omega)))
      fun _ => .pure _ (Pace.covers (le_refl _) (le_refl _)))
    fun _ => .ite
      (fun _ => Cut.bump.mono (Pace.covers (le_refl _) (le_refl _))
        fun _ => Pace.covers (by decide) (le_refl _))
      fun _ => .ite (fun _ => .bind .bump fun _ => cut_indexName)
        fun _ => cut_unexpected _ (by omega)

theorem cut_eatSelfDot (hi : i + 2 ≤ lookBound) :
    Cut n ⟨i, k⟩ (fun _ => ⟨i + 2, k⟩) eatSelfDot eatSelfDot :=
  .bind (cut_isAtPair _ _ (by omega)) fun _ => .ite
    (fun _ => .bind .bump fun _ => .bind .bump fun _ => .pure _ (Pace.covers (by omega) (by omega)))
    fun _ => .pure _ (Pace.covers (le_refl _) (le_refl _))

theorem cut_methodKind (hi : i + 3 ≤ lookBound) :
    Cut n ⟨i, k⟩ (fun _ => ⟨i + 3, k⟩) methodKind methodKind :=
  .bind (cut_isAt _ (by omega)) fun _ => .ite
    (fun _ => .bind (cut_peek 1 (by omega)) fun _ => .bind (cut_peek 2 (by omega)) fun _ => .ite
      (fun _ => .bind .bump fun _ => .bind .bump fun _ =>
        .pure _ (Pace.covers (by omega) (by omega)))
      fun _ => .ite
        (fun _ => .bind .bump fun _ => .bind .bump fun _ => .bind .bump fun _ =>
          .pure _ (Pace.covers (by omega) (by omega)))
        fun _ => .pure _ (Pace.covers (le_refl _) (le_refl _)))
    fun _ => .pure _ (Pace.covers (by omega) (le_refl _))

/-! ## Members -/

section Members

variable (vars : List String) (h : n ≤ m)

include h

theorem cut_methodMember (visibility : Option Visibility) (start : Nat) (hi : i < lookBound) :
    Cut n ⟨i, k⟩ (fun _ => ⟨1, 1⟩) (methodMember vars n visibility start)
      (methodMember vars m visibility start) :=
  .bind (cut_assertAt _ hi) fun _ => .bind .bump fun _ => .bind (cut_methodKind (by decide))
    fun _ => .bind (cut_methodName (by decide)) fun _ => .bind (cut_expect _ _ (by decide)) fun _ =>
      .bind ((cut_methodType vars h (by decide)).enter (Pace.covers (le_refl _) (by omega)))
        fun _ => .bind (cut_repeatedAfter (cut_methodType vars h (by decide)) (by decide)
          (by decide) (by decide) (by decide)) fun _ => .bind (cut_spanFrom start) fun _ =>
            .pure _ (Pace.covers (le_refl _) (le_refl _))

omit h in
theorem cut_attributeKind (hi : i + 2 ≤ lookBound) :
    Cut n ⟨i, k⟩ (fun _ => ⟨i + 2, k⟩) attributeKind attributeKind := by
  refine .bind (cut_look (by omega)) fun kind => ?_
  split
  · exact .pure _ (Pace.covers (by omega) (le_refl _))
  · exact .pure _ (Pace.covers (by omega) (le_refl _))
  · exact .bind (cut_assertAt _ (by omega)) fun _ => .pure _ (Pace.covers (le_refl _) (le_refl _))

theorem cut_attributeMember (visibility : Option Visibility) (start : Nat)
    (hi : i + 2 ≤ lookBound) :
    Cut n ⟨i, k⟩ (fun _ => ⟨1, 1⟩) (attributeMember vars n visibility start)
      (attributeMember vars m visibility start) :=
  .bind (cut_attributeKind hi) fun _ => .bind .bump fun _ => .bind (cut_eatSelfDot (by decide))
    fun _ => .bind (cut_look (by decide)) fun _ => .ite
      (fun _ => .bind .bump fun _ => .bind (cut_expect _ _ (by decide)) fun _ =>
        .bind (opens_typeExpr vars h).enter fun _ => .bind (cut_spanFrom start) fun _ =>
          .pure _ (Pace.covers (by decide) (le_refl _)))
      fun _ => cut_unexpected _ (by decide)

omit h in
theorem cut_aliasMember (hi : i < lookBound) :
    Cut n ⟨i, k⟩ (fun _ => ⟨1, 1⟩) aliasMember aliasMember :=
  .bind cut_startOffset fun start => .bind (cut_assertAt _ hi) fun _ => .bind .bump fun _ =>
    .bind (cut_eatSelfDot (by decide)) fun _ => .bind (cut_methodName (by decide)) fun _ =>
      .bind cut_currentRange fun _ => .bind (cut_eatSelfDot (by decide)) fun _ => .ite
        (fun _ => .bind (cut_methodName (by decide)) fun _ => .bind (cut_spanFrom start) fun _ =>
          .pure _ (Pace.covers (le_refl _) (by omega)))
        fun _ => cut_failAt _ _

theorem cut_mixinMember (kind : MixinKind) :
    Cut n ⟨i, k⟩ (fun _ => ⟨1, 1⟩) (mixinMember vars n kind) (mixinMember vars m kind) :=
  .bind cut_startOffset fun start => .bind .bump fun _ =>
    .bind (cut_namedType vars _ h (by decide)) fun _ => .bind (cut_spanFrom start) fun _ =>
      .pure _ (Pace.covers (le_refl _) (le_refl _))

theorem cut_variableMember (hi : i < lookBound) :
    Cut n ⟨i, k⟩ (fun _ => ⟨1, 1⟩) (variableMember vars n) (variableMember vars m) :=
  .bind cut_startOffset fun start => .bind (cut_isAt _ hi) fun _ => .bind .bump fun _ =>
    .bind (cut_expect _ _ (by decide)) fun _ => .bind (opens_typeExpr vars h).enter fun _ =>
      .bind (cut_spanFrom start) fun _ => .pure _ (Pace.covers (by decide) (le_refl _))

omit h in
theorem cut_prefixesMember (hi : i < lookBound) :
    Cut n ⟨i, k⟩ (fun _ => ⟨i + 1, k⟩) prefixesMember prefixesMember :=
  .bind (.reading (fun c => (c.rest[1]?.map fun l => !l.onNewLine).getD false) fun _ _ => rfl)
    fun _ => .ite
      (fun _ => .bind (cut_peek 1 hi) fun _ => .pure _ (Pace.covers (le_refl _) (le_refl _)))
      fun _ => .pure _ (Pace.covers (Nat.le_succ _) (le_refl _))

theorem cut_visibilityMember (hi : i + 2 ≤ lookBound) :
    Cut n ⟨i, k⟩ (fun _ => ⟨1, 1⟩) (visibilityMember vars n) (visibilityMember vars m) :=
  .bind cut_startOffset fun start => .bind cut_currentRange fun range =>
    .bind (cut_isAt _ (by omega)) fun _ => .bind (cut_prefixesMember (by omega)) fun _ =>
      .bind .bump fun _ => .ite
        (fun _ => .bind (cut_isAt _ (by decide)) fun _ => .ite
          (fun _ => .bind (cut_methodMember vars h _ start (by decide)) fun _ =>
            .pure _ (Pace.covers (le_refl _) (le_refl _)))
          fun _ => .bind (cut_attributeMember vars h _ start (by decide)) fun _ =>
            .pure _ (Pace.covers (le_refl _) (le_refl _)))
        fun _ => .bind (cut_spanOf range) fun _ => .pure _ (Pace.covers (by decide) (by omega))

theorem cut_bodyMember {declaration declaration' : Parser EntityDecl}
    (hdeclaration : Cut n ⟨1, 0⟩ (fun _ => ⟨1, 1⟩) declaration declaration') :
    Cut n ⟨0, 0⟩ (fun _ => ⟨1, 1⟩) (bodyMember vars n declaration)
      (bodyMember vars m declaration') := by
  have hpure : ∀ a : Member, Cut n ⟨1, 1⟩ (fun _ => ⟨1, 1⟩) (Pure.pure a : Parser Member)
      (Pure.pure a) := fun _ => .pure _ (Pace.covers (le_refl _) (le_refl _))
  refine .bind (cut_look (by decide)) fun kind => ?_
  split
  · exact .bind cut_startOffset fun start =>
      .bind (cut_methodMember vars h none start (by decide)) fun _ => hpure _
  · exact .bind (cut_aliasMember (by decide)) fun _ => hpure _
  · exact .bind (cut_mixinMember vars h _) fun _ => hpure _
  · exact .bind (cut_mixinMember vars h _) fun _ => hpure _
  · exact .bind (cut_mixinMember vars h _) fun _ => hpure _
  · exact .bind cut_startOffset fun start =>
      .bind (cut_attributeMember vars h none start (by decide)) fun _ => hpure _
  · exact .bind cut_startOffset fun start =>
      .bind (cut_attributeMember vars h none start (by decide)) fun _ => hpure _
  · exact .bind cut_startOffset fun start =>
      .bind (cut_attributeMember vars h none start (by decide)) fun _ => hpure _
  · exact cut_visibilityMember vars h (by decide)
  · exact cut_visibilityMember vars h (by decide)
  · exact .bind (cut_variableMember vars h (by decide)) fun _ => hpure _
  · exact .bind (cut_variableMember vars h (by decide)) fun _ => hpure _
  all_goals first
    | exact .bind hdeclaration fun _ => hpure _
    | exact cut_unexpected _ (by decide)

theorem cut_interfaceMember :
    Cut n ⟨0, 0⟩ (fun _ => ⟨1, 1⟩) (interfaceMember vars n) (interfaceMember vars m) := by
  have hpure : ∀ a : Member, Cut n ⟨1, 1⟩ (fun _ => ⟨1, 1⟩) (Pure.pure a : Parser Member)
      (Pure.pure a) := fun _ => .pure _ (Pace.covers (le_refl _) (le_refl _))
  refine .bind (cut_look (by decide)) fun kind => ?_
  split
  · exact .bind cut_startOffset fun start =>
      .bind (cut_methodMember vars h none start (by decide)) fun _ => hpure _
  · exact .bind (cut_aliasMember (by decide)) fun _ => hpure _
  · exact .bind (cut_mixinMember vars h _) fun _ => hpure _
  · exact cut_unexpected _ (by decide)

omit h in
theorem cut_memberList {member member' : Parser Member} (hmember : Opens n member member')
    (hi : i + 2 ≤ lookBound) :
    Cut n ⟨i, 1⟩ (fun _ => ⟨0, 1⟩) (memberList member) (memberList member') := by
  have hwithin : ∀ (rounds : Nat) {i : Nat}, i + 2 ≤ lookBound →
      Cut n ⟨i, 1⟩ (fun _ => ⟨0, 1⟩) (memberListWithin member rounds)
        (memberListWithin member' rounds) := by
    intro rounds
    induction rounds with
    | zero => exact fun _ => .throw _
    | succ rounds ih =>
      intro i hi
      refine .eatIte _ (by omega) (.pure _ (Pace.covers (le_refl _) (by decide))) ?_
      exact .bind cut_atEnd fun _ => .ite (fun _ => cut_unexpected _ (by omega)) fun _ =>
        .bind (hmember _) fun _ => .bind (ih (by decide)) fun _ =>
          .pure _ (Pace.covers (le_refl _) (le_refl _))
  exact .bind cut_rounds fun rounds => hwithin rounds hi

end Members

/-! ## Declarations -/

/-- Bodies, with fewer levels and with more. -/
structure Bodies.Cut (n : Nat) (b b' : Bodies) : Prop where
  klass : ∀ vars i, i + 2 ≤ lookBound →
    Parser.Cut n ⟨i, 1⟩ (fun _ => ⟨0, 1⟩) (b.klass vars) (b'.klass vars)
  interface : ∀ vars i, i + 2 ≤ lookBound →
    Parser.Cut n ⟨i, 1⟩ (fun _ => ⟨0, 1⟩) (b.interface vars) (b'.interface vars)

section Declarations

variable {bodies bodies' : Bodies} (h : n ≤ m) (hbodies : bodies.Cut n bodies')

include h hbodies

theorem cut_classDecl (hi : i < lookBound) :
    Cut n ⟨i, k⟩ (fun _ => ⟨0, 1⟩) (classDecl n bodies) (classDecl m bodies') :=
  .bind cut_startOffset fun start => .bind (cut_assertAt _ hi) fun _ => .bind .bump fun _ =>
    .bind (cut_typeName _ _ (by decide)) fun (_, nameRange) =>
      .bind ((cut_typeParams true [] h (by decide)).enter (Pace.covers (le_refl _) (by omega)))
        fun params => .bind (.eatIte (t := fun _ => ⟨2, 1⟩) _ (by decide)
            (.bind (cut_namedType (typeParamNames params) _ h (by decide)) fun _ =>
              .pure _ (Pace.covers (by decide) (le_refl _)))
            (.pure _ (Pace.covers (le_refl _) (le_refl _))))
          fun _ => .bind (hbodies.klass _ _ (by decide)) fun _ => .bind (cut_spanOf nameRange)
            fun _ => .bind (cut_spanFrom start) fun _ =>
              .pure _ (Pace.covers (le_refl _) (le_refl _))

theorem cut_moduleDecl (hi : i < lookBound) :
    Cut n ⟨i, k⟩ (fun _ => ⟨0, 1⟩) (moduleDecl n bodies) (moduleDecl m bodies') :=
  .bind cut_startOffset fun start => .bind (cut_assertAt _ hi) fun _ => .bind .bump fun _ =>
    .bind (cut_typeName _ _ (by decide)) fun (_, nameRange) =>
      .bind ((cut_typeParams true [] h (by decide)).enter (Pace.covers (le_refl _) (by omega)))
        fun params => .bind (.eatIte (t := fun _ => ⟨2, 1⟩) _ (by decide)
            ((cut_separated (w := 5) (fun _ => cut_namedType (typeParamNames params) _ h)
              (by decide) (by decide)).enter (Pace.covers (le_refl _) (by decide)))
            (.pure _ (Pace.covers (le_refl _) (le_refl _))))
          fun _ => .bind (hbodies.klass _ _ (by decide)) fun _ => .bind (cut_spanOf nameRange)
            fun _ => .bind (cut_spanFrom start) fun _ =>
              .pure _ (Pace.covers (le_refl _) (le_refl _))

theorem cut_interfaceDecl (hi : i < lookBound) :
    Cut n ⟨i, k⟩ (fun _ => ⟨0, 1⟩) (interfaceDecl n bodies) (interfaceDecl m bodies') :=
  .bind cut_startOffset fun start => .bind (cut_assertAt _ hi) fun _ => .bind .bump fun _ =>
    .bind (cut_typeName _ _ (by decide)) fun (_, nameRange) =>
      .bind ((cut_typeParams true [] h (by decide)).enter (Pace.covers (le_refl _) (by omega)))
        fun params => .bind (hbodies.interface _ _ (by decide)) fun _ =>
          .bind (cut_spanOf nameRange) fun _ => .bind (cut_spanFrom start) fun _ =>
            .pure _ (Pace.covers (le_refl _) (le_refl _))

omit hbodies in
theorem cut_aliasDecl (hi : i < lookBound) :
    Cut n ⟨i, k⟩ (fun _ => ⟨0, 1⟩) (aliasDecl n) (aliasDecl m) :=
  .bind cut_startOffset fun start => .bind (cut_assertAt _ hi) fun _ => .bind .bump fun _ =>
    .bind (cut_typeName _ _ (by decide)) fun (_, nameRange) =>
      .bind ((cut_typeParams true [] h (by decide)).enter (Pace.covers (le_refl _) (by omega)))
        fun _ => .bind (cut_expect _ _ (by decide)) fun _ =>
          .bind (opens_typeExpr _ h).enter fun _ => .bind (cut_spanOf nameRange) fun _ =>
            .bind (cut_spanFrom start) fun _ => .pure _ (Pace.covers (le_refl _) (le_refl _))

omit hbodies in
theorem cut_constantDecl (vars : List String) (hi : i + 5 ≤ lookBound) :
    Cut n ⟨i, k⟩ (fun _ => ⟨0, 1⟩) (constantDecl vars n) (constantDecl vars m) :=
  .bind cut_startOffset fun start => .bind (cut_typeName _ _ hi) fun (_, nameRange) =>
    .bind (cut_expect _ _ (by decide)) fun _ => .bind (opens_typeExpr _ h).enter fun _ =>
      .bind (cut_spanOf nameRange) fun _ => .bind (cut_spanFrom start) fun _ =>
        .pure _ (Pace.covers (le_refl _) (le_refl _))

omit hbodies in
theorem cut_globalDecl (hi : i < lookBound) :
    Cut n ⟨i, k⟩ (fun _ => ⟨0, 1⟩) (globalDecl n) (globalDecl m) :=
  .bind cut_startOffset fun start => .bind (cut_assertAt _ hi) fun _ => .bind .bump fun _ =>
    .bind (cut_expect _ _ (by decide)) fun _ => .bind (opens_typeExpr _ h).enter fun _ =>
      .bind (cut_spanFrom start) fun _ => .pure _ (Pace.covers (le_refl _) (le_refl _))

theorem cut_entityDeclAt (vars : List String) (kind : TokenKind) (hi : i + 5 ≤ lookBound) :
    Cut n ⟨i, k⟩ (fun _ => ⟨1, 1⟩) (entityDeclAt vars n bodies kind)
      (entityDeclAt vars m bodies' kind) := by
  have hpure : ∀ d : EntityDecl, Cut n ⟨0, 1⟩ (fun _ => ⟨1, 1⟩) (Pure.pure d : Parser EntityDecl)
      (Pure.pure d) := fun _ => .pure _ (Pace.covers (by decide) (le_refl _))
  unfold entityDeclAt
  split
  · exact .bind (cut_classDecl h hbodies (by omega)) fun _ => hpure _
  · exact .bind (cut_moduleDecl h hbodies (by omega)) fun _ => hpure _
  · exact .bind (cut_interfaceDecl h hbodies (by omega)) fun _ => hpure _
  · exact .bind (cut_aliasDecl h (by omega)) fun _ => hpure _
  · exact .bind (cut_constantDecl h vars hi) fun _ => hpure _
  · exact .bind (cut_constantDecl h vars hi) fun _ => hpure _
  · exact cut_unexpected _ (by omega)

end Declarations

/-- By induction on the larger number of levels: a body opens one for each element. -/
theorem cut_bodiesWithin (h : n ≤ m) : (bodiesWithin n).Cut n (bodiesWithin m) := by
  have hentity : ∀ {n m}, n ≤ m → (bodiesWithin n).Cut n (bodiesWithin m) → ∀ vars,
      Cut n ⟨1, 0⟩ (fun _ => ⟨1, 1⟩) (entityDecl vars n (bodiesWithin n))
        (entityDecl vars m (bodiesWithin m)) := fun h hbodies vars =>
    .bind (cut_look (by decide)) fun kind => cut_entityDeclAt h hbodies vars kind (by decide)
  induction m generalizing n with
  | zero =>
    obtain rfl := Nat.le_zero.1 h
    exact ⟨fun _ _ => cut_memberList fun _ => .throw _, fun _ _ => cut_memberList fun _ => .throw _⟩
  | succ m ih =>
    cases n with
    | zero =>
      have hsame := hentity (le_refl m) (ih (le_refl m))
      exact ⟨fun vars _ =>
          cut_memberList (opens_tooDeep (cut_bodyMember vars (le_refl m) (hsame vars))),
        fun vars _ => cut_memberList (opens_tooDeep (cut_interfaceMember vars (le_refl m)))⟩
    | succ n =>
      have hle := Nat.le_of_succ_le_succ h
      exact ⟨fun vars _ => cut_memberList (opens_nested (cut_bodyMember vars hle
          (hentity hle (ih hle) vars))),
        fun vars _ => cut_memberList (opens_nested (cut_interfaceMember vars hle))⟩

/-! ## Files -/

theorem cut_declaration (h : n ≤ m) (hi : i + 6 ≤ lookBound) :
    Cut n ⟨i, k⟩ (fun _ => ⟨1, 1⟩) (declaration n) (declaration m) := by
  refine .bind (cut_look (by omega)) fun kind => ?_
  split
  · exact .bind (cut_globalDecl h (by omega)) fun _ => .pure _ (Pace.covers (by decide) (le_refl _))
  · exact .bind (cut_entityDeclAt h (cut_bodiesWithin h) [] _ (by omega)) fun _ =>
      .pure _ (Pace.covers (le_refl _) (le_refl _))

theorem cut_file (h : n ≤ m) : Cut n ⟨0, 1⟩ (fun _ => ⟨1, 1⟩) (file n) (file m) := by
  have hwithin : ∀ (rounds : Nat) {i : Nat}, i ≤ 1 →
      Cut n ⟨i, 1⟩ (fun _ => ⟨1, 1⟩) (fileWithin n rounds) (fileWithin m rounds) := by
    intro rounds
    induction rounds with
    | zero => exact fun _ => .throw _
    | succ rounds ih =>
      intro i hi
      have hbudget : i + 6 ≤ lookBound := by
        rw [lookBound]
        omega
      exact .bind cut_atEnd fun _ => .ite (fun _ => .pure _ (Pace.covers hi (le_refl _))) fun _ =>
        .bind (cut_declaration h hbudget) fun _ => .bind (ih (le_refl _)) fun _ =>
          .pure _ (Pace.covers (le_refl _) (le_refl _))
  exact .bind cut_rounds fun rounds => hwithin rounds (Nat.zero_le 1)

end Parser

end RubySig
