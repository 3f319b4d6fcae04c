import RubySig.Proofs.Layout.Types

/-!
# Bodies on two texts

The rules for the elements of bodies are carried over.  Here the grammar asks about the layout:
whether a suffix touches the name of a method, and whether a visibility stands on the line of the
member behind it.

* `Parser.methodName_carried`, `Parser.visibilityMember_carried`: the rules that ask.
* `Parser.bodyMember_carried`, `Parser.interfaceMember_carried`: elements of bodies.
* `Parser.memberList_carried`: bodies.
-/

namespace RubySig

namespace Parser

variable {x : Relocation}

/-! ## Method names -/

theorem methodName_carried : Carried x id methodName methodName := by
  refine .same .look fun kind => .ite (fun _ => ?_) fun _ => .ite (fun _ => .bump) fun _ =>
    .ite (fun _ => ?_) fun _ => .unexpected _
  · exact .bumpTouching fun _ _ => .ite (fun _ => .same .bump fun _ => .pure rfl) fun _ => .pure rfl
  · -- the closing bracket has to touch the opening one, and the sign the closing one
    refine .bumpTouching fun _ _ => .ite (fun _ => ?_) fun _ => .unexpected _
    exact .bumpTouching fun _ _ => .ite (fun _ => .same .bump fun _ => .pure rfl) fun _ => .pure rfl

theorem eatSelfDot_carried : Carried x id eatSelfDot eatSelfDot :=
  .same (.isAtPair _ _) fun _ => .ite
    (fun _ => .same .bump fun _ => .same .bump fun _ => .pure rfl) fun _ => .pure rfl

theorem methodKind_carried : Carried x id methodKind methodKind :=
  .same (.isAt _) fun _ => .ite (fun _ => .same (.peek 1) fun _ => .same (.peek 2) fun _ =>
    .ite (fun _ => .same .bump fun _ => .same .bump fun _ => .pure rfl) fun _ =>
      .ite (fun _ => .same .bump fun _ => .same .bump fun _ => .same .bump fun _ => .pure rfl)
        fun _ => .pure rfl) fun _ => .pure rfl

/-! ## Members -/

section Members

variable (vars : List String) (levels : Nat)

theorem methodMember_carried (visibility : Option Visibility) {start : Nat}
    (hstart : x.Starts start) :
    Carried x (MethodMember.mapSpans x.span) (methodMember vars levels visibility start)
      (methodMember vars levels visibility (x.start start)) :=
  .same (.assertAt _) fun _ => .same .bump fun _ => .same methodKind_carried fun _ =>
    .same methodName_carried fun _ => .bind (.expect _ _) fun _ =>
      .bind (methodType_carried vars levels) fun _ =>
        .bind (methodType_carried vars levels).repeatedAfter fun _ =>
          .bind (.spanFrom hstart) fun _ => .pure rfl

theorem attributeMember_carried (visibility : Option Visibility) {start : Nat}
    (hstart : x.Starts start) :
    Carried x (AttributeMember.mapSpans x.span) (attributeMember vars levels visibility start)
      (attributeMember vars levels visibility (x.start start)) := by
  have hkind : Carried x id attributeKind attributeKind := by
    refine .same .look fun kind => ?_
    split
    · exact .pure rfl
    · exact .pure rfl
    · exact .same (.assertAt _) fun _ => .pure rfl
  exact .same hkind fun _ => .same .bump fun _ => .same eatSelfDot_carried fun _ =>
    .same .look fun _ => .ite (fun _ => .same .bump fun _ => .bind (.expect _ _) fun _ =>
      .bind (typeExpr_carried vars levels) fun _ => .bind (.spanFrom hstart) fun _ => .pure rfl)
      fun _ => .unexpected _

theorem aliasMember_carried :
    Carried x (AliasMember.mapSpans x.span) aliasMember aliasMember :=
  .startOffset fun _ hstart => .same (.assertAt _) fun _ => .same .bump fun _ =>
    .same eatSelfDot_carried fun _ => .same methodName_carried fun _ => .bind .currentRange fun _ =>
      .same eatSelfDot_carried fun _ => .ite (fun _ => .same methodName_carried fun _ =>
        .bind (.spanFrom hstart) fun _ => .pure rfl) fun _ => .failAt _ _

theorem mixinMember_carried (kind : MixinKind) :
    Carried x (Mixin.mapSpans x.span) (mixinMember vars levels kind)
      (mixinMember vars levels kind) :=
  .startOffset fun _ hstart => .same .bump fun _ => .bind (namedType_carried vars levels _) fun _ =>
    .bind (.spanFrom hstart) fun _ => .pure rfl

theorem variableMember_carried :
    Carried x (VariableMember.mapSpans x.span) (variableMember vars levels)
      (variableMember vars levels) :=
  .startOffset fun _ hstart => .same (.isAt _) fun _ => .same .bump fun _ =>
    .bind (.expect _ _) fun _ => .bind (typeExpr_carried vars levels) fun _ =>
      .bind (.spanFrom hstart) fun _ => .pure rfl

/-- The line of the member behind a visibility is the same in both texts. -/
theorem visibilityMember_carried :
    Carried x (Member.mapSpans x.span) (visibilityMember vars levels)
      (visibilityMember vars levels) := by
  have happlies : Carried x id prefixesMember prefixesMember :=
    .same .nextOnSameLine fun _ => .ite (fun _ => .same (.peek 1) fun _ => .pure rfl)
      fun _ => .pure rfl
  refine .startOffset fun _ hstart => .bind .currentRange fun _ => .same (.isAt _) fun _ =>
    .same happlies fun _ => .same .bump fun _ => .ite (fun _ => ?_) fun _ => ?_
  · exact .same (.isAt _) fun _ => .ite
      (fun _ => .bind (methodMember_carried vars levels _ hstart) fun _ => .pure rfl)
      fun _ => .bind (attributeMember_carried vars levels _ hstart) fun _ => .pure rfl
  · exact .bind (.spanOf _) fun _ => .pure rfl

theorem bodyMember_carried {declaration : Parser EntityDecl}
    (h : Carried x (EntityDecl.mapSpans x.span) declaration declaration) :
    Carried x (Member.mapSpans x.span) (bodyMember vars levels declaration)
      (bodyMember vars levels declaration) := by
  have hmixin : ∀ kind, Carried x (Member.mapSpans x.span)
      (do return .mixin (← mixinMember vars levels kind))
      (do return .mixin (← mixinMember vars levels kind)) := fun kind =>
    .bind (mixinMember_carried vars levels kind) fun _ => .pure rfl
  have hattr : Carried x (Member.mapSpans x.span)
      (do
        let start ← startOffset
        return .attr (← attributeMember vars levels none start))
      (do
        let start ← startOffset
        return .attr (← attributeMember vars levels none start)) :=
    .startOffset fun _ hstart => .bind (attributeMember_carried vars levels _ hstart) fun _ =>
      .pure rfl
  have hvariable : Carried x (Member.mapSpans x.span)
      (do return .typedVar (← variableMember vars levels))
      (do return .typedVar (← variableMember vars levels)) :=
    .bind (variableMember_carried vars levels) fun _ => .pure rfl
  have hnested : Carried x (Member.mapSpans x.span) (do return .nested (← declaration))
      (do return .nested (← declaration)) :=
    .bind h fun _ => .pure rfl
  refine .same .look fun kind => ?_
  split
  · exact .startOffset fun _ hstart => .bind (methodMember_carried vars levels _ hstart) fun _ =>
      .pure rfl
  · exact .bind aliasMember_carried fun _ => .pure rfl
  · exact hmixin _
  · exact hmixin _
  · exact hmixin _
  · exact hattr
  · exact hattr
  · exact hattr
  · exact visibilityMember_carried vars levels
  · exact visibilityMember_carried vars levels
  · exact hvariable
  · exact hvariable
  · exact hnested
  · exact hnested
  · exact hnested
  · exact hnested
  · exact hnested
  · exact hnested
  · exact .unexpected _

theorem interfaceMember_carried :
    Carried x (Member.mapSpans x.span) (interfaceMember vars levels)
      (interfaceMember vars levels) := by
  refine .same .look fun kind => ?_
  split
  · exact .startOffset fun _ hstart => .bind (methodMember_carried vars levels _ hstart) fun _ =>
      .pure rfl
  · exact .bind aliasMember_carried fun _ => .pure rfl
  · exact .bind (mixinMember_carried vars levels _) fun _ => .pure rfl
  · exact .unexpected _

end Members

/-! ## Bodies -/

theorem memberList_carried {member : Parser Member}
    (h : Carried x (Member.mapSpans x.span) member member) :
    Carried x (List.map (Member.mapSpans x.span)) (memberList member) (memberList member) := by
  have hwithin : ∀ n, Carried x (List.map (Member.mapSpans x.span)) (memberListWithin member n)
      (memberListWithin member n) := by
    intro n
    induction n with
    | zero => exact .throw _
    | succ n ih =>
      exact .same (.eat _) fun _ => .ite (fun _ => .pure rfl) fun _ => .same .atEnd fun _ =>
        .ite (fun _ => .unexpected _) fun _ => .bind h fun _ => .bind ih fun _ => .pure rfl
  exact .same .rounds hwithin

end Parser

end RubySig
