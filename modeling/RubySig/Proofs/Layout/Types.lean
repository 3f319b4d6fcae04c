import RubySig.Proofs.Layout.Carried
import RubySig.Proofs.Layout.Spans

/-!
# Types on two texts

The rules for names, types and overloads are carried over: on the other text they read the same
types with other spans.

* `Parser.typeName_carried`, `Parser.namedWith_carried`: names.
* `Parser.callable_carried`: parameters, blocks and return types.
* `Parser.simpleType_carried`, `Parser.unionType_carried`: types, by their form.
* `Parser.typeExpr_carried`, `Parser.methodType_carried`: types and overloads, by induction on the
  levels.
-/

namespace RubySig

namespace Parser

variable {x : Relocation}

/-! ## Names -/

theorem enclosingSegments_carried : Carried x id enclosingSegments enclosingSegments := by
  have hwithin : ∀ n, Carried x id (enclosingSegmentsWithin n) (enclosingSegmentsWithin n) := by
    intro n
    induction n with
    | zero => exact .throw _
    | succ n ih =>
      exact .same (.isAtPair _ _) fun _ => .ite (fun _ => .same .bump fun _ => .same .bump fun _ =>
        .same ih fun _ => .pure rfl) fun _ => .pure rfl
  exact .same .rounds hwithin

theorem typeName_carried (what : String) (accept : TokenKind → Bool) :
    Carried x (Prod.map id x.range) (typeName what accept) (typeName what accept) :=
  .startOffset fun _ hstart => .same (.eat _) fun _ => .same enclosingSegments_carried fun _ =>
    .same .look fun _ => .ite (fun _ => .same .bump fun _ => .bind (.rangeFrom hstart) fun _ =>
      .pure rfl) fun _ => .unexpected what

/-! ## Parameters and blocks -/

section Parts

variable {type type' returnType returnType' : Parser TypeExpr}
  (h : Carried x (TypeExpr.mapSpans x.span) type type')
  (hreturn : Carried x (TypeExpr.mapSpans x.span) returnType returnType')

include h

theorem namedWith_carried (what : String) (accept : TokenKind → Bool) :
    Carried x (NamedType.mapSpans x.span) (namedWith type what accept)
      (namedWith type' what accept) := by
  refine .startOffset fun start hstart => .bind (typeName_carried what accept) ?_
  rintro ⟨name, range⟩
  refine .same (.eat _) fun _ => .ite (fun _ => ?_) fun _ => ?_
  · exact .bind h.separated fun args => .bind (.expect _ _) fun _ =>
      .bind (.spanFrom hstart) fun _ => .pure rfl
  · exact .bind (.spanFrom hstart) fun _ => .pure rfl

theorem paramOf_carried (slot : Slot) :
    Carried x (Param.mapSpans x.span) (paramOf slot type) (paramOf slot type') :=
  .bind h fun _ => .same (.isAt _) fun _ =>
    .ite (fun _ => .same .bump fun _ => .pure rfl) fun _ => .pure rfl

omit h in
theorem keywordName_carried : Carried x id keywordName keywordName :=
  .same .bump fun _ => .bind (.expect _ _) fun _ => .pure rfl

omit h in
theorem isOptionalKeyword_carried : Carried x id isOptionalKeyword isOptionalKeyword :=
  .same (.peek 1) fun _ => .ite (fun _ => .same (.peek 2) fun _ => .pure rfl) fun _ => .pure rfl

theorem param_carried :
    Carried x (Param.mapSpans x.span) (param type) (param type') := by
  refine .same .look fun kind => ?_
  split
  · exact .same isOptionalKeyword_carried fun _ => .ite
      (fun _ => .same .bump fun _ => .same keywordName_carried fun _ => paramOf_carried h _)
      fun _ => .same .bump fun _ => paramOf_carried h _
  · exact .same .bump fun _ => paramOf_carried h _
  · exact .same .bump fun _ => paramOf_carried h _
  · exact .ite (fun _ => .same (.isFollowedBy _) fun _ => .ite
      (fun _ => .same keywordName_carried fun _ => paramOf_carried h _)
      fun _ => paramOf_carried h _) fun _ => paramOf_carried h _

theorem params_carried :
    Carried x (List.map (Param.mapSpans x.span)) (params type) (params type') := by
  refine .same (.eat _) fun _ => .ite (fun _ => ?_) fun _ => .pure rfl
  refine .bind (param_carried h).separatedUntil fun written => .bind (.expect _ _) fun _ => .pure ?_
  exact FunctionType.arrange_map _ written

theorem blockBody_carried (required : Bool) :
    Carried x (Option.map (Block.mapSpans x.span)) (blockBody required type)
      (blockBody required type') :=
  .bind (params_carried h) fun _ => .bind (.expect _ _) fun _ => .bind h fun _ =>
    .bind (.expect _ _) fun _ => .pure rfl

theorem block_carried :
    Carried x (Option.map (Block.mapSpans x.span)) (block type) (block type') := by
  refine .same .look fun kind => ?_
  split
  · exact .same .bump fun _ => blockBody_carried h _
  · exact .same (.isFollowedBy _) fun _ => .ite (fun _ => .same .bump fun _ =>
      .same .bump fun _ => blockBody_carried h _) fun _ => .pure rfl
  · exact .pure rfl

include hreturn

theorem callable_carried :
    Carried x (Prod.map (FunctionType.mapSpans x.span) (Option.map (Block.mapSpans x.span)))
      (callable type returnType) (callable type' returnType') :=
  .bind (params_carried h) fun _ => .bind (block_carried h) fun _ => .bind (.expect _ _) fun _ =>
    .bind hreturn fun _ => .pure rfl

omit hreturn

/-! ## Types without operators -/

theorem tupleType_carried :
    Carried x (TypeExpr.mapSpans x.span) (tupleType type) (tupleType type') :=
  .same (.assertAt _) fun _ => .same .bump fun _ => .bind h.separatedUntil fun types =>
    .bind (.expect _ _) fun _ => .pure (TypeExpr.mapSpans_tuple _ types)

omit h in
theorem recordKey_carried : Carried x id recordKey recordKey := by
  have hword : ∀ kind : TokenKind, Carried x id (wordKey? kind) (wordKey? kind) := fun kind =>
    .ite (fun _ => .isFollowedBy _) fun _ => .pure rfl
  refine .same .look fun kind => .same (hword kind) fun _ => .ite (fun _ => ?_) fun _ =>
    .ite (fun _ => ?_) fun _ => .ite (fun _ => ?_) fun _ => .unexpected _
  · exact .same .bump fun _ => .same .bump fun _ => .pure rfl
  · exact .same .bump fun _ => .bind (.expect _ _) fun _ => .pure rfl
  · exact .same .bump fun _ => .bind (.expect _ _) fun _ => .pure rfl

theorem recordType_carried :
    Carried x (TypeExpr.mapSpans x.span) (recordType type) (recordType type') := by
  have hfield : Carried x (RecordField.mapSpans x.span) (recordField type) (recordField type') :=
    .same recordKey_carried fun _ => .bind h fun _ => .pure rfl
  exact .same (.assertAt _) fun _ => .same .bump fun _ => .bind hfield.separatedUntil fun fields =>
    .bind (.expect _ _) fun _ => .pure (TypeExpr.mapSpans_record _ fields)

include hreturn in
theorem procType_carried :
    Carried x (TypeExpr.mapSpans x.span) (procType type returnType)
      (procType type' returnType') := by
  refine .same (.assertAt _) fun _ => .same .bump fun _ => .bind (callable_carried h hreturn) ?_
  rintro ⟨function, block⟩
  exact .pure (TypeExpr.mapSpans_proc _ function block)

omit h in
theorem integerType_carried : Carried x (TypeExpr.mapSpans x.span) integerType integerType :=
  .bind .currentRange fun _ => .same .bump fun _ =>
    .ite (fun _ => .pure (TypeExpr.mapSpans_literal _ _)) fun _ => .failAt _ _

omit h in
theorem singletonType_carried :
    Carried x (TypeExpr.mapSpans x.span) singletonType singletonType := by
  refine .startOffset fun start hstart => .same (.assertAt _) fun _ => .same .bump fun _ =>
    .bind (.expect _ _) fun _ => .bind (typeName_carried _ _) ?_
  rintro ⟨name, range⟩
  exact .bind (.expect _ _) fun _ => .bind (.spanFrom hstart) fun span =>
    .pure (TypeExpr.mapSpans_singleton _ ⟨name, span⟩)

omit h in
theorem isAtTypeVar_carried (vars : List String) :
    Carried x id (isAtTypeVar vars) (isAtTypeVar vars) :=
  .same .currentText fun _ => .same (.isFollowedBy _) fun _ =>
    .ite (fun _ => .pure rfl) fun _ => .pure rfl

theorem anyNamed_carried :
    Carried x (TypeExpr.mapSpans x.span) (anyNamed type) (anyNamed type') :=
  .bind (namedWith_carried h _ _) fun target => .pure (TypeExpr.mapSpans_named _ target)

include hreturn in
theorem simpleType_carried (vars : List String) :
    Carried x (TypeExpr.mapSpans x.span) (simpleType vars type returnType)
      (simpleType vars type' returnType') := by
  have hliteral : ∀ value, Carried x (TypeExpr.mapSpans x.span)
      (pure (.literal value) : Parser TypeExpr) (pure (.literal value)) := fun value =>
    .pure (TypeExpr.mapSpans_literal _ value)
  refine .same .look fun kind => ?_
  split
  · exact .same .bump fun _ => .pure (TypeExpr.mapSpans_special _ _)
  · split
    · exact .same .bump fun _ => .bind h fun _ => .bind (.expect _ _) fun _ => .pure rfl
    · exact tupleType_carried h
    · exact recordType_carried h
    · exact procType_carried h hreturn
    · exact .same .bump fun _ => hliteral _
    · exact .same .bump fun _ => hliteral _
    · exact integerType_carried
    · exact .same .bump fun _ => hliteral _
    · exact .same .bump fun _ => hliteral _
    · exact singletonType_carried
    · exact .same (isAtTypeVar_carried vars) fun _ => .ite
        (fun _ => .same .bump fun _ => .pure (TypeExpr.mapSpans_var _ _))
        fun _ => anyNamed_carried h
    · exact anyNamed_carried h
    · exact anyNamed_carried h
    · exact anyNamed_carried h
    · exact .unexpected _

/-! ## Operators -/

omit h in
theorem isAtOptionalMark_carried : Carried x id isAtOptionalMark isAtOptionalMark :=
  .same (.isAt _) fun _ => .ite (fun _ => .same (.isFollowedBy _) fun _ => .pure rfl)
    fun _ => .pure rfl

omit h in
theorem optionalMarksWithin_carried (t : TypeExpr) (n : Nat) :
    Carried x (TypeExpr.mapSpans x.span) (optionalMarksWithin t n)
      (optionalMarksWithin (t.mapSpans x.span) n) := by
  induction n generalizing t with
  | zero => exact .throw _
  | succ n ih =>
    refine .same isAtOptionalMark_carried fun _ =>
      .ite (fun _ => .same .bump fun _ => ?_) fun _ => .pure rfl
    rw [← TypeExpr.mapSpans_optional]
    exact ih _

theorem optionalType_carried :
    Carried x (TypeExpr.mapSpans x.span) (optionalType type) (optionalType type') :=
  .bind h fun t => .same .rounds fun n => optionalMarksWithin_carried t n

theorem operands_carried (mark : TokenKind) {build : List TypeExpr → TypeExpr}
    (hbuild : ∀ types, (build types).mapSpans x.span =
      build (types.map (TypeExpr.mapSpans x.span))) :
    Carried x (TypeExpr.mapSpans x.span) (operands mark build type)
      (operands mark build type') :=
  .bind h fun _ => .same (.isAt mark) fun _ =>
    .ite (fun _ => .bind h.repeatedAfter fun _ => .pure (hbuild _)) fun _ => .pure rfl

theorem unionType_carried :
    Carried x (TypeExpr.mapSpans x.span) (unionType type) (unionType type') :=
  operands_carried (operands_carried (optionalType_carried h) .amp
    (TypeExpr.mapSpans_intersection _)) .pipe (TypeExpr.mapSpans_union _)

end Parts

/-! ## Types and overloads -/

/-- All types are carried over, whatever levels may be opened.  By induction on the levels. -/
theorem typeExpr_returnType_carried (vars : List String) (n : Nat) :
    Carried x (TypeExpr.mapSpans x.span) (typeExpr vars n) (typeExpr vars n) ∧
      Carried x (TypeExpr.mapSpans x.span) (returnType vars n) (returnType vars n) := by
  induction n with
  | zero => exact ⟨.tooDeep, .tooDeep⟩
  | succ n ih =>
    have hsimple := simpleType_carried ih.1 ih.2 vars
    exact ⟨.nested (unionType_carried hsimple), .nested (optionalType_carried hsimple)⟩

theorem typeExpr_carried (vars : List String) (n : Nat) :
    Carried x (TypeExpr.mapSpans x.span) (typeExpr vars n) (typeExpr vars n) :=
  (typeExpr_returnType_carried vars n).1

theorem namedType_carried (vars : List String) (n : Nat) (what : String) :
    Carried x (NamedType.mapSpans x.span) (namedType vars n what) (namedType vars n what) :=
  namedWith_carried (typeExpr_carried vars n) what acceptsMixin

theorem variance_carried (allowed : Bool) : Carried x id (variance allowed) (variance allowed) := by
  refine .same .look fun kind => ?_
  split
  · exact .ite (fun _ => .same .bump fun _ => .pure rfl) fun _ => .pure rfl
  · exact .ite (fun _ => .same .bump fun _ => .pure rfl) fun _ => .pure rfl
  · exact .pure rfl

theorem typeParam_carried (allowVariance : Bool) (vars : List String) (n : Nat) :
    Carried x (TypeParam.mapSpans x.span) (typeParam allowVariance vars n)
      (typeParam allowVariance vars n) := by
  have hunchecked : Carried x id (uncheckedMark allowVariance) (uncheckedMark allowVariance) :=
    .ite (fun _ => .eat _) fun _ => .pure rfl
  have hbound : ∀ vars, Carried x (Option.map (TypeExpr.mapSpans x.span))
      (upperBound (typeExpr vars n)) (upperBound (typeExpr vars n)) := fun vars =>
    .same (.eat _) fun _ => .ite (fun _ => .bind (typeExpr_carried vars n) fun _ => .pure rfl)
      fun _ => .pure rfl
  exact .startOffset fun _ hstart => .same hunchecked fun _ => .same (variance_carried _) fun _ =>
    .same (.isAt _) fun _ => .ite (fun _ => .same .bump fun _ => .bind (hbound _) fun _ =>
      .bind (.spanFrom hstart) fun _ => .pure rfl) fun _ => .unexpected _

theorem typeParamsWithin_carried (allowVariance : Bool) (levels : Nat) (vars : List String)
    (n : Nat) :
    Carried x (List.map (TypeParam.mapSpans x.span))
      (typeParamsWithin allowVariance levels vars n)
      (typeParamsWithin allowVariance levels vars n) := by
  induction n generalizing vars with
  | zero => exact .throw _
  | succ n ih =>
    exact .bind (typeParam_carried _ _ _) fun p => .same (.eat _) fun _ =>
      .ite (fun _ => .bind (ih _) fun _ => .pure rfl) fun _ => .pure rfl

theorem typeParams_carried (allowVariance : Bool) (vars : List String) (n : Nat) :
    Carried x (List.map (TypeParam.mapSpans x.span)) (typeParams allowVariance vars n)
      (typeParams allowVariance vars n) :=
  .same (.eat _) fun _ => .ite (fun _ => .same .rounds fun _ =>
    .bind (typeParamsWithin_carried _ _ _ _) fun _ => .bind (.expect _ _) fun _ => .pure rfl)
    fun _ => .pure rfl

theorem methodType_carried (vars : List String) (n : Nat) :
    Carried x (MethodType.mapSpans x.span) (methodType vars n) (methodType vars n) := by
  refine .startOffset fun start hstart => .bind (typeParams_carried false vars n) fun ps => ?_
  rw [typeParamNames_mapSpans]
  have htypes := typeExpr_returnType_carried (x := x) (typeParamNames ps ++ vars) n
  refine .bind (callable_carried htypes.1 htypes.2) ?_
  rintro ⟨function, block⟩
  exact .bind (.spanFrom hstart) fun span =>
    .pure (MethodType.mapSpans_eq _ ⟨ps, function, block, span⟩)

end Parser

end RubySig
