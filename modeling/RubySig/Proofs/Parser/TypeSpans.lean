import RubySig.Proofs.Parser.Fills
import RubySig.Proofs.TypeExpr.Params

/-!
# Spans in parsed types

The names in a type are written where the type is, the arguments of a name inside of it, and those
of a list in the order in which they are written.

* `TypesIn`: types whose references are well nested and lie in a range.
* `Parser.typeName_fills`, `Parser.namedWith_fills`, `Parser.singletonType_fills`: names.
* `Parser.typeExpr_fills`, `Parser.methodType_fills`: types and overloads.
-/

namespace RubySig

variable {source : SourceId} {text : String} {range : TextRange}

/-! ## References in a range -/

theorem ReferencesIn.widen {references : List Reference} {outer : TextRange}
    (h : ReferencesIn source text range references) (hrange : range.Within outer) :
    ReferencesIn source text outer references :=
  fun r hr => ⟨(h r hr).1, (h r hr).2.trans hrange⟩

theorem referencesIn_nil : ReferencesIn source text range [] :=
  fun _ hr => absurd hr List.not_mem_nil

theorem referencesIn_flatMap {α : Type} {xs : List α} {f : α → List Reference} :
    ReferencesIn source text range (xs.flatMap f) ↔
      ∀ x ∈ xs, ReferencesIn source text range (f x) :=
  List.forall_mem_flatMap

/-- The references of all types are well nested and lie in a range. -/
def TypesIn (source : SourceId) (text : String) (range : TextRange) (types : List TypeExpr) :
    Prop :=
  ∀ t ∈ types, ReferencesIn source text range t.references

theorem TypesIn.widen {types : List TypeExpr} {outer : TextRange}
    (h : TypesIn source text range types) (hrange : range.Within outer) :
    TypesIn source text outer types :=
  fun t ht => (h t ht).widen hrange

theorem typesIn_nil : TypesIn source text range [] := fun _ ht => absurd ht List.not_mem_nil

theorem typesIn_append {xs ys : List TypeExpr} : TypesIn source text range (xs ++ ys) ↔
    TypesIn source text range xs ∧ TypesIn source text range ys :=
  List.forall_mem_append

/-- A node that is no reference lies where its children lie. -/
theorem referencesIn_of_children {t : TypeExpr} (hreference : t.reference? = none)
    (h : TypesIn source text range t.children) : ReferencesIn source text range t.references := by
  rw [TypeExpr.references_eq, hreference]
  exact referencesIn_flatMap.2 h

/-- Settling the slots of written parameters adds no types. -/
theorem typesIn_arrange {written : List Param}
    (h : TypesIn source text range (written.map (·.type))) :
    TypesIn source text range ((FunctionType.arrange written).map (·.type)) := by
  refine List.forall_mem_map.2 fun p hp => ?_
  obtain ⟨q, hq, htype, -⟩ := FunctionType.exists_of_mem_arrange hp
  rw [htype]
  exact List.forall_mem_map.1 h q hq

/-- A name with arguments that lie in its span, one behind the other. -/
theorem referencesIn_named {t : NamedType} (hwritten : t.span.Written source text)
    (hwithin : t.span.range.Within range)
    (hargs : Parser.InRow (fun r (a : TypeExpr) => ReferencesIn source text r a.references)
      t.span.range t.args) : ReferencesIn source text range t.references := by
  have hreferences : t.argReferences = t.args.flatMap TypeExpr.references := by
    obtain ⟨name, args, span⟩ := t
    exact referencesOfTypes_eq args
  have hin : ReferencesIn source text t.span.range t.argReferences := by
    rw [hreferences]
    exact referencesIn_flatMap.2 hargs.each
  have hnested : t.WellNested := by
    refine ⟨fun r hr => (hin r hr).2, hargs.inOrder.imp fun ⟨m, ha, hb⟩ r hr s hs => ?_⟩
    exact (ha r hr).2.stop.trans (hb s hs).2.start
  refine List.forall_mem_cons.2 ⟨⟨⟨hwritten, fun u hu => ?_⟩, hwithin⟩, fun r hr => ?_⟩
  · cases hu
    exact hnested
  · exact ⟨(hin r hr).1, (hin r hr).2.trans hwithin⟩

/-- The bounds of type parameters lie where these lie. -/
theorem typesIn_bounds {params : List TypeParam} (h : ∀ p ∈ params,
    Parser.Lies (TypeParam.WellNested source text) TypeParam.span range p) :
    TypesIn source text range (params.filterMap (·.upperBound)) := by
  intro t ht
  obtain ⟨p, hp, hbound⟩ := List.mem_filterMap.1 ht
  exact ((h p hp).1.bound t hbound).widen (h p hp).2

namespace Parser

/-- The references in what a rule returns are well nested and lie in the range that it fills. -/
def Refers {α : Type} (source : SourceId) (text : String) (p : Parser α)
    (references : α → List Reference) : Prop :=
  FillsWith source text p fun range a => ReferencesIn source text range (references a)

theorem widens_references {α : Type} (references : α → List Reference) :
    Widens fun range (a : α) => ReferencesIn source text range (references a) :=
  ⟨ReferencesIn.widen⟩

/-! ## Names -/

theorem typeName_fills (what : String) (accept : TokenKind → Bool) :
    FillsWith source text (typeName what accept) fun range r =>
      r.2.Written text ∧ r.2.Within range := by
  have hpost : Widens fun range (r : TypeName × TextRange) => r.2.Written text ∧ r.2.Within range :=
    ⟨fun h hrange => ⟨h.1, h.2.trans hrange⟩⟩
  refine fun _ _ => .startOffset hpost fun start =>
    .step (cut_eaten _ (by decide)) fun _ _ _ =>
      .step (.bind cut_rounds fun _ => cut_enclosingSegmentsWithin _ (by decide) (le_refl _))
        fun path _ _ => .step (cut_look (by decide)) fun kind _ _ => .ite (fun _ => ?_)
          fun _ => .unexpected _
  exact .take .bump fun last _ _ hlt => .ranged hlt fun hwritten => ⟨hwritten, .refl _⟩

variable {type returnType : Parser TypeExpr}

theorem namedWith_fills (h : Refers source text type TypeExpr.references) (what : String)
    (accept : TokenKind → Bool) :
    Refers source text (namedWith type what accept) NamedType.references := by
  intro low e
  refine .startOffset (widens_references _) fun start =>
    .take (cut_typeName what accept (by decide)) fun (name, _) _ _ hlt =>
      .step (cut_eaten _ (by decide)) fun _ _ hle => .ite (fun _ => ?_) fun _ => ?_
  · refine .bind (.separated (widens_references _) h _ _) fun args _ hle₁ hargs =>
      .step (cut_expect _ _ (by decide)) fun _ _ hle₂ =>
        .spanned (by omega) fun hwritten => referencesIn_named hwritten (.refl _) ?_
    exact hargs.widen (widens_references _) (.later hle₂)
  · exact .spanned (by omega) fun hwritten => referencesIn_named hwritten (.refl _) .nil

theorem singletonType_fills : Refers source text singletonType TypeExpr.references := by
  intro low e
  refine .startOffset (widens_references _) fun start =>
    .step (cut_assertAt _ (by decide)) fun _ _ _ => .step .bump fun _ _ _ =>
      .step (cut_expect _ _ (by decide)) fun _ _ _ =>
        .step (cut_typeName _ _ (by decide)) fun (name, _) _ _ =>
          .take (cut_expect _ _ (by decide)) fun _ _ _ hlt => .spanned hlt fun hwritten => ?_
  exact List.forall_mem_singleton.2 ⟨⟨hwritten, fun t ht => by cases ht⟩, .refl _⟩

/-! ## Parameters and blocks -/

section Parts

variable (h : Refers source text type TypeExpr.references)

include h

theorem paramOf_fills (slot : Slot) :
    Refers source text (paramOf slot type) (·.type.references) := fun _ _ =>
  .bind (h _ _) fun _ _ _ ht => .step (cut_isAt _ (by decide)) fun _ _ hle => .ite
    (fun _ => .step .bump fun _ _ hle' =>
      .pure (ht.widen (.later (hle.trans hle'))))
    fun _ => .pure (ht.widen (.later hle))

theorem param_fills : Refers source text (param type) (·.type.references) := by
  intro low e
  refine .step (cut_look (by decide)) fun kind _ _ => ?_
  split
  · exact .step (cut_isOptionalKeyword (by decide)) fun _ _ _ => .ite
      (fun _ => .step .bump fun _ _ _ => .step cut_keywordName fun _ _ _ => paramOf_fills h _ _ _)
      fun _ => .step .bump fun _ _ _ => paramOf_fills h _ _ _
  · exact .step .bump fun _ _ _ => paramOf_fills h _ _ _
  · exact .step .bump fun _ _ _ => paramOf_fills h _ _ _
  · exact .ite (fun _ => .step (cut_isFollowedBy _ (by decide)) fun _ _ _ => .ite
      (fun _ => .step cut_keywordName fun _ _ _ => paramOf_fills h _ _ _)
      fun _ => paramOf_fills h _ _ _) fun _ => paramOf_fills h _ _ _

theorem params_fills : FillsWith source text (params type) fun range ps =>
    TypesIn source text range (ps.map (·.type)) := fun _ _ =>
  .step (cut_eaten _ (by decide)) fun _ _ _ => .ite
    (fun _ => .bind (.separatedUntil (widens_references _) (param_fills h) _ _)
      fun written _ _ hwritten => .step (cut_expect _ _ (by decide)) fun _ _ hle =>
        .pure (typesIn_arrange (TypesIn.widen (List.forall_mem_map.2 hwritten.each)
          (.later hle))))
    fun _ => .pure typesIn_nil

theorem blockBody_fills (required : Bool) :
    FillsWith source text (blockBody required type) fun range b =>
      TypesIn source text range (blockTypes b) := fun _ _ =>
  .bind (params_fills h _ _) fun ps _ _ hps => .step (cut_expect _ _ (by decide)) fun _ _ hle₁ =>
    .bind (h _ _) fun t _ hle₂ ht => .step (cut_expect _ _ (by decide)) fun _ _ hle₃ =>
      .pure (typesIn_append.2 ⟨hps.widen (.later (by omega)),
        List.forall_mem_singleton.2 (ht.widen (.later hle₃))⟩)

theorem block_fills : FillsWith source text (block type) fun range b =>
    TypesIn source text range (blockTypes b) := by
  intro low e
  refine .step (cut_look (by decide)) fun kind _ _ => ?_
  split
  · exact .step .bump fun _ _ _ => blockBody_fills h true _ _
  · exact .step (cut_isFollowedBy _ (by decide)) fun _ _ _ => .ite
      (fun _ => .step .bump fun _ _ _ => .step .bump fun _ _ _ => blockBody_fills h false _ _)
      fun _ => .pure typesIn_nil
  · exact .pure typesIn_nil

/-- At least the arrow is taken. -/
theorem callable_fills (hreturn : Refers source text returnType TypeExpr.references) :
    FillsWith source text (callable type returnType) fun range r =>
      range.start < range.stop ∧ TypesIn source text range (r.1.types ++ blockTypes r.2) :=
  fun _ _ =>
    .bind (params_fills h _ _) fun ps _ _ hps => .bind (block_fills h _ _) fun b _ hle₁ hb =>
      .take (cut_expect _ _ (by decide)) fun _ _ hle₂ hlt => .bind (hreturn _ _) fun t _ hle₃ ht =>
        .pure ⟨hlt.trans_le hle₃, typesIn_append.2 ⟨typesIn_append.2
          ⟨hps.widen (.later (by omega)), List.forall_mem_singleton.2 ht⟩,
          hb.widen (.later (by omega))⟩⟩

/-! ## Types without operators -/

theorem tupleType_fills : Refers source text (tupleType type) TypeExpr.references := fun _ _ =>
  .step (cut_assertAt _ (by decide)) fun _ _ _ => .step .bump fun _ _ _ =>
    .bind (.separatedUntil (widens_references _) h _ _) fun types _ _ htypes =>
      .step (cut_expect _ _ (by decide)) fun _ _ hle => .pure
        (referencesIn_of_children rfl (TypesIn.widen htypes.each (.later hle)))

theorem recordField_fills : Refers source text (recordField type) (·.type.references) := fun _ _ =>
  .step (cut_recordKey (by decide)) fun _ _ _ => .bind (h _ _) fun _ _ _ ht => .pure ht

theorem recordType_fills : Refers source text (recordType type) TypeExpr.references := fun _ _ =>
  .step (cut_assertAt _ (by decide)) fun _ _ _ => .step .bump fun _ _ _ =>
    .bind (.separatedUntil (widens_references _) (recordField_fills h) _ _)
      fun fields _ _ hfields => .step (cut_expect _ _ (by decide)) fun _ _ hle => .pure
        (referencesIn_of_children rfl (TypesIn.widen (List.forall_mem_map.2 hfields.each)
          (.later hle)))

theorem procType_fills (hreturn : Refers source text returnType TypeExpr.references) :
    Refers source text (procType type returnType) TypeExpr.references := fun _ _ =>
  .step (cut_assertAt _ (by decide)) fun _ _ _ => .step .bump fun _ _ _ =>
    .bind (callable_fills h hreturn _ _) fun (_, _) _ _ hr =>
      .pure (referencesIn_of_children rfl hr.2)

theorem anyNamed_fills : Refers source text (anyNamed type) TypeExpr.references := fun _ _ =>
  .bind (namedWith_fills h _ _ _ _) fun _ _ _ ht => .pure ht

theorem simpleType_fills (vars : List String)
    (hreturn : Refers source text returnType TypeExpr.references) :
    Refers source text (simpleType vars type returnType) TypeExpr.references := by
  intro low e
  have hnone : ∀ {t : TypeExpr} {e : Nat}, t.children = [] → t.reference? = none →
      Fills source text low e (Pure.pure t : Parser TypeExpr) fun t e' =>
        ReferencesIn source text ⟨low, e'⟩ t.references := fun hchildren hreference =>
    .pure (referencesIn_of_children hreference (hchildren ▸ typesIn_nil))
  refine .step (cut_look (by decide)) fun kind _ _ => ?_
  split
  · exact .step .bump fun _ _ _ => hnone rfl rfl
  · split
    · exact .step .bump fun _ _ _ => .bind (h _ _) fun _ _ _ ht =>
        .step (cut_expect _ _ (by decide)) fun _ _ hle =>
          .pure (ht.widen (.later hle))
    · exact tupleType_fills h _ _
    · exact recordType_fills h _ _
    · exact procType_fills h hreturn _ _
    · exact .step .bump fun _ _ _ => hnone rfl rfl
    · exact .step .bump fun _ _ _ => hnone rfl rfl
    · exact .step cut_currentRange fun _ _ _ => .step .bump fun _ _ _ => .ite
        (fun _ => hnone rfl rfl) fun _ => .throw _
    · exact .step .bump fun _ _ _ => hnone rfl rfl
    · exact .step .bump fun _ _ _ => hnone rfl rfl
    · exact singletonType_fills _ _
    · exact .step (cut_isAtTypeVar vars (by decide)) fun _ _ _ => .ite
        (fun _ => .step .bump fun _ _ _ => hnone rfl rfl) fun _ => anyNamed_fills h _ _
    · exact anyNamed_fills h _ _
    · exact anyNamed_fills h _ _
    · exact anyNamed_fills h _ _
    · exact .unexpected _

end Parts

/-! ## Operators -/

section Operators

variable {simple : Parser TypeExpr}

theorem optionalMarksWithin_fills (n : Nat) {low e : Nat} {t : TypeExpr}
    (ht : ReferencesIn source text ⟨low, e⟩ t.references) :
    Fills source text low e (optionalMarksWithin t n) fun t e' =>
      ReferencesIn source text ⟨low, e'⟩ t.references := by
  induction n generalizing t e with
  | zero => exact .throw _
  | succ n ih =>
    refine .step (cut_isAtOptionalMark (by decide)) fun _ _ hle => .ite
      (fun _ => .step .bump fun _ _ hle' => ih ?_)
      fun _ => .pure (ht.widen (.later hle))
    exact referencesIn_of_children rfl (List.forall_mem_singleton.2
      (ht.widen (.later (hle.trans hle'))))

theorem optionalType_fills (h : Refers source text simple TypeExpr.references) :
    Refers source text (optionalType simple) TypeExpr.references := fun _ _ =>
  .bind (h _ _) fun _ _ _ ht => .step cut_rounds fun n _ hle =>
    optionalMarksWithin_fills n (ht.widen (.later hle))

theorem operands_fills {mark : TokenKind} {build : List TypeExpr → TypeExpr}
    {operand : Parser TypeExpr} (hchildren : ∀ ts, (build ts).children = ts)
    (hreference : ∀ ts, (build ts).reference? = none)
    (h : Refers source text operand TypeExpr.references) :
    Refers source text (operands mark build operand) TypeExpr.references := fun _ _ =>
  .bind (h _ _) fun _ _ _ ht => .step (cut_isAt _ (by decide)) fun _ _ hle => .ite
    (fun _ => .bind (.repeatedAfter (widens_references _) h _ _) fun _ _ hle' hts =>
      .pure (referencesIn_of_children (hreference _) (by
        rw [hchildren]
        exact List.forall_mem_cons.2
          ⟨ht.widen (.later (hle.trans hle')), hts.each⟩)))
    fun _ => .pure (ht.widen (.later hle))

theorem unionType_fills (h : Refers source text simple TypeExpr.references) :
    Refers source text (unionType simple) TypeExpr.references :=
  operands_fills (fun _ => rfl) (fun _ => rfl)
    (operands_fills (fun _ => rfl) (fun _ => rfl) (optionalType_fills h))

end Operators

/-! ## Types -/

/-- By induction on the levels that may still be opened. -/
theorem typeExpr_returnType_fills (vars : List String) (levels : Nat) :
    Refers source text (typeExpr vars levels) TypeExpr.references ∧
      Refers source text (Parser.returnType vars levels) TypeExpr.references := by
  induction levels with
  | zero => exact ⟨fun _ _ => .throw _, fun _ _ => .throw _⟩
  | succ n ih =>
    have hsimple := simpleType_fills ih.1 vars ih.2
    exact ⟨fun _ _ => .nested (unionType_fills hsimple _ _),
      fun _ _ => .nested (optionalType_fills hsimple _ _)⟩

section Overloads

variable (vars : List String) (levels : Nat)

theorem typeExpr_fills : Refers source text (typeExpr vars levels) TypeExpr.references :=
  (typeExpr_returnType_fills vars levels).1

theorem namedType_fills (what : String) :
    Refers source text (namedType vars levels what) NamedType.references :=
  namedWith_fills (typeExpr_fills vars levels) what _

theorem typeParam_fills (allowVariance : Bool) :
    FillsWith source text (typeParam allowVariance vars levels)
      (Lies (TypeParam.WellNested source text) TypeParam.span) := by
  have hbound : ∀ name, FillsWith source text (upperBound (typeExpr (name :: vars) levels))
      fun range bound => ∀ t, bound = some t → ReferencesIn source text range t.references :=
    fun name _ _ => .step (cut_eaten _ (by decide)) fun _ _ _ => .ite
      (fun _ => .bind (typeExpr_fills _ levels _ _) fun _ _ _ ht =>
        .pure fun _ heq => Option.some.inj heq ▸ ht)
      fun _ => .pure fun _ heq => by cases heq
  exact fun _ _ => .startOffset widens_lies fun start =>
    .step (cut_uncheckedMark _ (by decide)) fun _ _ _ => .step (cut_variance _ (by decide))
      fun _ _ _ => .step (cut_isAt _ (by decide)) fun _ _ _ => .ite
        (fun _ => .take .bump fun name _ _ hlt => .bind (hbound name _ _) fun _ _ hle ht =>
          .spanned (by omega) fun hwritten => ⟨⟨hwritten, ht⟩, .refl _⟩)
        fun _ => .unexpected _

theorem typeParams_fills (allowVariance : Bool) :
    FillsWith source text (typeParams allowVariance vars levels)
      (InRow (Lies (TypeParam.WellNested source text) TypeParam.span)) := by
  have hwithin : ∀ (n : Nat) (vars : List String),
      FillsWith source text (typeParamsWithin allowVariance levels vars n)
        (InRow (Lies (TypeParam.WellNested source text) TypeParam.span)) := by
    intro n
    induction n with
    | zero => exact fun _ _ _ => .throw _
    | succ n ih =>
      exact fun vars _ _ => .bind (typeParam_fills vars levels allowVariance _ _)
        fun p _ _ hp => .step (cut_eaten _ (by decide)) fun _ _ hle => .ite
          (fun _ => .cons widens_lies hp hle (ih _)) fun _ => .single widens_lies hp hle
  exact fun _ _ => .step (cut_eaten _ (by decide)) fun _ _ _ => .ite
    (fun _ => .step cut_rounds fun n _ _ => .bind (hwithin n vars _ _) fun _ _ _ hps =>
      .step (cut_expect _ _ (by decide)) fun _ _ hle =>
        .pure (hps.widen widens_lies (.later hle)))
    fun _ => .pure .nil

theorem methodType_fills : FillsWith source text (methodType vars levels)
    (Lies (MethodType.WellNested source text) MethodType.span) := by
  refine fun _ _ => .startOffset widens_lies fun start =>
    .bind (typeParams_fills vars levels false _ _) fun params _ _ hparams =>
      .bind (callable_fills (typeExpr_fills _ levels) (typeExpr_returnType_fills _ levels).2 _ _)
        fun (function, block) e hle ⟨hlt, htypes⟩ => .spanned hlt fun hwritten => ?_
  have hrow : InRow (Lies (TypeParam.WellNested source text) TypeParam.span) ⟨start, e⟩ params :=
    hparams.widen widens_lies (.later hle)
  refine ⟨⟨hwritten, fun p hp => (hrow.each p hp).1, hrow.siblings, ?_⟩, .refl _⟩
  rw [MethodType.references_eq, MethodType.types, List.append_assoc]
  exact referencesIn_flatMap.2 (typesIn_append.2 ⟨typesIn_bounds hrow.each, htypes⟩)

end Overloads

end Parser

end RubySig
