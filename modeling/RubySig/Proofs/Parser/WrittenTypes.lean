import RubySig.Proofs.Parser.BodyCut
import RubySig.Proofs.Parser.BodyScope
import RubySig.Proofs.Parser.TypeSpelling
import RubySig.Proofs.TypeExpr.Written

/-!
# Properties of all parsed types

Every type of a file is read by the rule for types or by the one for return types, with some names
in scope and no more levels than the file may open.  What these two rules ensure therefore holds of
every type of a declaration, together with the names in scope where it is written.

* `Parser.simpleType_each`, `Parser.callable_each`: types inside of other types.
* `Parser.TypesHold`: what the rules for types and return types ensure.
* `TypesHold.methodType`, `TypesHold.bodyMember`, `TypesHold.entityDeclAt`: the rules of the grammar
  that read types, up to declarations.
* `TypesHold.file`, `throughout_of_parseSource`: the declarations of a text.
-/

namespace RubySig

namespace Parser

/-! ## Types inside of types -/

section Parts

variable {Q : TypeExpr → Prop} {type returnType : Parser TypeExpr}

theorem paramOf_each (slot : Slot) (h : Ensures anywhere type fun t _ => Q t) :
    Ensures anywhere (paramOf slot type) fun p _ => Q p.type :=
  .known h fun _ ht => .step (cut_isAt _ (by decide)) fun _ =>
    .ite (fun _ => .step .bump fun _ => .pure fun _ _ => ht) fun _ => .pure fun _ _ => ht

theorem param_each (h : Ensures anywhere type fun t _ => Q t) :
    Ensures anywhere (param type) fun p _ => Q p.type := by
  have hkeyword : ∀ slot : String → Slot, Ensures anywhere
      (do let key ← keywordName; paramOf (slot key) type) fun p _ => Q p.type := by
    intro slot
    exact .step cut_keywordName fun _ => paramOf_each _ h
  refine .step (cut_look (by decide)) fun kind => ?_
  split
  · refine .step (cut_isOptionalKeyword (by decide)) fun _ => .ite (fun _ => ?_) fun _ => ?_
    · exact .step .bump fun _ => hkeyword _
    · exact .step .bump fun _ => paramOf_each _ h
  · exact .step .bump fun _ => paramOf_each _ h
  · exact .step .bump fun _ => paramOf_each _ h
  · refine .ite (fun _ => ?_) fun _ => paramOf_each _ h
    exact .step (cut_isFollowedBy _ (by decide)) fun _ =>
      .ite (fun _ => hkeyword _) fun _ => paramOf_each _ h

theorem params_each (h : Ensures anywhere type fun t _ => Q t) :
    Ensures anywhere (params type) fun ps _ => ∀ p ∈ ps, Q p.type := by
  refine .step (cut_eaten _ (by decide)) fun _ => .ite (fun _ => ?_) fun _ => .nil
  refine .known (.separatedUntil (param_each h)) fun written hwritten =>
    .step (cut_expect _ _ (by decide)) fun _ => .pure fun _ _ p hp => ?_
  obtain ⟨q, hq, htype, -⟩ := FunctionType.exists_of_mem_arrange hp
  rw [htype]
  exact hwritten q hq

theorem forall_functionTypes {ps : List Param} {t : TypeExpr} (hps : ∀ p ∈ ps, Q p.type)
    (ht : Q t) : ∀ u ∈ (FunctionType.mk ps t).types, Q u :=
  List.forall_mem_append.2 ⟨List.forall_mem_map.2 hps, List.forall_mem_singleton.2 ht⟩

theorem blockBody_each (required : Bool) (h : Ensures anywhere type fun t _ => Q t) :
    Ensures anywhere (blockBody required type) fun b _ => ∀ t ∈ blockTypes b, Q t :=
  .known (params_each h) fun _ hps => .step (cut_expect _ _ (by decide)) fun _ =>
    .known h fun _ ht => .step (cut_expect _ _ (by decide)) fun _ =>
      .pure fun _ _ => forall_functionTypes hps ht

theorem block_each (h : Ensures anywhere type fun t _ => Q t) :
    Ensures anywhere (block type) fun b _ => ∀ t ∈ blockTypes b, Q t := by
  have hnone : Ensures anywhere (pure none : Parser (Option Block)) fun b _ =>
      ∀ t ∈ blockTypes b, Q t := .pure fun _ _ _ ht => absurd ht List.not_mem_nil
  refine .step (cut_look (by decide)) fun kind => ?_
  split
  · exact .step .bump fun _ => blockBody_each _ h
  · refine .step (cut_isFollowedBy _ (by decide)) fun _ => .ite (fun _ => ?_) fun _ => hnone
    exact .step .bump fun _ => .step .bump fun _ => blockBody_each _ h
  · exact hnone

theorem callable_each (h : Ensures anywhere type fun t _ => Q t)
    (hreturn : Ensures anywhere returnType fun t _ => Q t) :
    Ensures anywhere (callable type returnType) fun r _ =>
      ∀ t ∈ r.1.types ++ blockTypes r.2, Q t :=
  .known (params_each h) fun _ hps => .known (block_each h) fun _ hblock =>
    .step (cut_expect _ _ (by decide)) fun _ => .known hreturn fun _ ht =>
      .pure fun _ _ => List.forall_mem_append.2 ⟨forall_functionTypes hps ht, hblock⟩

theorem namedWith_each (what : String) (accept : TokenKind → Bool)
    (h : Ensures anywhere type fun t _ => Q t) :
    Ensures anywhere (namedWith type what accept) fun t _ => ∀ a ∈ t.args, Q a := by
  refine .step cut_startOffset fun _ => .step (cut_typeName what accept (by decide)) fun (_, _) =>
    .step (cut_eaten _ (by decide)) fun _ => .ite (fun _ => ?_) fun _ => ?_
  · exact .known (.separated h) fun _ hargs => .step (cut_expect _ _ (by decide)) fun _ =>
      .step (cut_spanFrom _) fun _ => .pure fun _ _ => hargs
  · exact .step (cut_spanFrom _) fun _ => .pure fun _ _ _ ha => absurd ha List.not_mem_nil

/-- A type without operators is one in parentheses, or all types directly inside of it are read by
the rules for types and return types. -/
theorem simpleType_each (vars : List String) (h : Ensures anywhere type fun t _ => Q t)
    (hreturn : Ensures anywhere returnType fun t _ => Q t) :
    Ensures anywhere (simpleType vars type returnType) fun t _ =>
      Q t ∨ ∀ c ∈ t.children, Q c := by
  have hleaf : ∀ t : TypeExpr, t.children = [] → Ensures anywhere (pure t : Parser TypeExpr)
      fun t _ => Q t ∨ ∀ c ∈ t.children, Q c := by
    intro t ht
    refine .pure fun _ _ => Or.inr fun c hc => ?_
    rw [ht] at hc
    exact absurd hc List.not_mem_nil
  have hnamed : Ensures anywhere (anyNamed type) fun t _ => Q t ∨ ∀ c ∈ t.children, Q c :=
    .known (namedWith_each _ _ h) fun _ hargs => .pure fun _ _ => Or.inr hargs
  have hfield : Ensures anywhere (recordField type) fun f _ => Q f.type :=
    .step (cut_recordKey (by decide)) fun _ => .known h fun _ ht => .pure fun _ _ => ht
  refine .step (cut_look (by decide)) fun kind => ?_
  split
  · exact .step .bump fun _ => hleaf _ rfl
  · split
    · exact .step .bump fun _ => .known h fun _ ht => .step (cut_expect _ _ (by decide)) fun _ =>
        .pure fun _ _ => Or.inl ht
    · exact .step (cut_assertAt _ (by decide)) fun _ => .step .bump fun _ =>
        .known (.separatedUntil h) fun _ htypes => .step (cut_expect _ _ (by decide)) fun _ =>
          .pure fun _ _ => Or.inr htypes
    · exact .step (cut_assertAt _ (by decide)) fun _ => .step .bump fun _ =>
        .known (.separatedUntil hfield) fun _ hfields =>
          .step (cut_expect _ _ (by decide)) fun _ =>
            .pure fun _ _ => Or.inr (List.forall_mem_map.2 hfields)
    · exact .step (cut_assertAt _ (by decide)) fun _ => .step .bump fun _ =>
        .known (callable_each h hreturn) fun _ htypes => .pure fun _ _ => Or.inr htypes
    · exact .step .bump fun _ => hleaf _ rfl
    · exact .step .bump fun _ => hleaf _ rfl
    · exact .step cut_currentRange fun _ => .step .bump fun _ =>
        .ite (fun _ => hleaf _ rfl) fun _ => .stops (.failAt _ _)
    · exact .step .bump fun _ => hleaf _ rfl
    · exact .step .bump fun _ => hleaf _ rfl
    · exact .step cut_startOffset fun _ => .step (cut_assertAt _ (by decide)) fun _ =>
        .step .bump fun _ => .step (cut_expect _ _ (by decide)) fun _ =>
          .step (cut_typeName _ _ (by decide)) fun (_, _) =>
            .step (cut_expect _ _ (by decide)) fun _ => .step (cut_spanFrom _) fun _ => hleaf _ rfl
    · refine .step (cut_isAtTypeVar _ (by decide)) fun _ => .ite (fun _ => ?_) fun _ => hnamed
      exact .step .bump fun _ => hleaf _ rfl
    · exact hnamed
    · exact hnamed
    · exact hnamed
    · exact .unexpected _

end Parts

/-! ## Types of overloads -/

/-- Names of type parameters as they are read. -/
def Capitalized (vars : List String) : Prop := ∀ v ∈ vars, TokenKind.upperIdent.Spells v.toList

theorem Capitalized.append {xs ys : List String} (hxs : Capitalized xs) (hys : Capitalized ys) :
    Capitalized (xs ++ ys) :=
  List.forall_mem_append.2 ⟨hxs, hys⟩

/-- What the rules for types and return types ensure of every type, whatever names are in scope and
however many levels up to a limit may be opened. -/
structure TypesHold (P : List String → TypeExpr → Prop) (limit : Nat) : Prop where
  type : ∀ vars levels, Capitalized vars → levels ≤ limit →
    Ensures anywhere (typeExpr vars levels) fun t _ => P vars t
  returnType : ∀ vars levels, Capitalized vars → levels ≤ limit →
    Ensures anywhere (returnType vars levels) fun t _ => P vars t

namespace TypesHold

variable {P : List String → TypeExpr → Prop} {limit levels : Nat} {vars : List String}

/-- The names of type parameters are capitalized, and their bounds have the property. -/
def Params (P : List String → TypeExpr → Prop) (vars : List String) (ps : List TypeParam) : Prop :=
  Capitalized (typeParamNames ps) ∧ ∀ t ∈ boundsIn vars ps, P t.1 t.2

theorem params_nil : Params P vars [] :=
  ⟨fun _ hv => absurd hv List.not_mem_nil, fun _ ht => absurd ht List.not_mem_nil⟩

theorem params_cons {p : TypeParam} {ps : List TypeParam}
    (hname : TokenKind.upperIdent.Spells p.name.toList)
    (hbound : ∀ t, p.upperBound = some t → P (p.name :: vars) t)
    (hps : Params P (p.name :: vars) ps) : Params P vars (p :: ps) := by
  refine ⟨List.forall_mem_cons.2 ⟨hname, hps.1⟩, List.forall_mem_append.2 ⟨?_, hps.2⟩⟩
  intro t ht
  obtain ⟨bound, hb, rfl⟩ := Option.map_eq_some_iff.1 (Option.mem_toList.1 ht)
  exact hbound bound hb

theorem typeParam (h : TypesHold P limit) (allowVariance : Bool) (hvars : Capitalized vars)
    (hlevels : levels ≤ limit) :
    Ensures anywhere (typeParam allowVariance vars levels) fun p _ =>
      TokenKind.upperIdent.Spells p.name.toList ∧
        ∀ t, p.upperBound = some t → P (p.name :: vars) t := by
  refine .step cut_startOffset fun _ => .step (cut_uncheckedMark _ (by decide)) fun _ =>
    .step (cut_variance _ (by decide)) fun _ => .isAt .upperIdent ?_ (.unexpected _)
  refine .bumpAt .upperIdent nofun (fun _ hls => hls.1) fun name hname => ?_
  have hscope : Capitalized (name :: vars) := List.forall_mem_cons.2 ⟨hname, hvars⟩
  have hbound : Ensures anywhere (upperBound (typeExpr (name :: vars) levels)) fun bound _ =>
      ∀ t, bound = some t → P (name :: vars) t := by
    refine .step (cut_eaten _ (by decide)) fun _ => .ite (fun _ => ?_) fun _ => ?_
    · exact .known (h.type _ _ hscope hlevels) fun _ ht => .pure fun _ _ _ hu =>
        Option.some.inj hu ▸ ht
    · exact .pure fun _ _ _ hu => by cases hu
  exact .known hbound fun _ hbound => .step (cut_spanFrom _) fun _ => .pure fun _ _ =>
    ⟨hname, hbound⟩

theorem typeParamsWithin (h : TypesHold P limit) (allowVariance : Bool) (hvars : Capitalized vars)
    (hlevels : levels ≤ limit) (n : Nat) :
    Ensures anywhere (typeParamsWithin allowVariance levels vars n) fun ps _ =>
      Params P vars ps := by
  induction n generalizing vars with
  | zero => exact .throw _
  | succ n ih =>
    refine .known (h.typeParam allowVariance hvars hlevels) fun p hp =>
      .step (cut_eaten _ (by decide)) fun _ => .ite (fun _ => ?_) fun _ => ?_
    · exact .known (ih (List.forall_mem_cons.2 ⟨hp.1, hvars⟩)) fun ps hps =>
        .pure fun _ _ => params_cons hp.1 hp.2 hps
    · exact .pure fun _ _ => params_cons hp.1 hp.2 params_nil

theorem typeParams (h : TypesHold P limit) (allowVariance : Bool) (hvars : Capitalized vars)
    (hlevels : levels ≤ limit) :
    Ensures anywhere (typeParams allowVariance vars levels) fun ps _ => Params P vars ps := by
  refine .step (cut_eaten _ (by decide)) fun _ => .ite (fun _ => .step cut_rounds fun _ => ?_)
    fun _ => .pure fun _ _ => params_nil
  exact .known (h.typeParamsWithin allowVariance hvars hlevels _) fun _ hps =>
    .step (cut_expect _ _ (by decide)) fun _ => .pure fun _ _ => hps

theorem methodType (h : TypesHold P limit) (hvars : Capitalized vars) (hlevels : levels ≤ limit) :
    Ensures anywhere (methodType vars levels) fun m _ => ∀ t ∈ m.typesIn vars, P t.1 t.2 := by
  refine .step cut_startOffset fun _ => .known (h.typeParams false hvars hlevels) fun ps hps => ?_
  have hscope := hps.1.append hvars
  refine .known (callable_each (h.type _ _ hscope hlevels) (h.returnType _ _ hscope hlevels))
    fun _ htypes => .step (cut_spanFrom _) fun _ => .pure fun _ _ => ?_
  exact List.forall_mem_append.2 ⟨hps.2, List.forall_mem_map.2 htypes⟩

theorem namedType (h : TypesHold P limit) (hvars : Capitalized vars) (hlevels : levels ≤ limit)
    (what : String) :
    Ensures anywhere (namedType vars levels what) fun t _ => ∀ a ∈ t.args, P vars a :=
  namedWith_each what acceptsMixin (h.type vars levels hvars hlevels)

/-! ## Elements of bodies -/

theorem methodMember (h : TypesHold P limit) (hvars : Capitalized vars) (hlevels : levels ≤ limit)
    (visibility : Option Visibility) (start : Nat) :
    Ensures anywhere (methodMember vars levels visibility start) fun m _ =>
      (Member.method m).Throughout P vars := by
  have hoverload := h.methodType hvars hlevels
  have hothers : Ensures anywhere (repeatedAfter .pipe (Parser.methodType vars levels))
      fun ms _ => ∀ m ∈ ms, ∀ t ∈ m.typesIn vars, P t.1 t.2 :=
    .step cut_rounds fun n => .repeatedAfterWithin hoverload n
  refine .step (cut_assertAt _ (by decide)) fun _ => .step .bump fun _ =>
    .step (cut_methodKind (by decide)) fun _ => .step (cut_methodName (by decide)) fun _ =>
      .step (cut_expect _ _ (by decide)) fun _ => .known hoverload fun _ hfirst =>
        .known hothers fun _ hothers => .step (cut_spanFrom _) fun _ => .pure fun _ _ => ?_
  exact ⟨List.forall_mem_flatMap.2 (List.forall_mem_cons.2 ⟨hfirst, hothers⟩), nofun⟩

theorem attributeMember (h : TypesHold P limit) (hvars : Capitalized vars)
    (hlevels : levels ≤ limit) (visibility : Option Visibility) (start : Nat) :
    Ensures anywhere (attributeMember vars levels visibility start) fun m _ =>
      (Member.attr m).Throughout P vars := by
  refine .step (cut_attributeKind (by decide)) fun _ => .step .bump fun _ =>
    .step (cut_eatSelfDot (by decide)) fun _ => .step (cut_look (by decide)) fun _ =>
      .ite (fun _ => .step .bump fun _ => .step (cut_expect _ _ (by decide)) fun _ => ?_)
        fun _ => .unexpected _
  exact .known (h.type vars levels hvars hlevels) fun _ ht => .step (cut_spanFrom _) fun _ =>
    .pure fun _ _ => ⟨List.forall_mem_singleton.2 ht, nofun⟩

theorem mixinMember (h : TypesHold P limit) (hvars : Capitalized vars) (hlevels : levels ≤ limit)
    (kind : MixinKind) :
    Ensures anywhere (mixinMember vars levels kind) fun m _ =>
      (Member.mixin m).Throughout P vars :=
  .step cut_startOffset fun _ => .step .bump fun _ =>
    .known (h.namedType hvars hlevels _) fun _ hargs => .step (cut_spanFrom _) fun _ =>
      .pure fun _ _ => ⟨List.forall_mem_map.2 hargs, nofun⟩

theorem variableMember (h : TypesHold P limit) (hvars : Capitalized vars)
    (hlevels : levels ≤ limit) :
    Ensures anywhere (variableMember vars levels) fun m _ =>
      (Member.typedVar m).Throughout P vars :=
  .step cut_startOffset fun _ => .step (cut_isAt _ (by decide)) fun _ => .step .bump fun _ =>
    .step (cut_expect _ _ (by decide)) fun _ => .known (h.type vars levels hvars hlevels)
      fun _ ht => .step (cut_spanFrom _) fun _ =>
        .pure fun _ _ => ⟨List.forall_mem_singleton.2 ht, nofun⟩

/-- A member without types and without a declaration in it. -/
theorem throughout_of_typesIn_eq_nil {m : Member} (htypes : m.typesIn vars = [])
    (hnested : ∀ d, m ≠ .nested d) : m.Throughout P vars := by
  refine ⟨fun t ht => ?_, fun d hd => absurd hd (hnested d)⟩
  rw [htypes] at ht
  exact absurd ht List.not_mem_nil

theorem aliasMember : Ensures anywhere (do return Member.methodAlias (← aliasMember)) fun m _ =>
    m.Throughout P vars :=
  .step (cut_aliasMember (by decide)) fun _ => .pure fun _ _ =>
    throughout_of_typesIn_eq_nil rfl nofun

/-- A member that is put together from what a rule returns. -/
theorem built {α : Type} {p : Parser α} {build : α → Member}
    (h : Ensures anywhere p fun a _ => (build a).Throughout P vars) :
    Ensures anywhere (do return build (← p)) fun m _ => m.Throughout P vars :=
  .known h fun _ ha => .pure fun _ _ => ha

theorem visibilityMember (h : TypesHold P limit) (hvars : Capitalized vars)
    (hlevels : levels ≤ limit) :
    Ensures anywhere (visibilityMember vars levels) fun m _ => m.Throughout P vars := by
  refine .step cut_startOffset fun _ => .step cut_currentRange fun _ =>
    .step (cut_isAt _ (by decide)) fun _ => .step (cut_prefixesMember (by decide)) fun _ =>
      .step .bump fun _ => .ite (fun _ => ?_) fun _ => ?_
  · refine .step (cut_isAt _ (by decide)) fun _ => .ite (fun _ => ?_) fun _ => ?_
    · exact built (h.methodMember hvars hlevels _ _)
    · exact built (h.attributeMember hvars hlevels _ _)
  · exact .step (cut_spanOf _) fun _ => .pure fun _ _ => throughout_of_typesIn_eq_nil rfl nofun

theorem bodyMember (h : TypesHold P limit) (hvars : Capitalized vars) (hlevels : levels ≤ limit)
    {declaration : Parser EntityDecl}
    (hdeclaration : Ensures anywhere declaration fun d _ => d.Throughout P vars) :
    Ensures anywhere (bodyMember vars levels declaration) fun m _ => m.Throughout P vars := by
  have hattribute : Ensures anywhere (do
      let start ← startOffset
      return Member.attr (← Parser.attributeMember vars levels none start)) fun m _ =>
        m.Throughout P vars :=
    .step cut_startOffset fun _ => built (h.attributeMember hvars hlevels _ _)
  have hvariable : Ensures anywhere (do
      return Member.typedVar (← Parser.variableMember vars levels)) fun m _ =>
        m.Throughout P vars :=
    built (h.variableMember hvars hlevels)
  have hnested : Ensures anywhere (do return Member.nested (← declaration)) fun m _ =>
      m.Throughout P vars := by
    refine built (hdeclaration.mono (fun _ => id) fun d _ hd => ⟨fun _ ht => ?_, ?_⟩)
    · exact absurd ht List.not_mem_nil
    · rintro _ ⟨⟩
      exact hd
  refine .step (cut_look (by decide)) fun kind => ?_
  split
  · exact .step cut_startOffset fun _ => built (h.methodMember hvars hlevels _ _)
  · exact aliasMember
  · exact built (h.mixinMember hvars hlevels _)
  · exact built (h.mixinMember hvars hlevels _)
  · exact built (h.mixinMember hvars hlevels _)
  · exact hattribute
  · exact hattribute
  · exact hattribute
  · exact h.visibilityMember hvars hlevels
  · exact h.visibilityMember hvars hlevels
  · exact hvariable
  · exact hvariable
  all_goals first | exact hnested | exact .unexpected _

theorem interfaceMember (h : TypesHold P limit) (hvars : Capitalized vars)
    (hlevels : levels ≤ limit) :
    Ensures anywhere (interfaceMember vars levels) fun m _ => m.Throughout P vars := by
  refine .step (cut_look (by decide)) fun kind => ?_
  split
  · exact .step cut_startOffset fun _ => built (h.methodMember hvars hlevels _ _)
  · exact aliasMember
  · exact built (h.mixinMember hvars hlevels _)
  · exact .unexpected _

theorem memberList {member : Parser Member}
    (hmember : Ensures anywhere member fun m _ => m.Throughout P vars) :
    Ensures anywhere (memberList member) fun ms _ => ∀ m ∈ ms, m.Throughout P vars := by
  have hwithin : ∀ n, Ensures anywhere (memberListWithin member n) fun ms _ =>
      ∀ m ∈ ms, m.Throughout P vars := by
    intro n
    induction n with
    | zero => exact .throw _
    | succ n ih =>
      refine .step (cut_eaten _ (by decide)) fun _ => .ite (fun _ => .nil) fun _ =>
        .step cut_atEnd fun _ => .ite (fun _ => .unexpected _) fun _ => ?_
      exact .known hmember fun m hm => .cons hm ih
  exact .step cut_rounds fun _ => hwithin _

/-! ## Declarations -/

/-- The types in bodies that are read for a scope have the property. -/
structure BodiesHold (P : List String → TypeExpr → Prop) (b : Bodies) : Prop where
  klass : ∀ vars, Capitalized vars →
    Ensures anywhere (b.klass vars) fun ms _ => ∀ m ∈ ms, m.Throughout P vars
  interface : ∀ vars, Capitalized vars →
    Ensures anywhere (b.interface vars) fun ms _ => ∀ m ∈ ms, m.Throughout P vars

variable {bodies : Bodies} {around : List String}

theorem capitalized_nil : Capitalized [] := fun _ hv => absurd hv List.not_mem_nil

theorem classDecl (h : TypesHold P limit) (hbodies : BodiesHold P bodies)
    (hlevels : levels ≤ limit) :
    Ensures anywhere (classDecl levels bodies) fun d _ =>
      (EntityDecl.klass d).Throughout P around := by
  refine .step cut_startOffset fun _ => .step (cut_assertAt _ (by decide)) fun _ =>
    .step .bump fun _ => .step (cut_typeName _ _ (by decide)) fun (_, _) =>
      .known (h.typeParams true capitalized_nil hlevels) fun ps hps => ?_
  have hsuper : Ensures anywhere (do
      if ← eat .lt then
        return some (← Parser.namedType (typeParamNames ps) levels "a superclass name")
      else return none) fun s _ =>
        ∀ a ∈ (s.map (·.args)).getD [], P (typeParamNames ps) a := by
    refine .step (cut_eaten _ (by decide)) fun _ => .ite (fun _ => ?_) fun _ => ?_
    · exact .known (h.namedType hps.1 hlevels _) fun _ hargs => .pure fun _ _ => hargs
    · exact .pure fun _ _ _ ha => absurd ha List.not_mem_nil
  refine .known hsuper fun _ hsuper => .known (hbodies.klass _ hps.1) fun _ hmembers =>
    .step (cut_spanOf _) fun _ => .step (cut_spanFrom _) fun _ => .pure fun _ _ => ?_
  exact EntityDecl.throughout_of_members hps.2 (List.forall_mem_map.2 hsuper) hmembers

theorem moduleDecl (h : TypesHold P limit) (hbodies : BodiesHold P bodies)
    (hlevels : levels ≤ limit) :
    Ensures anywhere (moduleDecl levels bodies) fun d _ =>
      (EntityDecl.module d).Throughout P around := by
  refine .step cut_startOffset fun _ => .step (cut_assertAt _ (by decide)) fun _ =>
    .step .bump fun _ => .step (cut_typeName _ _ (by decide)) fun (_, _) =>
      .known (h.typeParams true capitalized_nil hlevels) fun ps hps => ?_
  have hself : Ensures anywhere (do
      if ← eat .colon then
        separated .comma (Parser.namedType (typeParamNames ps) levels "a self type")
      else return []) fun ss _ => ∀ s ∈ ss, ∀ a ∈ s.args, P (typeParamNames ps) a := by
    refine .step (cut_eaten _ (by decide)) fun _ => .ite (fun _ => ?_) fun _ => .nil
    exact .separated (h.namedType hps.1 hlevels _)
  refine .known hself fun _ hself => .known (hbodies.klass _ hps.1) fun _ hmembers =>
    .step (cut_spanOf _) fun _ => .step (cut_spanFrom _) fun _ => .pure fun _ _ => ?_
  exact EntityDecl.throughout_of_members hps.2
    (List.forall_mem_map.2 (List.forall_mem_flatMap.2 hself)) hmembers

theorem interfaceDecl (h : TypesHold P limit) (hbodies : BodiesHold P bodies)
    (hlevels : levels ≤ limit) :
    Ensures anywhere (interfaceDecl levels bodies) fun d _ =>
      (EntityDecl.interface d).Throughout P around :=
  .step cut_startOffset fun _ => .step (cut_assertAt _ (by decide)) fun _ =>
    .step .bump fun _ => .step (cut_typeName _ _ (by decide)) fun (_, _) =>
      .known (h.typeParams true capitalized_nil hlevels) fun _ hps =>
        .known (hbodies.interface _ hps.1) fun _ hmembers => .step (cut_spanOf _) fun _ =>
          .step (cut_spanFrom _) fun _ => .pure fun _ _ =>
            EntityDecl.throughout_of_members hps.2 (fun _ ht => absurd ht List.not_mem_nil)
              hmembers

theorem aliasDecl (h : TypesHold P limit) (hlevels : levels ≤ limit) :
    Ensures anywhere (aliasDecl levels) fun d _ => (EntityDecl.typeAlias d).Throughout P around :=
  .step cut_startOffset fun _ => .step (cut_assertAt _ (by decide)) fun _ =>
    .step .bump fun _ => .step (cut_typeName _ _ (by decide)) fun (_, _) =>
      .known (h.typeParams true capitalized_nil hlevels) fun _ hps =>
        .step (cut_expect _ _ (by decide)) fun _ => .known (h.type _ _ hps.1 hlevels) fun _ ht =>
          .step (cut_spanOf _) fun _ => .step (cut_spanFrom _) fun _ => .pure fun _ _ =>
            EntityDecl.throughout_of_members hps.2 (List.forall_mem_singleton.2 ht)
              fun _ hm => absurd hm List.not_mem_nil

theorem constantDecl (h : TypesHold P limit) (hvars : Capitalized vars) (hlevels : levels ≤ limit) :
    Ensures anywhere (constantDecl vars levels) fun d _ =>
      (EntityDecl.constant d).Throughout P vars :=
  .step cut_startOffset fun _ => .step (cut_typeName _ _ (by decide)) fun (_, _) =>
    .step (cut_expect _ _ (by decide)) fun _ => .known (h.type _ _ hvars hlevels) fun _ ht =>
      .step (cut_spanOf _) fun _ => .step (cut_spanFrom _) fun _ => .pure fun _ _ =>
        EntityDecl.throughout_of_members (fun _ ht => absurd ht List.not_mem_nil)
          (List.forall_mem_singleton.2 ht) fun _ hm => absurd hm List.not_mem_nil

theorem entityDeclAt (h : TypesHold P limit) (hbodies : BodiesHold P bodies)
    (hvars : Capitalized vars) (hlevels : levels ≤ limit) (kind : TokenKind) :
    Ensures anywhere (entityDeclAt vars levels bodies kind) fun d _ => d.Throughout P vars := by
  have hconstant : Ensures anywhere (do return .constant (← Parser.constantDecl vars levels))
      fun d _ => EntityDecl.Throughout P vars d :=
    .known (h.constantDecl hvars hlevels) fun _ hd => .pure fun _ _ => hd
  unfold Parser.entityDeclAt
  split
  · exact .known (h.classDecl hbodies hlevels) fun _ hd => .pure fun _ _ => hd
  · exact .known (h.moduleDecl hbodies hlevels) fun _ hd => .pure fun _ _ => hd
  · exact .known (h.interfaceDecl hbodies hlevels) fun _ hd => .pure fun _ _ => hd
  · exact .known (h.aliasDecl hlevels) fun _ hd => .pure fun _ _ => hd
  · exact hconstant
  · exact hconstant
  · exact .unexpected _

/-- By induction on the levels that may still be opened: a body opens one for each element. -/
theorem bodiesWithin (h : TypesHold P limit) (hlevels : levels ≤ limit) :
    BodiesHold P (bodiesWithin levels) := by
  induction levels with
  | zero => exact ⟨fun _ _ => memberList (.throw _), fun _ _ => memberList (.throw _)⟩
  | succ n ih =>
    have hn : n ≤ limit := Nat.le_of_succ_le hlevels
    refine ⟨fun vars hvars => memberList (.nested ?_), fun vars hvars => memberList (.nested ?_)⟩
    · refine h.bodyMember hvars hn (.step (cut_look (by decide)) fun kind => ?_)
      exact h.entityDeclAt (ih hn) hvars hn kind
    · exact h.interfaceMember hvars hn

/-! ## Files -/

theorem globalDecl (h : TypesHold P limit) (hlevels : levels ≤ limit) :
    Ensures anywhere (globalDecl levels) fun d _ => P [] d.type :=
  .step cut_startOffset fun _ => .step (cut_assertAt _ (by decide)) fun _ =>
    .step .bump fun _ => .step (cut_expect _ _ (by decide)) fun _ =>
      .known (h.type _ _ capitalized_nil hlevels) fun _ ht => .step (cut_spanFrom _) fun _ =>
        .pure fun _ _ => ht

theorem declaration (h : TypesHold P limit) (hlevels : levels ≤ limit) :
    Ensures anywhere (declaration levels) fun d _ => d.Throughout P := by
  refine .step (cut_look (by decide)) fun kind => ?_
  split
  · exact .known (h.globalDecl hlevels) fun _ hd => .pure fun _ _ => hd
  · exact .known (h.entityDeclAt (h.bodiesWithin hlevels) capitalized_nil hlevels _) fun _ hd =>
      .pure fun _ _ => hd

theorem file (h : TypesHold P limit) :
    Ensures anywhere (file limit) fun ds _ => ∀ d ∈ ds, Declaration.Throughout P d := by
  have hwithin : ∀ n, Ensures anywhere (fileWithin limit n) fun ds _ =>
      ∀ d ∈ ds, Declaration.Throughout P d := by
    intro n
    induction n with
    | zero => exact .throw _
    | succ n ih =>
      refine .step cut_atEnd fun _ => .ite (fun _ => .nil) fun _ => ?_
      exact .known (h.declaration (le_refl limit)) fun _ hd => .cons hd ih
  exact .step cut_rounds fun _ => hwithin _

end TypesHold

end Parser

/-- What the rules for types ensure holds of every type of a text, where it is written. -/
theorem throughout_of_parseSource {P : List String → TypeExpr → Prop} {limits : Limits}
    {source : SourceId} {text : String} {declarations : List Declaration} {errors : List Diagnostic}
    (hrules : Parser.TypesHold P (limits.levels (Cursor.start source text limits.execFuel)))
    (h : parseSource limits source text = .ok (declarations, errors)) :
    ∀ d ∈ declarations, d.Throughout P := by
  rcases runFile_of_parseSource h with rfl | ⟨c, hrun⟩
  · exact fun _ hd => absurd hd List.not_mem_nil
  · have hproper : ∀ l ∈ (Cursor.start source text limits.execFuel).rest, l.Proper :=
      fun _ hl => Lexeme.spells_of_mem_ofText hl
    exact (hrules.file _ _ _ hproper trivial hrun).2

end RubySig
