import RubySig.Parser.File
import RubySig.Proofs.Environment.Merge
import RubySig.Proofs.Parser.TypeSites

/-!
# Where the references of parsed declarations are written

A declaration is placed under its name, and so is every declaration nested in it.  The names of all
of them and the references that they write start at lexemes of their own.

* `EntityDecl.headerReferences`, `Member.references`: what a declaration refers to outside of its
  body and in it.
* `EntityDecl.ownSites`, `Placement.sites`: the name of a declaration and its references, without
  those of the declarations nested in it.
* `Parser.bodyMember_takes`, `Parser.entityDeclAt_takes`: elements of bodies and declarations.
* `Parser.bodiesWithin_takes`: bodies, down through all levels of nesting.
* `Parser.file_takes`: the declarations of a file.
-/

namespace RubySig

/-! ## References of declarations -/

/-- The references that a member makes, apart from those of a declaration nested in it. -/
def Member.references : Member → List Reference
  | .method m => m.overloads.flatMap MethodType.references
  | .attr a => a.type.references
  | .typedVar v => v.type.references
  | .mixin m => m.target.references
  | .methodAlias _ | .marker _ | .nested _ => []

/-- The references that a declaration makes outside of its body. -/
def EntityDecl.headerReferences (d : EntityDecl) : List Reference :=
  referencesOfTypeParams d.typeParams ++
    match d with
    | .klass d => (d.superClass.map NamedType.references).getD []
    | .module d => d.selfTypes.flatMap NamedType.references
    | .interface _ => []
    | .typeAlias d => d.type.references
    | .constant d => d.type.references

/-- Where the name of a declaration and its references start, without those of the declarations
nested in it. -/
def EntityDecl.ownSites (d : EntityDecl) : Multiset Site :=
  {d.nameSpan.site} + sitesOf d.headerReferences + sitesOf (d.members.flatMap Member.references)

/-- Where the name and the references of a placed declaration start. -/
def Placement.sites : Placement → Multiset Site
  | .entity _ f => f.decl.ownSites
  | .global f => f.decl.type.sites

/-- Where the names and references of several placed declarations start. -/
def sitesOfAll (placed : List Placement) : Multiset Site := (placed.map Placement.sites).sum

theorem sitesOfAll_append (xs ys : List Placement) :
    sitesOfAll (xs ++ ys) = sitesOfAll xs + sitesOfAll ys := by
  rw [sitesOfAll, List.map_append, List.sum_append]
  rfl

section Placing

variable (source : SourceId) (nesting : Nesting)

/-- Where the names and references of a declaration and all that is nested in it start. -/
def EntityDecl.sitesIn (d : EntityDecl) : Multiset Site := sitesOfAll (placeEntity source nesting d)

/-- Where the names and references of a member and all that is nested in it start. -/
def Member.sitesIn (m : Member) : Multiset Site :=
  sitesOf m.references + sitesOfAll (placeMembers source nesting [m])

theorem Member.sitesIn_of_not_nested {m : Member} (h : ∀ d, m ≠ .nested d) :
    m.sitesIn source nesting = sitesOf m.references := by
  cases m with
  | nested d => exact absurd rfl (h d)
  | method _ | attr _ | methodAlias _ | mixin _ | marker _ | typedVar _ =>
    rw [sitesIn]
    exact add_zero _

theorem Member.sitesIn_nested (d : EntityDecl) :
    (Member.nested d).sitesIn source nesting = d.sitesIn source nesting := by
  rw [sitesIn, placeMembers, placeMembers, List.append_nil]
  exact zero_add _

theorem sum_sitesIn_members (members : List Member) :
    (members.map (Member.sitesIn source nesting)).sum =
      sitesOf (members.flatMap Member.references) +
        sitesOfAll (placeMembers source nesting members) := by
  induction members with
  | nil => rfl
  | cons m rest ih =>
    rw [List.map_cons, List.sum_cons, ih, placeMembers_cons, sitesOfAll_append, List.flatMap_cons,
      sitesOf_append, Member.sitesIn, add_add_add_comm]

theorem EntityDecl.sitesIn_klass (d : ClassDecl) :
    (EntityDecl.klass d).sitesIn source nesting =
      {d.nameSpan.site} + (boundSites d.typeParams + (d.superClass.map NamedType.sites).getD 0) +
        (d.members.map (Member.sitesIn source
          (nesting.enter (d.name.placedIn nesting.innermost).toNamespace))).sum := by
  obtain ⟨name, typeParams, superClass, members, nameSpan, span⟩ := d
  rw [sum_sitesIn_members, ← add_assoc, sitesIn, placeEntity, placeClass, sitesOfAll, List.map_cons,
    List.sum_cons, Placement.sites, ownSites, headerReferences, sitesOf_append]
  cases superClass <;> rfl

theorem EntityDecl.sitesIn_module (d : ModuleDecl) :
    (EntityDecl.module d).sitesIn source nesting =
      {d.nameSpan.site} + (boundSites d.typeParams + (d.selfTypes.map NamedType.sites).sum) +
        (d.members.map (Member.sitesIn source
          (nesting.enter (d.name.placedIn nesting.innermost).toNamespace))).sum := by
  obtain ⟨name, typeParams, selfTypes, members, nameSpan, span⟩ := d
  rw [sum_sitesIn_members, ← add_assoc, sitesIn, placeEntity, placeModule, sitesOfAll,
    List.map_cons, List.sum_cons, Placement.sites, ownSites, headerReferences, sitesOf_append]
  dsimp only
  rw [sitesOf_flatMap]
  rfl

/-- In an interface no declarations are nested. -/
theorem EntityDecl.sitesIn_interface (d : InterfaceDecl) :
    (EntityDecl.interface d).sitesIn source nesting =
      {d.nameSpan.site} + boundSites d.typeParams +
        (d.members.map fun m => sitesOf m.references).sum := by
  rw [sitesIn, placeEntity, sitesOfAll, List.map_singleton, List.sum_singleton, Placement.sites,
    ownSites, headerReferences, List.append_nil, sitesOf_flatMap]
  rfl

theorem EntityDecl.sitesIn_typeAlias (d : AliasDecl) :
    (EntityDecl.typeAlias d).sitesIn source nesting =
      {d.nameSpan.site} + boundSites d.typeParams + d.type.sites := by
  rw [sitesIn, placeEntity, sitesOfAll, List.map_singleton, List.sum_singleton, Placement.sites,
    ownSites, headerReferences, sitesOf_append, ← add_assoc]
  exact add_zero _

theorem EntityDecl.sitesIn_constant (d : ConstantDecl) :
    (EntityDecl.constant d).sitesIn source nesting = {d.nameSpan.site} + d.type.sites := by
  rw [sitesIn, placeEntity, sitesOfAll, List.map_singleton, List.sum_singleton, Placement.sites,
    ownSites, headerReferences]
  exact add_zero _

end Placing

namespace Parser

variable {source : SourceId}

/-! ## Elements of bodies -/

section Members

variable (vars : List String) (levels : Nat)

theorem methodMember_takes (visibility : Option Visibility) (start : Nat) :
    Takes source 0 (methodMember vars levels visibility start) fun m =>
      (m.overloads.map MethodType.sites).sum :=
  .step (cut_assertAt _ (by decide)) fun _ => .step .bump fun _ =>
    .step (cut_methodKind (by decide)) fun _ => .step (cut_methodName (by decide)) fun _ =>
      .step (cut_expect _ _ (by decide)) fun _ => .bind (methodType_takes vars levels) fun _ =>
        .bind (.repeatedAfter (methodType_takes vars levels) _) fun _ =>
          .step (cut_spanFrom start) fun _ => .pure (by rw [List.map_cons, List.sum_cons])

theorem attributeMember_takes (visibility : Option Visibility) (start : Nat) :
    Takes source 0 (attributeMember vars levels visibility start) (·.type.sites) :=
  .step (cut_attributeKind (by decide)) fun _ => .step .bump fun _ =>
    .step (cut_eatSelfDot (by decide)) fun _ => .step (cut_look (by decide)) fun _ => .ite
      (fun _ => .step .bump fun _ => .step (cut_expect _ _ (by decide)) fun _ =>
        .bind (typeExpr_takes vars levels) fun _ => .step (cut_spanFrom start) fun _ =>
          .pure (le_refl _))
      fun _ => .unexpected _

theorem mixinMember_takes (kind : MixinKind) :
    Takes source 0 (mixinMember vars levels kind) (·.target.sites) :=
  .step cut_startOffset fun _ => .step .bump fun _ => .bind (namedType_takes vars levels _) fun _ =>
    .step (cut_spanFrom _) fun _ => .pure (le_refl _)

theorem variableMember_takes : Takes source 0 (variableMember vars levels) (·.type.sites) :=
  .step cut_startOffset fun _ => .step (cut_isAt _ (by decide)) fun _ => .step .bump fun _ =>
    .step (cut_expect _ _ (by decide)) fun _ => .bind (typeExpr_takes vars levels) fun _ =>
      .step (cut_spanFrom _) fun _ => .pure (le_refl _)

/-- An element that is no declaration, with the places where its references start. -/
theorem member_takes {α : Type} {p : Parser α} {sites : α → Multiset Site} {build : α → Member}
    (hbuild : ∀ a, sitesOf (build a).references = sites a) (h : Takes source 0 p sites) :
    Takes source 0 (do return build (← p)) fun m => sitesOf m.references :=
  .bind h fun a => .pure (hbuild a).le

theorem method_takes (visibility : Option Visibility) (start : Nat) :
    Takes source 0 (do return Member.method (← methodMember vars levels visibility start))
      fun m => sitesOf m.references :=
  member_takes (fun _ => sitesOf_flatMap _ _) (methodMember_takes vars levels visibility start)

theorem attr_takes (visibility : Option Visibility) (start : Nat) :
    Takes source 0 (do return Member.attr (← attributeMember vars levels visibility start))
      fun m => sitesOf m.references :=
  member_takes (fun _ => rfl) (attributeMember_takes vars levels visibility start)

theorem aliasOf_takes :
    Takes source 0 (do return Member.methodAlias (← aliasMember)) fun m => sitesOf m.references :=
  .step (cut_aliasMember (by decide)) fun _ => .pure (le_refl _)

theorem mixin_takes (kind : MixinKind) :
    Takes source 0 (do return Member.mixin (← mixinMember vars levels kind)) fun m =>
      sitesOf m.references :=
  member_takes (fun _ => rfl) (mixinMember_takes vars levels kind)

theorem visibilityMember_takes :
    Takes source 0 (visibilityMember vars levels) fun m => sitesOf m.references :=
  .step cut_startOffset fun start => .step cut_currentRange fun _ =>
    .step (cut_isAt _ (by decide)) fun _ => .step (cut_prefixesMember (by decide)) fun _ =>
      .step .bump fun _ => .ite
        (fun _ => .step (cut_isAt _ (by decide)) fun _ => .ite
          (fun _ => method_takes vars levels _ start) fun _ => attr_takes vars levels _ start)
        fun _ => .step (cut_spanOf _) fun _ => .pure (le_refl _)

theorem interfaceMember_takes :
    Takes source 0 (interfaceMember vars levels) fun m => sitesOf m.references := by
  refine .step (cut_look (by decide)) fun kind => ?_
  split
  · exact .step cut_startOffset fun start => method_takes vars levels none start
  · exact aliasOf_takes
  · exact mixin_takes vars levels _
  · exact .unexpected _

theorem bodyMember_takes {declaration : Parser EntityDecl} (nesting : Nesting)
    (h : Takes source 0 declaration (EntityDecl.sitesIn source nesting)) :
    Takes source 0 (bodyMember vars levels declaration) (Member.sitesIn source nesting) := by
  have hflat : ∀ {p : Parser Member}, Takes source 0 p (fun m => sitesOf m.references) →
      (Yields p fun m => ∀ d, m ≠ .nested d) →
        Takes source 0 p (Member.sitesIn source nesting) := by
    intro p htakes hp c m c' hsource hrun
    rw [Member.sitesIn_of_not_nested source nesting (hp c m c' hrun)]
    exact htakes c m c' hsource hrun
  have hattr := fun start => hflat (attr_takes vars levels none start) (.step fun _ => .pure nofun)
  have hmixin := fun kind => hflat (mixin_takes vars levels kind) (.step fun _ => .pure nofun)
  have hvar : Takes source 0 (do return Member.typedVar (← variableMember vars levels))
      (Member.sitesIn source nesting) :=
    hflat (member_takes (fun _ => rfl) (variableMember_takes vars levels))
      (.step fun _ => .pure nofun)
  have hnested : Takes source 0 (do return Member.nested (← declaration))
      (Member.sitesIn source nesting) :=
    .bind h fun d => .pure (Member.sitesIn_nested source nesting d).le
  have hvisibility := hflat (visibilityMember_takes vars levels) (.step fun _ => .step fun _ =>
    .step fun _ => .step fun _ => .step fun _ => .ite
      (fun _ => .step fun _ => .ite (fun _ => .step fun _ => .pure nofun)
        fun _ => .step fun _ => .pure nofun)
      fun _ => .step fun _ => .pure nofun)
  refine .step (cut_look (by decide)) fun kind => ?_
  split
  · exact .step cut_startOffset fun start =>
      hflat (method_takes vars levels none start) (.step fun _ => .pure nofun)
  · exact hflat aliasOf_takes (.step fun _ => .pure nofun)
  · exact hmixin _
  · exact hmixin _
  · exact hmixin _
  · exact .step cut_startOffset fun start => hattr start
  · exact .step cut_startOffset fun start => hattr start
  · exact .step cut_startOffset fun start => hattr start
  · exact hvisibility
  · exact hvisibility
  · exact hvar
  · exact hvar
  all_goals first | exact hnested | exact .unexpected _

end Members

/-! ## Declarations -/

/-- What the elements of a body take, wherever the body is placed. -/
structure Bodies.Takes (source : SourceId) (b : Bodies) : Prop where
  klass : ∀ vars nesting, Parser.Takes source 0 (b.klass vars) fun ms =>
    (ms.map (Member.sitesIn source nesting)).sum
  interface : ∀ vars, Parser.Takes source 0 (b.interface vars) fun ms =>
    (ms.map fun m => sitesOf m.references).sum

section Declarations

variable {bodies : Bodies} (levels : Nat) (nesting : Nesting)

theorem classDecl_takes (h : bodies.Takes source) :
    Takes source 0 (classDecl levels bodies) fun d =>
      (EntityDecl.klass d).sitesIn source nesting := by
  have hsuper : ∀ vars, Takes source 0 (do
      if ← eat .lt then return some (← namedType vars levels "a superclass name")
      else return none) fun s => (s.map NamedType.sites).getD 0 := fun vars =>
    .step (cut_eaten _ (by decide)) fun _ => .ite
      (fun _ => .bind (namedType_takes vars levels _) fun _ => .pure (le_refl _))
      fun _ => .pure (le_refl _)
  exact .step cut_startOffset fun _ => .step (cut_assertAt _ (by decide)) fun _ =>
    .step .bump fun _ => .bind (typeName_takes _ _) fun (name, nameRange) =>
      .bind ((typeParams_takes [] levels true).frame _) fun params =>
        .bind ((hsuper _).frame _) fun superClass =>
          .bind ((h.klass _ (nesting.enter (name.placedIn nesting.innermost).toNamespace)).frame _)
            fun members => .spanOf <| .step (cut_spanFrom _) fun _ => .pure (by
              rw [EntityDecl.sitesIn_klass, ← add_assoc]
              exact le_refl _)

theorem moduleDecl_takes (h : bodies.Takes source) :
    Takes source 0 (moduleDecl levels bodies) fun d =>
      (EntityDecl.module d).sitesIn source nesting := by
  have hselfTypes : ∀ vars, Takes source 0 (do
      if ← eat .colon then separated .comma (namedType vars levels "a self type") else return [])
      fun ts => (ts.map NamedType.sites).sum := fun vars =>
    .step (cut_eaten _ (by decide)) fun _ => .ite
      (fun _ => by
        have hseparated : Takes source 0 (separated .comma (namedType vars levels "a self type"))
            fun ts => 0 + (ts.map NamedType.sites).sum :=
          .separated (namedType_takes vars levels _) 0
        simpa only [zero_add] using hseparated)
      fun _ => .pure (le_refl _)
  exact .step cut_startOffset fun _ => .step (cut_assertAt _ (by decide)) fun _ =>
    .step .bump fun _ => .bind (typeName_takes _ _) fun (name, nameRange) =>
      .bind ((typeParams_takes [] levels true).frame _) fun params =>
        .bind ((hselfTypes _).frame _) fun selfTypes =>
          .bind ((h.klass _ (nesting.enter (name.placedIn nesting.innermost).toNamespace)).frame _)
            fun members => .spanOf <| .step (cut_spanFrom _) fun _ => .pure (by
              rw [EntityDecl.sitesIn_module, ← add_assoc]
              exact le_refl _)

theorem interfaceDecl_takes (h : bodies.Takes source) :
    Takes source 0 (interfaceDecl levels bodies) fun d =>
      (EntityDecl.interface d).sitesIn source nesting :=
  .step cut_startOffset fun _ => .step (cut_assertAt _ (by decide)) fun _ => .step .bump fun _ =>
    .bind (typeName_takes _ _) fun (_, _) => .bind ((typeParams_takes [] levels true).frame _)
      fun _ => .bind ((h.interface _).frame _) fun _ => .spanOf <| .step (cut_spanFrom _) fun _ =>
        .pure (EntityDecl.sitesIn_interface source nesting _).le

theorem aliasDecl_takes :
    Takes source 0 (aliasDecl levels) fun d => (EntityDecl.typeAlias d).sitesIn source nesting :=
  .step cut_startOffset fun _ => .step (cut_assertAt _ (by decide)) fun _ => .step .bump fun _ =>
    .bind (typeName_takes _ _) fun (_, _) => .bind ((typeParams_takes [] levels true).frame _)
      fun _ => .step (cut_expect _ _ (by decide)) fun _ =>
        .bind ((typeExpr_takes _ levels).frame _) fun _ => .spanOf <|
          .step (cut_spanFrom _) fun _ => .pure (EntityDecl.sitesIn_typeAlias source nesting _).le

theorem constantDecl_takes (vars : List String) :
    Takes source 0 (constantDecl vars levels) fun d =>
      (EntityDecl.constant d).sitesIn source nesting :=
  .step cut_startOffset fun _ => .bind (typeName_takes _ _) fun (_, _) =>
    .step (cut_expect _ _ (by decide)) fun _ => .bind ((typeExpr_takes _ levels).frame _) fun _ =>
      .spanOf <| .step (cut_spanFrom _) fun _ =>
        .pure (EntityDecl.sitesIn_constant source nesting _).le

theorem entityDeclAt_takes (vars : List String) (h : bodies.Takes source) (kind : TokenKind) :
    Takes source 0 (entityDeclAt vars levels bodies kind) (EntityDecl.sitesIn source nesting) := by
  unfold entityDeclAt
  split
  · exact .bind (classDecl_takes levels nesting h) fun _ => .pure (le_refl _)
  · exact .bind (moduleDecl_takes levels nesting h) fun _ => .pure (le_refl _)
  · exact .bind (interfaceDecl_takes levels nesting h) fun _ => .pure (le_refl _)
  · exact .bind (aliasDecl_takes levels nesting) fun _ => .pure (le_refl _)
  · exact .bind (constantDecl_takes levels nesting vars) fun _ => .pure (le_refl _)
  · exact .bind (constantDecl_takes levels nesting vars) fun _ => .pure (le_refl _)
  · exact .unexpected _

/-- By induction on the levels that may still be opened: a body opens one for each element. -/
theorem bodiesWithin_takes : (bodiesWithin levels).Takes source := by
  have hlist : ∀ {p : Parser Member} {sites : Member → Multiset Site}, Takes source 0 p sites →
      Takes source 0 (memberList (nested p)) fun ms => (ms.map sites).sum := fun h => by
    have hmembers := Takes.memberList (nested_takes h) 0
    simpa only [zero_add] using hmembers
  have htooDeep : ∀ {sites : Member → Multiset Site},
      Takes source 0 (memberList tooDeep) fun ms => (ms.map sites).sum := fun {sites} => by
    have hmembers : Takes source 0 (memberList tooDeep) fun ms => 0 + (ms.map sites).sum :=
      .memberList (.throw _) 0
    simpa only [zero_add] using hmembers
  induction levels with
  | zero => exact ⟨fun _ _ => htooDeep, fun _ => htooDeep⟩
  | succ n ih =>
    exact ⟨fun vars nesting => hlist (bodyMember_takes vars n nesting
        (.step (cut_look (by decide)) fun kind => entityDeclAt_takes n nesting vars ih kind)),
      fun vars => hlist (interfaceMember_takes vars n)⟩

end Declarations

/-! ## Files -/

theorem globalDecl_takes (levels : Nat) : Takes source 0 (globalDecl levels) (·.type.sites) :=
  .step cut_startOffset fun _ => .step (cut_assertAt _ (by decide)) fun _ => .step .bump fun _ =>
    .step (cut_expect _ _ (by decide)) fun _ => .bind (typeExpr_takes [] levels) fun _ =>
      .step (cut_spanFrom _) fun _ => .pure (le_refl _)

theorem declaration_takes (levels : Nat) :
    Takes source 0 (declaration levels) fun d => sitesOfAll (placements source [d]) := by
  have hglobal : ∀ d, sitesOfAll (placements source [.global d]) = d.type.sites :=
    fun _ => add_zero _
  have hentity : ∀ d, sitesOfAll (placements source [.entity d]) = d.sitesIn source .topLevel :=
    fun d => congrArg sitesOfAll (List.append_nil _)
  refine .step (cut_look (by decide)) fun kind => ?_
  split
  · exact .bind (globalDecl_takes levels) fun d => .pure (hglobal d).le
  · exact .bind (entityDeclAt_takes levels .topLevel [] (bodiesWithin_takes levels) _) fun d =>
      .pure (hentity d).le

/-- The declarations of a file, as they are placed. -/
theorem file_takes (levels : Nat) :
    Takes source 0 (file levels) fun ds => sitesOfAll (placements source ds) := by
  have hcons : ∀ d ds, sitesOfAll (placements source (d :: ds)) =
      sitesOfAll (placements source [d]) + sitesOfAll (placements source ds) := fun d ds => by
    rw [placements, ← List.singleton_append, List.flatMap_append, sitesOfAll_append]
    rfl
  have hwithin : ∀ n, Takes source 0 (fileWithin levels n) fun ds =>
      sitesOfAll (placements source ds) := by
    intro n
    induction n with
    | zero => exact .throw _
    | succ n ih =>
      exact .step cut_atEnd fun _ => .ite (fun _ => .pure (le_refl _)) fun _ =>
        .bind (declaration_takes levels) fun d => .bind (ih.frame _) fun ds => .pure (hcons d ds).le
  exact .step cut_rounds fun n => hwithin n

end Parser

end RubySig
