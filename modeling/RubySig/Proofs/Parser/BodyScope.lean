import RubySig.Environment.Merge
import RubySig.Parser.File
import RubySig.Proofs.Parser.TypeScope

/-!
# Variables of parsed declarations

In the body of a class, module or interface the type parameters of its own declaration are in scope
and no others: those of the declarations around it are not.

* `Placement.Scoped`, `EntityDecl.Scoped`: a declaration is in the scope of its own type parameters,
  and so is every declaration nested in it.
* `Parser.bodyMember_scoped`, `Parser.entityDeclAt_scoped`: elements of bodies and declarations.
* `Parser.bodiesWithin_scoped`: bodies, down through all levels of nesting.
* `scoped_of_parseSource`: the declarations of a text.
-/

namespace RubySig

/-! ## Declarations with all that is nested in them -/

/-- A declared entity is in the scope of its own type parameters. -/
def Placement.Scoped : Placement → Prop
  | .entity _ f => f.decl.ScopedIn (typeParamNames f.decl.typeParams)
  | .global _ => True

/-- A declaration is in the scope of its own type parameters, and each one nested in it in that of
its own. -/
def EntityDecl.Scoped (d : EntityDecl) : Prop :=
  ∀ source nesting, ∀ p ∈ placeEntity source nesting d, p.Scoped

/-- The types of a member are in a scope, and a nested declaration is in its own. -/
structure Member.Scoped (scope : List String) (m : Member) : Prop where
  types : m.ScopedIn scope
  nested : ∀ d, m = .nested d → d.Scoped

theorem exists_nested_of_mem_placeMembers {source : SourceId} {nesting : Nesting}
    {members : List Member} {p : Placement} (h : p ∈ placeMembers source nesting members) :
    ∃ d, Member.nested d ∈ members ∧ p ∈ placeEntity source nesting d := by
  induction members with
  | nil => rw [placeMembers] at h; exact absurd h List.not_mem_nil
  | cons m rest ih =>
    have hrest : p ∈ placeMembers source nesting rest →
        ∃ d, Member.nested d ∈ m :: rest ∧ p ∈ placeEntity source nesting d := fun h => by
      obtain ⟨d, hd, hp⟩ := ih h
      exact ⟨d, List.mem_cons_of_mem _ hd, hp⟩
    cases m with
    | nested d =>
      rw [placeMembers] at h
      rcases List.mem_append.1 h with h | h
      · exact ⟨d, List.mem_cons_self, h⟩
      · exact hrest h
    | method _ | attr _ | methodAlias _ | mixin _ | marker _ | typedVar _ =>
      rw [placeMembers] at h
      exact hrest h

section Declarations

variable {scope : List String}

theorem scoped_of_mem_placeMembers {members : List Member} (h : ∀ m ∈ members, m.Scoped scope)
    {source : SourceId} {nesting : Nesting} :
    ∀ p ∈ placeMembers source nesting members, p.Scoped := by
  intro p hp
  obtain ⟨d, hd, hp⟩ := exists_nested_of_mem_placeMembers hp
  exact (h _ hd).nested d rfl source nesting p hp

theorem EntityDecl.scoped_klass {d : ClassDecl}
    (hmembers : ∀ m ∈ d.members, m.Scoped (typeParamNames d.typeParams))
    (hsuper : ∀ s, d.superClass = some s → ∀ a ∈ s.args, a.ScopedIn (typeParamNames d.typeParams)) :
    (EntityDecl.klass d).Scoped := by
  obtain ⟨name, typeParams, superClass, members, nameSpan, span⟩ := d
  intro source nesting
  rw [placeEntity, placeClass]
  exact List.forall_mem_cons.2 ⟨⟨fun m hm => (hmembers m hm).types, hsuper⟩,
    scoped_of_mem_placeMembers hmembers⟩

theorem EntityDecl.scoped_module {d : ModuleDecl}
    (hmembers : ∀ m ∈ d.members, m.Scoped (typeParamNames d.typeParams)) :
    (EntityDecl.module d).Scoped := by
  obtain ⟨name, typeParams, selfTypes, members, nameSpan, span⟩ := d
  intro source nesting
  rw [placeEntity, placeModule]
  exact List.forall_mem_cons.2 ⟨⟨fun m hm => (hmembers m hm).types, fun _ hs => by cases hs⟩,
    scoped_of_mem_placeMembers hmembers⟩

theorem EntityDecl.scoped_interface {d : InterfaceDecl}
    (hmembers : ∀ m ∈ d.members, m.Scoped (typeParamNames d.typeParams)) :
    (EntityDecl.interface d).Scoped := by
  intro source nesting
  rw [placeEntity]
  exact List.forall_mem_singleton.2 ⟨fun m hm => (hmembers m hm).types, fun _ hs => by cases hs⟩

theorem EntityDecl.scoped_typeAlias (d : AliasDecl) : (EntityDecl.typeAlias d).Scoped := by
  intro source nesting
  rw [placeEntity]
  exact List.forall_mem_singleton.2
    ⟨fun _ hm => absurd hm List.not_mem_nil, fun _ hs => by cases hs⟩

theorem EntityDecl.scoped_constant (d : ConstantDecl) : (EntityDecl.constant d).Scoped := by
  intro source nesting
  rw [placeEntity]
  exact List.forall_mem_singleton.2
    ⟨fun _ hm => absurd hm List.not_mem_nil, fun _ hs => by cases hs⟩

end Declarations

/-! ## Elements of bodies -/

namespace Parser

section Members

variable (scope : List String) (levels : Nat)

theorem methodMember_scoped (visibility : Option Visibility) (start : Nat) :
    Yields (methodMember scope levels visibility start) fun m =>
      ∀ o ∈ m.overloads, o.ScopedIn scope :=
  .step fun _ => .step fun _ => .step fun _ => .step fun _ => .step fun _ =>
    .bind (methodType_scoped scope levels) fun _ hfirst =>
      .bind (.repeatedAfter (methodType_scoped scope levels)) fun _ hothers =>
        .step fun _ => .pure (List.forall_mem_cons.2 ⟨hfirst, hothers⟩)

theorem attributeMember_scoped (visibility : Option Visibility) (start : Nat) :
    Yields (attributeMember scope levels visibility start) (·.type.ScopedIn scope) :=
  .step fun _ => .step fun _ => .step fun _ => .step fun _ =>
    .ite (fun _ => .step fun _ => .step fun _ => .bind (typeExpr_scoped scope levels) fun _ ht =>
      .step fun _ => .pure ht) fun _ => .unexpected _

theorem mixinMember_scoped (kind : MixinKind) :
    Yields (mixinMember scope levels kind) fun m => ∀ a ∈ m.target.args, a.ScopedIn scope :=
  .step fun _ => .step fun _ => .bind (namedType_scoped scope levels _) fun _ hargs =>
    .step fun _ => .pure hargs

theorem variableMember_scoped : Yields (variableMember scope levels) (·.type.ScopedIn scope) :=
  .step fun _ => .step fun _ => .step fun _ => .step fun _ =>
    .bind (typeExpr_scoped scope levels) fun _ ht => .step fun _ => .pure ht

variable {scope}

/-- A member without a declaration in it is scoped if its types are. -/
theorem scoped_of_types {m : Member} (hnested : ∀ d, m ≠ .nested d) (h : m.ScopedIn scope) :
    m.Scoped scope :=
  ⟨h, fun d hd => absurd hd (hnested d)⟩

theorem visibilityMember_scoped : Yields (visibilityMember scope levels) (·.Scoped scope) := by
  refine .step fun _ => .step fun _ => .step fun _ => .step fun _ => .step fun _ =>
    .ite (fun _ => .step fun _ => .ite (fun _ => ?_) fun _ => ?_) fun _ => .step fun _ => ?_
  · exact .bind (methodMember_scoped scope levels _ _) fun _ hm => .pure (scoped_of_types nofun hm)
  · exact .bind (attributeMember_scoped scope levels _ _) fun _ hm =>
      .pure (scoped_of_types nofun hm)
  · exact .pure (scoped_of_types nofun trivial)

theorem bodyMember_scoped {declaration : Parser EntityDecl}
    (h : Yields declaration EntityDecl.Scoped) :
    Yields (bodyMember scope levels declaration) (·.Scoped scope) := by
  have hmixin : ∀ kind, Yields (do return Member.mixin (← mixinMember scope levels kind))
      (·.Scoped scope) := fun kind =>
    .bind (mixinMember_scoped scope levels kind) fun _ hm => .pure (scoped_of_types nofun hm)
  have hattr : Yields (do
      let start ← startOffset
      return Member.attr (← attributeMember scope levels none start)) (·.Scoped scope) :=
    .step fun _ => .bind (attributeMember_scoped scope levels _ _) fun _ hm =>
      .pure (scoped_of_types nofun hm)
  have hvar : Yields (do return Member.typedVar (← variableMember scope levels))
      (·.Scoped scope) :=
    .bind (variableMember_scoped scope levels) fun _ hm => .pure (scoped_of_types nofun hm)
  have hnested : Yields (do return Member.nested (← declaration)) (·.Scoped scope) :=
    .bind h fun d hd => .pure ⟨trivial, fun _ heq => Member.nested.inj heq ▸ hd⟩
  refine .step fun kind => ?_
  split
  · exact .step fun _ => .bind (methodMember_scoped scope levels _ _) fun _ hm =>
      .pure (scoped_of_types nofun hm)
  · exact .step fun _ => .pure (scoped_of_types nofun trivial)
  · exact hmixin _
  · exact hmixin _
  · exact hmixin _
  · exact hattr
  · exact hattr
  · exact hattr
  · exact visibilityMember_scoped levels
  · exact visibilityMember_scoped levels
  · exact hvar
  · exact hvar
  all_goals first | exact hnested | exact .unexpected _

theorem interfaceMember_scoped : Yields (interfaceMember scope levels) (·.Scoped scope) := by
  refine .step fun kind => ?_
  split
  · exact .step fun _ => .bind (methodMember_scoped scope levels _ _) fun _ hm =>
      .pure (scoped_of_types nofun hm)
  · exact .step fun _ => .pure (scoped_of_types nofun trivial)
  · exact .bind (mixinMember_scoped scope levels _) fun _ hm => .pure (scoped_of_types nofun hm)
  · exact .unexpected _

end Members

/-! ## Declarations -/

/-- The elements of a body are in the scope for which the body is read. -/
structure Bodies.Scoped (b : Bodies) : Prop where
  klass : ∀ scope, Yields (b.klass scope) fun ms => ∀ m ∈ ms, m.Scoped scope
  interface : ∀ scope, Yields (b.interface scope) fun ms => ∀ m ∈ ms, m.Scoped scope

section Declarations

variable {bodies : Bodies} (levels : Nat)

theorem classDecl_scoped (h : bodies.Scoped) :
    Yields (classDecl levels bodies) fun d => (EntityDecl.klass d).Scoped := by
  refine .step fun _ => .step fun _ => .step fun _ => .step fun (name, nameRange) =>
    .step fun params => ?_
  have hsuper : Yields (do
      if ← eat .lt then return some (← namedType (typeParamNames params) levels "a superclass name")
      else return none) fun s? =>
        ∀ s, s? = some s → ∀ a ∈ s.args, a.ScopedIn (typeParamNames params) :=
    .step fun _ => .ite (fun _ => .bind (namedType_scoped _ levels _) fun _ hargs => .pure
      fun _ hs => Option.some.inj hs ▸ hargs) fun _ => .pure fun _ hs => by cases hs
  exact .bind hsuper fun _ hsuper => .bind (h.klass _) fun _ hmembers => .step fun _ =>
    .step fun _ => .pure (EntityDecl.scoped_klass hmembers hsuper)

theorem moduleDecl_scoped (h : bodies.Scoped) :
    Yields (moduleDecl levels bodies) fun d => (EntityDecl.module d).Scoped :=
  .step fun _ => .step fun _ => .step fun _ => .step fun (_, _) => .step fun _ => .step fun _ =>
    .bind (h.klass _) fun _ hmembers => .step fun _ => .step fun _ =>
      .pure (EntityDecl.scoped_module hmembers)

theorem interfaceDecl_scoped (h : bodies.Scoped) :
    Yields (interfaceDecl levels bodies) fun d => (EntityDecl.interface d).Scoped :=
  .step fun _ => .step fun _ => .step fun _ => .step fun (_, _) => .step fun _ =>
    .bind (h.interface _) fun _ hmembers => .step fun _ => .step fun _ =>
      .pure (EntityDecl.scoped_interface hmembers)

theorem entityDeclAt_scoped (scope : List String) (h : bodies.Scoped) (kind : TokenKind) :
    Yields (entityDeclAt scope levels bodies kind) EntityDecl.Scoped := by
  unfold entityDeclAt
  split
  · exact .bind (classDecl_scoped levels h) fun _ hd => .pure hd
  · exact .bind (moduleDecl_scoped levels h) fun _ hd => .pure hd
  · exact .bind (interfaceDecl_scoped levels h) fun _ hd => .pure hd
  · exact .step fun d => .pure (EntityDecl.scoped_typeAlias d)
  · exact .step fun d => .pure (EntityDecl.scoped_constant d)
  · exact .step fun d => .pure (EntityDecl.scoped_constant d)
  · exact .unexpected _

/-- By induction on the levels that may still be opened: a body opens one for each element. -/
theorem bodiesWithin_scoped : (bodiesWithin levels).Scoped := by
  induction levels with
  | zero => exact ⟨fun _ => .memberList .tooDeep, fun _ => .memberList .tooDeep⟩
  | succ n ih =>
    exact ⟨fun scope => .memberList (.nested (bodyMember_scoped n
        (.step fun kind => entityDeclAt_scoped n scope ih kind))),
      fun _ => .memberList (.nested (interfaceMember_scoped n))⟩

end Declarations

end Parser

/-! ## Files -/

/-- A declaration at the top level of a file is in the scope of its own type parameters. -/
def Declaration.Scoped : Declaration → Prop
  | .entity d => d.Scoped
  | .global _ => True

namespace Parser

theorem declaration_scoped (levels : Nat) : Yields (declaration levels) Declaration.Scoped := by
  refine .step fun kind => ?_
  split
  · exact .step fun _ => .pure trivial
  · exact .bind (entityDeclAt_scoped levels [] (bodiesWithin_scoped levels) _) fun _ hd => .pure hd

theorem file_scoped (levels : Nat) :
    Yields (file levels) fun ds => ∀ d ∈ ds, Declaration.Scoped d := by
  have hwithin : ∀ n, Yields (fileWithin levels n) fun ds => ∀ d ∈ ds, Declaration.Scoped d := by
    intro n
    induction n with
    | zero => exact .throw _
    | succ n ih =>
      exact .step fun _ => .ite (fun _ => .nil) fun _ => .bind (declaration_scoped levels)
        fun _ hd => .cons hd ih
  exact .step fun _ => hwithin _

end Parser

/-- The declarations of a text are those that the grammar returns, and with a syntax error there are
none. -/
theorem runFile_of_parseSource {limits : Limits} {source : SourceId} {text : String}
    {declarations : List Declaration} {errors : List Diagnostic}
    (h : parseSource limits source text = .ok (declarations, errors)) :
    declarations = [] ∨ ∃ c, runFile limits source text = .ok declarations c := by
  rw [parseSource] at h
  cases hrun : runFile limits source text with
  | ok parsed c =>
    rw [hrun] at h
    dsimp only at h
    split at h
    · obtain ⟨rfl, -⟩ := Prod.mk.inj (Except.ok.inj h)
      exact Or.inr ⟨c, rfl⟩
    · cases h
  | error stop c =>
    rw [hrun] at h
    dsimp only at h
    split at h
    · split at h
      · exact Or.inl (Prod.mk.inj (Except.ok.inj h)).1.symm
      all_goals cases h
    · cases h

/-- Every declaration of a text is in the scope of its own type parameters. -/
theorem scoped_of_parseSource {limits : Limits} {source : SourceId} {text : String}
    {declarations : List Declaration} {errors : List Diagnostic}
    (h : parseSource limits source text = .ok (declarations, errors)) :
    ∀ d ∈ declarations, d.Scoped := by
  rcases runFile_of_parseSource h with rfl | ⟨c, hrun⟩
  · exact fun _ hd => absurd hd List.not_mem_nil
  · exact Parser.file_scoped _ _ _ _ hrun

end RubySig
