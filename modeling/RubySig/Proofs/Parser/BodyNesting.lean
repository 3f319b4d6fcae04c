import RubySig.Proofs.Parser.BodyScope

/-!
# Declarations nested in parsed declarations

Declarations are nested in the bodies of classes and modules only: the grammar of an interface body
has none.

* `Member.nested?`, `EntityDecl.inner`: the declarations directly in a body.
* `EntityDecl.Flat`: no interface at any depth holds a declaration.
* `Parser.bodiesWithin_flat`, `flat_of_parseSource`: whatever is read from a text is of this form.
-/

namespace RubySig

/-! ## Nested declarations -/

/-- The declaration in a member, if it is one. -/
def Member.nested? : Member → Option EntityDecl
  | .nested d => some d
  | .method _ | .attr _ | .methodAlias _ | .mixin _ | .marker _ | .typedVar _ => none

/-- The declarations directly in the body of a declaration. -/
def EntityDecl.inner (d : EntityDecl) : List EntityDecl := d.members.filterMap Member.nested?

/-- Neither a declaration nor any one nested in it is an interface with declarations in its body. -/
inductive EntityDecl.Flat : EntityDecl → Prop
  | node {d : EntityDecl} (body : d.kind = .interface → d.inner = [])
      (inner : ∀ e ∈ d.inner, e.Flat) : d.Flat

/-- A declaration in this member is flat. -/
def Member.Flat (m : Member) : Prop := ∀ d, m.nested? = some d → d.Flat

theorem Member.flat_of_nested?_eq_none {m : Member} (h : m.nested? = none) : m.Flat := by
  intro d hd
  rw [h] at hd
  cases hd

namespace EntityDecl

/-- A declaration that is no interface is flat if those in its body are. -/
theorem flat_of_members {d : EntityDecl} (hkind : d.kind ≠ .interface)
    (hmembers : ∀ m ∈ d.members, m.Flat) : d.Flat := by
  refine .node (fun h => absurd h hkind) fun e he => ?_
  obtain ⟨m, hm, hnested⟩ := List.mem_filterMap.1 he
  exact hmembers m hm e hnested

/-- Aliases and constants have no body. -/
theorem flat_of_members_eq_nil {d : EntityDecl} (hkind : d.kind ≠ .interface)
    (h : d.members = []) : d.Flat := by
  refine flat_of_members hkind fun m hm => ?_
  rw [h] at hm
  exact absurd hm List.not_mem_nil

theorem flat_interface {d : InterfaceDecl} (hmembers : ∀ m ∈ d.members, m.nested? = none) :
    (EntityDecl.interface d).Flat := by
  have hinner : (EntityDecl.interface d).inner = [] := List.filterMap_eq_nil_iff.2 hmembers
  refine .node (fun _ => hinner) fun e he => ?_
  rw [hinner] at he
  exact absurd he List.not_mem_nil

end EntityDecl

/-! ## The grammar -/

namespace Parser

section Members

variable (scope : List String) (levels : Nat)

theorem visibilityMember_plain :
    Yields (visibilityMember scope levels) fun m => m.nested? = none := by
  refine .step fun _ => .step fun _ => .step fun _ => .step fun _ => .step fun _ =>
    .ite (fun _ => .step fun _ => .ite (fun _ => ?_) fun _ => ?_) fun _ => .step fun _ => ?_
  · exact .step fun _ => .pure rfl
  · exact .step fun _ => .pure rfl
  · exact .pure rfl

theorem interfaceMember_plain :
    Yields (interfaceMember scope levels) fun m => m.nested? = none := by
  refine .step fun kind => ?_
  split
  · exact .step fun _ => .step fun _ => .pure rfl
  · exact .step fun _ => .pure rfl
  · exact .step fun _ => .pure rfl
  · exact .unexpected _

variable {scope}

theorem bodyMember_flat {declaration : Parser EntityDecl} (h : Yields declaration EntityDecl.Flat) :
    Yields (bodyMember scope levels declaration) Member.Flat := by
  have hnested : Yields (do return Member.nested (← declaration)) Member.Flat :=
    .bind h fun d hd => .pure fun _ heq => Option.some.inj heq ▸ hd
  have hplain : ∀ m : Member, m.nested? = none → m.Flat :=
    fun _ => Member.flat_of_nested?_eq_none
  refine .step fun kind => ?_
  split
  · exact .step fun _ => .step fun _ => .pure (hplain _ rfl)
  · exact .step fun _ => .pure (hplain _ rfl)
  · exact .step fun _ => .pure (hplain _ rfl)
  · exact .step fun _ => .pure (hplain _ rfl)
  · exact .step fun _ => .pure (hplain _ rfl)
  · exact .step fun _ => .step fun _ => .pure (hplain _ rfl)
  · exact .step fun _ => .step fun _ => .pure (hplain _ rfl)
  · exact .step fun _ => .step fun _ => .pure (hplain _ rfl)
  · exact fun c m c' hm => hplain m (visibilityMember_plain scope levels c m c' hm)
  · exact fun c m c' hm => hplain m (visibilityMember_plain scope levels c m c' hm)
  · exact .step fun _ => .pure (hplain _ rfl)
  · exact .step fun _ => .pure (hplain _ rfl)
  all_goals first | exact hnested | exact .unexpected _

end Members

/-- The bodies of classes and modules hold flat declarations, those of interfaces none. -/
structure Bodies.Flat (b : Bodies) : Prop where
  klass : ∀ scope, Yields (b.klass scope) fun ms => ∀ m ∈ ms, m.Flat
  interface : ∀ scope, Yields (b.interface scope) fun ms => ∀ m ∈ ms, m.nested? = none

section Declarations

variable {bodies : Bodies} (levels : Nat)

theorem classDecl_flat (h : bodies.Flat) :
    Yields (classDecl levels bodies) fun d => (EntityDecl.klass d).Flat :=
  .step fun _ => .step fun _ => .step fun _ => .step fun _ => .step fun _ => .step fun _ =>
    .bind (h.klass _) fun _ hmembers => .step fun _ => .step fun _ =>
      .pure (EntityDecl.flat_of_members (by rintro ⟨⟩) hmembers)

theorem moduleDecl_flat (h : bodies.Flat) :
    Yields (moduleDecl levels bodies) fun d => (EntityDecl.module d).Flat :=
  .step fun _ => .step fun _ => .step fun _ => .step fun _ => .step fun _ => .step fun _ =>
    .bind (h.klass _) fun _ hmembers => .step fun _ => .step fun _ =>
      .pure (EntityDecl.flat_of_members (by rintro ⟨⟩) hmembers)

theorem interfaceDecl_flat (h : bodies.Flat) :
    Yields (interfaceDecl levels bodies) fun d => (EntityDecl.interface d).Flat :=
  .step fun _ => .step fun _ => .step fun _ => .step fun _ => .step fun _ =>
    .bind (h.interface _) fun _ hmembers => .step fun _ => .step fun _ =>
      .pure (EntityDecl.flat_interface hmembers)

theorem entityDeclAt_flat (scope : List String) (h : bodies.Flat) (kind : TokenKind) :
    Yields (entityDeclAt scope levels bodies kind) EntityDecl.Flat := by
  unfold entityDeclAt
  split
  · exact .bind (classDecl_flat levels h) fun _ hd => .pure hd
  · exact .bind (moduleDecl_flat levels h) fun _ hd => .pure hd
  · exact .bind (interfaceDecl_flat levels h) fun _ hd => .pure hd
  · exact .step fun _ => .pure (EntityDecl.flat_of_members_eq_nil (by rintro ⟨⟩) rfl)
  · exact .step fun _ => .pure (EntityDecl.flat_of_members_eq_nil (by rintro ⟨⟩) rfl)
  · exact .step fun _ => .pure (EntityDecl.flat_of_members_eq_nil (by rintro ⟨⟩) rfl)
  · exact .unexpected _

/-- By induction on the levels that may still be opened: a body opens one for each element. -/
theorem bodiesWithin_flat : (bodiesWithin levels).Flat := by
  induction levels with
  | zero => exact ⟨fun _ => .memberList .tooDeep, fun _ => .memberList .tooDeep⟩
  | succ n ih =>
    have hnested : ∀ scope, Yields (entityDecl scope n (bodiesWithin n)) EntityDecl.Flat :=
      fun scope => .step fun kind => entityDeclAt_flat n scope ih kind
    exact ⟨fun scope => .memberList (.nested (bodyMember_flat n (hnested scope))),
      fun scope => .memberList (.nested (interfaceMember_plain scope n))⟩

end Declarations

end Parser

/-! ## Files -/

/-- No interface in a declaration at the top level of a file holds a declaration. -/
def Declaration.Flat : Declaration → Prop
  | .entity d => d.Flat
  | .global _ => True

namespace Parser

theorem declaration_flat (levels : Nat) : Yields (declaration levels) Declaration.Flat := by
  refine .step fun kind => ?_
  split
  · exact .step fun _ => .pure trivial
  · exact .bind (entityDeclAt_flat levels [] (bodiesWithin_flat levels) _) fun _ hd => .pure hd

theorem file_flat (levels : Nat) :
    Yields (file levels) fun ds => ∀ d ∈ ds, Declaration.Flat d := by
  have hwithin : ∀ n, Yields (fileWithin levels n) fun ds => ∀ d ∈ ds, Declaration.Flat d := by
    intro n
    induction n with
    | zero => exact .throw _
    | succ n ih =>
      exact .step fun _ => .ite (fun _ => .nil) fun _ => .bind (declaration_flat levels)
        fun _ hd => .cons hd ih
  exact .step fun _ => hwithin _

end Parser

/-- No interface in a text holds a declaration. -/
theorem flat_of_parseSource {limits : Limits} {source : SourceId} {text : String}
    {declarations : List Declaration} {errors : List Diagnostic}
    (h : parseSource limits source text = .ok (declarations, errors)) :
    ∀ d ∈ declarations, d.Flat := by
  rcases runFile_of_parseSource h with rfl | ⟨c, hrun⟩
  · exact fun _ hd => absurd hd List.not_mem_nil
  · exact Parser.file_flat _ _ _ _ hrun

end RubySig
