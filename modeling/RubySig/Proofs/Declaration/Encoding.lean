import RubySig.Proofs.TypeExpr.Encoding

/-!
# Declarations are told apart by their encoding

A declaration is determined by its encoding if all names in it are read back from their printed form
and all parameter lists in it are in the order of their slots, at any depth.

* `Member.RecoverableAt`, `EntityDecl.Recoverable`, `Declaration.Recoverable`: declarations of which
  this holds.
* `Member.eq_of_same`, `EntityDecl.eq_of_same`: elements of bodies and entities.
* `Declaration.eq_of_same`: two such declarations with the same encoding are equal.
-/

namespace RubySig

open Json (Same)

/-! ## Words -/

theorem Visibility.eq_of_render {v v' : Visibility} (h : v.render = v'.render) : v = v' := by
  cases v <;> cases v' <;> first | rfl | exact absurd h (by decide)

theorem MethodKind.eq_of_label {k k' : MethodKind} (h : k.label = k'.label) : k = k' := by
  cases k <;> cases k' <;> first | rfl | exact absurd h (by decide)

theorem AttributeKind.eq_of_label {k k' : AttributeKind} (h : k.label = k'.label) : k = k' := by
  cases k <;> cases k' <;> first | rfl | exact absurd h (by decide)

theorem MixinKind.eq_of_keyword {k k' : MixinKind} (h : k.keyword = k'.keyword) : k = k' := by
  cases k <;> cases k' <;> first | rfl | exact absurd h (by decide)

theorem VariableKind.eq_of_label {k k' : VariableKind} (h : k.label = k'.label) : k = k' := by
  cases k <;> cases k' <;> first | rfl | exact absurd h (by decide)

theorem visibility_eq_of_same {v v' : Option Visibility}
    (h : Same (jsonOfVisibility v) (jsonOfVisibility v')) : v = v' :=
  Same.optional_inj (fun v => .string v.render) (fun _ => nofun) h fun _ _ _ _ hword =>
    Visibility.eq_of_render hword.string_inj

/-! ## Elements of bodies -/

/-- The tag of an element of a body. -/
def Member.tag : Member → String
  | .method _ => "method"
  | .attr _ => "attribute"
  | .methodAlias _ => "alias"
  | .mixin _ => "mixin"
  | .marker _ => "visibility"
  | .typedVar _ => "variable"
  | .nested _ => "declaration"

/-- The fields of an element of a body behind its tag. -/
def Member.toFields : Member → List (String × Json)
  | .method m => m.toFields
  | .attr m => m.toFields
  | .methodAlias m => m.toFields
  | .mixin m => m.toFields
  | .marker m => m.toFields
  | .typedVar m => m.toFields
  | .nested d => d.toFields

/-- An element of a body with its tag. -/
def Member.toJson (m : Member) : Json := .object (("member", .string m.tag) :: m.toFields)

theorem jsonOfMembers_eq_map (members : List Member) :
    jsonOfMembers members = members.map Member.toJson := by
  induction members with
  | nil => rfl
  | cons m rest ih => cases m <;> rw [jsonOfMembers, ih] <;> rfl

/-- Neither a field nor the tag of a declaration has the name of the tag of a member. -/
theorem EntityDecl.lookup_member (d : EntityDecl) : d.toFields.lookup "member" = none := by
  cases d with
  | klass d => cases d; rfl
  | module d => cases d; rfl
  | interface d => cases d; rfl
  | typeAlias d => rfl
  | constant d => rfl

theorem Member.lookup_member (m : Member) : m.toFields.lookup "member" = none := by
  cases m with
  | nested d => exact d.lookup_member
  | _ => rfl

/-- An element of a body that is determined by its encoding, apart from a declaration in it. -/
def Member.RecoverableAt : Member → Prop
  | .method m => ∀ o ∈ m.overloads, o.Recoverable
  | .attr m => m.type.Recoverable
  | .mixin m => m.target.Recoverable
  | .typedVar m => m.type.Recoverable
  | .methodAlias _ | .marker _ | .nested _ => True

theorem MethodMember.eq_of_same {m n : MethodMember} (hm : ∀ o ∈ m.overloads, o.Recoverable)
    (hn : ∀ o ∈ n.overloads, o.Recoverable) (h : Same (.object m.toFields) (.object n.toFields)) :
    m = n := by
  obtain ⟨name, kind, overloads, visibility, span⟩ := m
  obtain ⟨name', kind', overloads', visibility', span'⟩ := n
  match h.values ["name", "kind", "overloads", "visibility", "span"] rfl rfl (by decide) with
  | .cons hname (.cons hkind (.cons hoverloads (.cons hvisibility (.cons hspan .nil)))) =>
    rw [MethodMember.mk.injEq]
    exact ⟨hname.string_inj, MethodKind.eq_of_label hkind.string_inj,
      Same.list_inj hoverloads fun o ho p hp => MethodType.eq_of_same (hm o ho) (hn p hp),
      visibility_eq_of_same hvisibility, Span.eq_of_same hspan⟩

theorem AttributeMember.eq_of_same {m n : AttributeMember} (hm : m.type.Recoverable)
    (hn : n.type.Recoverable) (h : Same (.object m.toFields) (.object n.toFields)) : m = n := by
  obtain ⟨kind, name, type, singleton, visibility, span⟩ := m
  obtain ⟨kind', name', type', singleton', visibility', span'⟩ := n
  match h.values ["kind", "name", "ty", "singleton", "visibility", "span"] rfl rfl (by decide) with
  | .cons hkind (.cons hname (.cons htype (.cons hsingleton (.cons hvisibility
      (.cons hspan .nil))))) =>
    rw [AttributeMember.mk.injEq]
    exact ⟨AttributeKind.eq_of_label hkind.string_inj, hname.string_inj,
      TypeExpr.eq_of_same hm hn htype, hsingleton.bool_inj, visibility_eq_of_same hvisibility,
      Span.eq_of_same hspan⟩

theorem AliasMember.eq_of_same {m n : AliasMember}
    (h : Same (.object m.toFields) (.object n.toFields)) : m = n := by
  obtain ⟨newName, oldName, singleton, span⟩ := m
  obtain ⟨newName', oldName', singleton', span'⟩ := n
  match h.values ["new_name", "old_name", "singleton", "span"] rfl rfl (by decide) with
  | .cons hnew (.cons hold (.cons hsingleton (.cons hspan .nil))) =>
    rw [AliasMember.mk.injEq]
    exact ⟨hnew.string_inj, hold.string_inj, hsingleton.bool_inj, Span.eq_of_same hspan⟩

theorem Mixin.eq_of_same {m n : Mixin} (hm : m.target.Recoverable) (hn : n.target.Recoverable)
    (h : Same (.object m.toFields) (.object n.toFields)) : m = n := by
  obtain ⟨kind, target, span⟩ := m
  obtain ⟨kind', target', span'⟩ := n
  match h.values ["kind", "target", "span"] rfl rfl (by decide) with
  | .cons hkind (.cons htarget (.cons hspan .nil)) =>
    rw [Mixin.mk.injEq]
    exact ⟨MixinKind.eq_of_keyword hkind.string_inj,
      NamedType.eq_of_recoverable hm hn htarget, Span.eq_of_same hspan⟩

theorem VisibilityMarker.eq_of_same {m n : VisibilityMarker}
    (h : Same (.object m.toFields) (.object n.toFields)) : m = n :=
  match h.values ["visibility", "span"] rfl rfl (by decide) with
  | .cons hvisibility (.cons hspan .nil) =>
    congrArg₂ VisibilityMarker.mk (Visibility.eq_of_render hvisibility.string_inj)
      (Span.eq_of_same hspan)

theorem VariableMember.eq_of_same {m n : VariableMember} (hm : m.type.Recoverable)
    (hn : n.type.Recoverable) (h : Same (.object m.toFields) (.object n.toFields)) : m = n := by
  obtain ⟨kind, name, type, span⟩ := m
  obtain ⟨kind', name', type', span'⟩ := n
  match h.values ["kind", "name", "ty", "span"] rfl rfl (by decide) with
  | .cons hkind (.cons hname (.cons htype (.cons hspan .nil))) =>
    rw [VariableMember.mk.injEq]
    exact ⟨VariableKind.eq_of_label hkind.string_inj, hname.string_inj,
      TypeExpr.eq_of_same hm hn htype, Span.eq_of_same hspan⟩

/-- An element of a body is determined by its encoding, if a declaration in it is. -/
theorem Member.eq_of_same {m n : Member} (hm : m.RecoverableAt) (hn : n.RecoverableAt)
    (hnested : ∀ d e, m = .nested d → n = .nested e →
      Same (.object d.toFields) (.object e.toFields) → d = e)
    (h : Same m.toJson n.toJson) : m = n := by
  have htag : m.tag = n.tag := h.tag
  have hfields : Same (.object m.toFields) (.object n.toFields) :=
    h.untagged m.lookup_member n.lookup_member
  cases m with
  | method m =>
    cases n with
    | method n => exact congrArg Member.method (MethodMember.eq_of_same hm hn hfields)
    | _ => simp [Member.tag] at htag
  | attr m =>
    cases n with
    | attr n => exact congrArg Member.attr (AttributeMember.eq_of_same hm hn hfields)
    | _ => simp [Member.tag] at htag
  | methodAlias m =>
    cases n with
    | methodAlias n => exact congrArg Member.methodAlias (AliasMember.eq_of_same hfields)
    | _ => simp [Member.tag] at htag
  | mixin m =>
    cases n with
    | mixin n => exact congrArg Member.mixin (Mixin.eq_of_same hm hn hfields)
    | _ => simp [Member.tag] at htag
  | marker m =>
    cases n with
    | marker n => exact congrArg Member.marker (VisibilityMarker.eq_of_same hfields)
    | _ => simp [Member.tag] at htag
  | typedVar m =>
    cases n with
    | typedVar n => exact congrArg Member.typedVar (VariableMember.eq_of_same hm hn hfields)
    | _ => simp [Member.tag] at htag
  | nested d =>
    cases n with
    | nested e => exact congrArg Member.nested (hnested d e rfl rfl hfields)
    | _ => simp [Member.tag] at htag

/-! ## Entities -/

namespace EntityDecl

/-- The tag of a declaration of an entity. -/
def tag : EntityDecl → String
  | .klass _ => "class"
  | .module _ => "module"
  | .interface _ => "interface"
  | .typeAlias _ => "alias"
  | .constant _ => "constant"

/-- The fields of a declaration behind its tag. -/
def fields : EntityDecl → List (String × Json)
  | .klass d => d.toFields
  | .module d => d.toFields
  | .interface d => d.toFields
  | .typeAlias d => d.toFields
  | .constant d => d.toFields

theorem toFields_eq (d : EntityDecl) :
    d.toFields = ("declaration", .string d.tag) :: d.fields := by
  cases d <;> rfl

theorem lookup_declaration (d : EntityDecl) : d.fields.lookup "declaration" = none := by
  cases d with
  | klass d => cases d; rfl
  | module d => cases d; rfl
  | interface d => cases d; rfl
  | typeAlias d => rfl
  | constant d => rfl

/-- What stands between the type parameters of a declaration and its body is determined by its
encoding. -/
def HeadRecoverable : EntityDecl → Prop
  | .klass d => ∀ s ∈ d.superClass, s.Recoverable
  | .module d => ∀ s ∈ d.selfTypes, s.Recoverable
  | .interface _ => True
  | .typeAlias d => d.type.Recoverable
  | .constant d => d.type.Recoverable

/-- A declaration that is determined by its encoding. -/
inductive Recoverable : EntityDecl → Prop
  | node {d : EntityDecl} (name : d.name.WellSpelled) (params : ∀ p ∈ d.typeParams, p.Recoverable)
      (head : d.HeadRecoverable) (members : ∀ m ∈ d.members, m.RecoverableAt)
      (inner : ∀ e, .nested e ∈ d.members → Recoverable e) : Recoverable d

end EntityDecl

/-- An element of a body that is determined by its encoding, with a declaration in it. -/
structure Member.Recoverable (m : Member) : Prop where
  own : m.RecoverableAt
  nested : ∀ d, m = .nested d → d.Recoverable

section Entities

variable {d e : EntityDecl}

theorem EntityDecl.recoverable_of_members (hname : d.name.WellSpelled)
    (hparams : ∀ p ∈ d.typeParams, p.Recoverable) (hhead : d.HeadRecoverable)
    (hmembers : ∀ m ∈ d.members, m.Recoverable) : d.Recoverable :=
  .node hname hparams hhead (fun m hm => (hmembers m hm).own)
    fun e he => (hmembers _ he).nested e rfl

theorem typeParams_eq_of_same {ps qs : List TypeParam} (hps : ∀ p ∈ ps, p.Recoverable)
    (hqs : ∀ q ∈ qs, q.Recoverable)
    (h : Same (Json.list TypeParam.toJson ps) (Json.list TypeParam.toJson qs)) : ps = qs :=
  Same.list_inj h fun p hp q hq => TypeParam.eq_of_same (hps p hp) (hqs q hq)

theorem ClassDecl.eq_of_same {d e : ClassDecl} (hd : (EntityDecl.klass d).Recoverable)
    (he : (EntityDecl.klass e).Recoverable)
    (hmembers : Same (.array (jsonOfMembers d.members)) (.array (jsonOfMembers e.members)) →
      d.members = e.members)
    (h : Same (.object d.toFields) (.object e.toFields)) : d = e := by
  obtain ⟨hname, hparams, hhead, -, -⟩ := hd
  obtain ⟨hname', hparams', hhead', -, -⟩ := he
  obtain ⟨name, params, super, members, nameSpan, span⟩ := d
  obtain ⟨name', params', super', members', nameSpan', span'⟩ := e
  match h.values ["name", "type_params", "super_class", "members", "name_span", "span"]
    rfl rfl (by decide) with
  | .cons hn (.cons hp (.cons hs (.cons hm (.cons hns (.cons hspan .nil))))) =>
    rw [ClassDecl.mk.injEq]
    refine ⟨TypeName.eq_of_same hname hname' hn, typeParams_eq_of_same hparams hparams' hp, ?_,
      hmembers hm, Span.eq_of_same hns, Span.eq_of_same hspan⟩
    exact Same.optional_inj NamedType.toJson (fun _ => nofun) hs fun s hs t ht =>
      NamedType.eq_of_recoverable (hhead s hs) (hhead' t ht)

theorem ModuleDecl.eq_of_same {d e : ModuleDecl} (hd : (EntityDecl.module d).Recoverable)
    (he : (EntityDecl.module e).Recoverable)
    (hmembers : Same (.array (jsonOfMembers d.members)) (.array (jsonOfMembers e.members)) →
      d.members = e.members)
    (h : Same (.object d.toFields) (.object e.toFields)) : d = e := by
  obtain ⟨hname, hparams, hhead, -, -⟩ := hd
  obtain ⟨hname', hparams', hhead', -, -⟩ := he
  obtain ⟨name, params, selfTypes, members, nameSpan, span⟩ := d
  obtain ⟨name', params', selfTypes', members', nameSpan', span'⟩ := e
  match h.values ["name", "type_params", "self_types", "members", "name_span", "span"]
    rfl rfl (by decide) with
  | .cons hn (.cons hp (.cons hs (.cons hm (.cons hns (.cons hspan .nil))))) =>
    rw [ModuleDecl.mk.injEq]
    refine ⟨TypeName.eq_of_same hname hname' hn, typeParams_eq_of_same hparams hparams' hp, ?_,
      hmembers hm, Span.eq_of_same hns, Span.eq_of_same hspan⟩
    exact Same.list_inj hs fun s hs t ht => NamedType.eq_of_recoverable (hhead s hs) (hhead' t ht)

theorem InterfaceDecl.eq_of_same {d e : InterfaceDecl} (hd : (EntityDecl.interface d).Recoverable)
    (he : (EntityDecl.interface e).Recoverable)
    (hmembers : Same (.array (jsonOfMembers d.members)) (.array (jsonOfMembers e.members)) →
      d.members = e.members)
    (h : Same (.object d.toFields) (.object e.toFields)) : d = e := by
  obtain ⟨hname, hparams, -, -, -⟩ := hd
  obtain ⟨hname', hparams', -, -, -⟩ := he
  obtain ⟨name, params, members, nameSpan, span⟩ := d
  obtain ⟨name', params', members', nameSpan', span'⟩ := e
  match h.values ["name", "type_params", "members", "name_span", "span"] rfl rfl (by decide) with
  | .cons hn (.cons hp (.cons hm (.cons hns (.cons hspan .nil)))) =>
    rw [InterfaceDecl.mk.injEq]
    exact ⟨TypeName.eq_of_same hname hname' hn, typeParams_eq_of_same hparams hparams' hp,
      hmembers hm, Span.eq_of_same hns, Span.eq_of_same hspan⟩

theorem AliasDecl.eq_of_same {d e : AliasDecl} (hd : (EntityDecl.typeAlias d).Recoverable)
    (he : (EntityDecl.typeAlias e).Recoverable)
    (h : Same (.object d.toFields) (.object e.toFields)) : d = e := by
  obtain ⟨hname, hparams, htype, -, -⟩ := hd
  obtain ⟨hname', hparams', htype', -, -⟩ := he
  obtain ⟨name, params, type, nameSpan, span⟩ := d
  obtain ⟨name', params', type', nameSpan', span'⟩ := e
  match h.values ["name", "type_params", "ty", "name_span", "span"] rfl rfl (by decide) with
  | .cons hn (.cons hp (.cons ht (.cons hns (.cons hspan .nil)))) =>
    rw [AliasDecl.mk.injEq]
    exact ⟨TypeName.eq_of_same hname hname' hn, typeParams_eq_of_same hparams hparams' hp,
      TypeExpr.eq_of_same htype htype' ht, Span.eq_of_same hns, Span.eq_of_same hspan⟩

theorem ConstantDecl.eq_of_same {d e : ConstantDecl} (hd : (EntityDecl.constant d).Recoverable)
    (he : (EntityDecl.constant e).Recoverable)
    (h : Same (.object d.toFields) (.object e.toFields)) : d = e := by
  obtain ⟨hname, -, htype, -, -⟩ := hd
  obtain ⟨hname', -, htype', -, -⟩ := he
  obtain ⟨name, type, nameSpan, span⟩ := d
  obtain ⟨name', type', nameSpan', span'⟩ := e
  match h.values ["name", "ty", "name_span", "span"] rfl rfl (by decide) with
  | .cons hn (.cons ht (.cons hns (.cons hspan .nil))) =>
    rw [ConstantDecl.mk.injEq]
    exact ⟨TypeName.eq_of_same hname hname' hn, TypeExpr.eq_of_same htype htype' ht,
      Span.eq_of_same hns, Span.eq_of_same hspan⟩

/-- A declaration is determined by its encoding, if its body is. -/
theorem EntityDecl.eq_of_same_of_members (hd : d.Recoverable) (he : e.Recoverable)
    (hmembers : Same (.array (jsonOfMembers d.members)) (.array (jsonOfMembers e.members)) →
      d.members = e.members)
    (h : Same (.object d.toFields) (.object e.toFields)) : d = e := by
  rw [d.toFields_eq, e.toFields_eq] at h
  have htag : d.tag = e.tag := h.tag
  have hfields := h.untagged d.lookup_declaration e.lookup_declaration
  cases d with
  | klass d =>
    cases e with
    | klass e =>
      exact congrArg EntityDecl.klass (ClassDecl.eq_of_same hd he hmembers hfields)
    | _ => simp [EntityDecl.tag] at htag
  | module d =>
    cases e with
    | module e =>
      exact congrArg EntityDecl.module (ModuleDecl.eq_of_same hd he hmembers hfields)
    | _ => simp [EntityDecl.tag] at htag
  | interface d =>
    cases e with
    | interface e =>
      exact congrArg EntityDecl.interface (InterfaceDecl.eq_of_same hd he hmembers hfields)
    | _ => simp [EntityDecl.tag] at htag
  | typeAlias d =>
    cases e with
    | typeAlias e => exact congrArg EntityDecl.typeAlias (AliasDecl.eq_of_same hd he hfields)
    | _ => simp [EntityDecl.tag] at htag
  | constant d =>
    cases e with
    | constant e => exact congrArg EntityDecl.constant (ConstantDecl.eq_of_same hd he hfields)
    | _ => simp [EntityDecl.tag] at htag

/-- Declarations with the same encoding are equal.  By induction on the declarations nested in the
first of them. -/
theorem EntityDecl.eq_of_same (hd : d.Recoverable) (he : e.Recoverable)
    (h : Same (.object d.toFields) (.object e.toFields)) : d = e := by
  induction hd generalizing e with
  | @node d name params head members inner ih =>
    refine EntityDecl.eq_of_same_of_members (.node name params head members inner) he
      (fun hmembers => ?_) h
    obtain ⟨-, -, -, members', inner'⟩ := he
    rw [jsonOfMembers_eq_map, jsonOfMembers_eq_map] at hmembers
    refine Same.list_inj hmembers fun m hm n hn hmn => ?_
    refine Member.eq_of_same (members m hm) (members' n hn) ?_ hmn
    rintro x y rfl rfl hxy
    exact ih x hm (inner' y hn) hxy

end Entities

/-! ## Declarations of a file -/

/-- A declaration at the top level that is determined by its encoding. -/
def Declaration.Recoverable : Declaration → Prop
  | .entity d => d.Recoverable
  | .global d => d.type.Recoverable

theorem GlobalDecl.eq_of_same {d e : GlobalDecl} (hd : d.type.Recoverable)
    (he : e.type.Recoverable) (h : Same (.object d.toFields) (.object e.toFields)) : d = e := by
  obtain ⟨name, type, span⟩ := d
  obtain ⟨name', type', span'⟩ := e
  match h.values ["name", "ty", "span"] rfl rfl (by decide) with
  | .cons hname (.cons htype (.cons hspan .nil)) =>
    rw [GlobalDecl.mk.injEq]
    exact ⟨hname.string_inj, TypeExpr.eq_of_same hd he htype, Span.eq_of_same hspan⟩

theorem EntityDecl.tag_ne_global (d : EntityDecl) : d.tag ≠ "global" := by
  cases d <;> simp [EntityDecl.tag]

theorem Declaration.eq_of_same {d e : Declaration} (hd : d.Recoverable) (he : e.Recoverable)
    (h : Same d.toJson e.toJson) : d = e := by
  cases d with
  | entity d =>
    cases e with
    | entity e => exact congrArg Declaration.entity (EntityDecl.eq_of_same hd he h)
    | global e =>
      rw [Declaration.toJson, Declaration.toJson, d.toFields_eq] at h
      exact absurd h.tag d.tag_ne_global
  | global d =>
    cases e with
    | entity e =>
      rw [Declaration.toJson, Declaration.toJson, e.toFields_eq] at h
      exact absurd h.tag.symm e.tag_ne_global
    | global e =>
      exact congrArg Declaration.global (GlobalDecl.eq_of_same hd he (h.untagged rfl rfl))

end RubySig
