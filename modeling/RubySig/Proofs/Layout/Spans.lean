import RubySig.Proofs.TypeExpr.Adoption

/-!
# Declarations with other spans

A file that is written at other places declares the same with other spans.  Here the change of spans
is told for everything that is read off a file.

* `TypeExpr.mapSpans_named` and its siblings: one equation for each kind of type.
* `MethodType.mapSpans_eq`: overloads.
* `EntityDecl.mapSpans`, `Member.mapSpans`, `Declaration.mapSpans`: declarations.
-/

namespace RubySig

variable (σ : Span → Span)

/-! ## Parts of types -/

/-- A record field with other spans. -/
def RecordField.mapSpans (field : RecordField) : RecordField :=
  ⟨field.key, field.type.mapSpans σ⟩

/-- A parameter with other spans. -/
def Param.mapSpans : Param → Param := FunctionType.withType (TypeExpr.mapSpans σ)

/-- A function with other spans. -/
def FunctionType.mapSpans (function : FunctionType) : FunctionType :=
  function.mapTypes (TypeExpr.mapSpans σ)

/-- A block with other spans. -/
def Block.mapSpans (block : Block) : Block := block.mapTypes (TypeExpr.mapSpans σ)

/-- A type parameter with other spans, those in its bound included. -/
def TypeParam.mapSpans (param : TypeParam) : TypeParam :=
  { param with upperBound := param.upperBound.map (TypeExpr.mapSpans σ), span := σ param.span }

theorem typeParamNames_mapSpans (params : List TypeParam) :
    typeParamNames (params.map (TypeParam.mapSpans σ)) = typeParamNames params := by
  rw [typeParamNames, List.map_map]
  rfl

/-! ## Types -/

namespace TypeExpr

theorem mapSpans_named (target : NamedType) :
    (named target).mapSpans σ = .named (target.mapSpans σ) := by
  rw [mapSpans_eq]
  rfl

theorem mapSpans_singleton (target : SingletonType) :
    (singleton target).mapSpans σ = .singleton ⟨target.name, σ target.span⟩ := by
  rw [mapSpans_eq]
  rfl

theorem mapSpans_union (types : List TypeExpr) :
    (union types).mapSpans σ = .union (types.map (mapSpans σ)) := by
  rw [mapSpans_eq]
  rfl

theorem mapSpans_intersection (types : List TypeExpr) :
    (intersection types).mapSpans σ = .intersection (types.map (mapSpans σ)) := by
  rw [mapSpans_eq]
  rfl

theorem mapSpans_optional (t : TypeExpr) :
    (optional t).mapSpans σ = .optional (t.mapSpans σ) := by
  rw [mapSpans_eq]
  rfl

theorem mapSpans_tuple (types : List TypeExpr) :
    (tuple types).mapSpans σ = .tuple (types.map (mapSpans σ)) := by
  rw [mapSpans_eq]
  rfl

theorem mapSpans_record (fields : List RecordField) :
    (record fields).mapSpans σ = .record (fields.map (RecordField.mapSpans σ)) := by
  rw [mapSpans_eq]
  rfl

theorem mapSpans_proc (function : FunctionType) (block : Option Block) :
    (proc function block).mapSpans σ =
      .proc (function.mapSpans σ) (block.map (Block.mapSpans σ)) := by
  rw [mapSpans_eq]
  rfl

theorem mapSpans_literal (value : Literal) : (literal value).mapSpans σ = .literal value := by
  rw [mapSpans_eq]
  rfl

theorem mapSpans_special (type : SpecialType) : (special type).mapSpans σ = .special type := by
  rw [mapSpans_eq]
  rfl

end TypeExpr

theorem MethodType.mapSpans_eq (m : MethodType) : m.mapSpans σ =
    ⟨m.typeParams.map (TypeParam.mapSpans σ), m.function.mapSpans σ,
      m.block.map (Block.mapSpans σ), σ m.span⟩ := by
  rw [mapSpans, map_eq, respan, List.map_map]
  refine congrArg (MethodType.mk · _ _ _) (List.map_congr_left fun p _ => ?_)
  obtain ⟨name, variance, unchecked, bound, span⟩ := p
  cases bound <;> rfl

/-! ## Declarations -/

/-- A type alias with other spans. -/
def AliasDecl.mapSpans (d : AliasDecl) : AliasDecl :=
  ⟨d.name, d.typeParams.map (TypeParam.mapSpans σ), d.type.mapSpans σ, σ d.nameSpan, σ d.span⟩

/-- A constant with other spans. -/
def ConstantDecl.mapSpans (d : ConstantDecl) : ConstantDecl :=
  ⟨d.name, d.type.mapSpans σ, σ d.nameSpan, σ d.span⟩

/-- A global variable with other spans. -/
def GlobalDecl.mapSpans (d : GlobalDecl) : GlobalDecl := ⟨d.name, d.type.mapSpans σ, σ d.span⟩

/-- A method with other spans. -/
def MethodMember.mapSpans (m : MethodMember) : MethodMember :=
  { m with overloads := m.overloads.map (MethodType.mapSpans σ), span := σ m.span }

/-- An attribute with other spans. -/
def AttributeMember.mapSpans (a : AttributeMember) : AttributeMember :=
  { a with type := a.type.mapSpans σ, span := σ a.span }

/-- An alias with another span. -/
def AliasMember.mapSpans (a : AliasMember) : AliasMember := { a with span := σ a.span }

/-- A directive with other spans. -/
def Mixin.mapSpans (m : Mixin) : Mixin :=
  { m with target := m.target.mapSpans σ, span := σ m.span }

/-- A section with another span. -/
def VisibilityMarker.mapSpans (m : VisibilityMarker) : VisibilityMarker :=
  { m with span := σ m.span }

/-- A variable with other spans. -/
def VariableMember.mapSpans (v : VariableMember) : VariableMember :=
  { v with type := v.type.mapSpans σ, span := σ v.span }

mutual

/-- A declaration with other spans, those of everything in it included. -/
def EntityDecl.mapSpans : EntityDecl → EntityDecl
  | .klass d => .klass (ClassDecl.mapSpans d)
  | .module d => .module (ModuleDecl.mapSpans d)
  | .interface d => .interface (InterfaceDecl.mapSpans d)
  | .typeAlias d => .typeAlias (d.mapSpans σ)
  | .constant d => .constant (d.mapSpans σ)

/-- A class with other spans. -/
def ClassDecl.mapSpans : ClassDecl → ClassDecl
  | ⟨name, typeParams, superClass, members, nameSpan, span⟩ =>
    ⟨name, typeParams.map (TypeParam.mapSpans σ), superClass.map (NamedType.mapSpans σ),
      mapSpansOfMembers members, σ nameSpan, σ span⟩

/-- A module with other spans. -/
def ModuleDecl.mapSpans : ModuleDecl → ModuleDecl
  | ⟨name, typeParams, selfTypes, members, nameSpan, span⟩ =>
    ⟨name, typeParams.map (TypeParam.mapSpans σ), selfTypes.map (NamedType.mapSpans σ),
      mapSpansOfMembers members, σ nameSpan, σ span⟩

/-- An interface with other spans. -/
def InterfaceDecl.mapSpans : InterfaceDecl → InterfaceDecl
  | ⟨name, typeParams, members, nameSpan, span⟩ =>
    ⟨name, typeParams.map (TypeParam.mapSpans σ), mapSpansOfMembers members, σ nameSpan, σ span⟩

/-- An element of a body with other spans. -/
def Member.mapSpans : Member → Member
  | .method m => .method (m.mapSpans σ)
  | .attr a => .attr (a.mapSpans σ)
  | .methodAlias a => .methodAlias (a.mapSpans σ)
  | .mixin m => .mixin (m.mapSpans σ)
  | .marker m => .marker (m.mapSpans σ)
  | .typedVar v => .typedVar (v.mapSpans σ)
  | .nested d => .nested (EntityDecl.mapSpans d)

/-- A body with other spans. -/
def mapSpansOfMembers : List Member → List Member
  | [] => []
  | m :: rest => Member.mapSpans m :: mapSpansOfMembers rest

end

theorem mapSpansOfMembers_eq (members : List Member) :
    mapSpansOfMembers σ members = members.map (Member.mapSpans σ) := by
  induction members with
  | nil => rfl
  | cons m rest ih => rw [mapSpansOfMembers, ih, List.map_cons]

theorem ClassDecl.mapSpans_eq (d : ClassDecl) : d.mapSpans σ =
    ⟨d.name, d.typeParams.map (TypeParam.mapSpans σ), d.superClass.map (NamedType.mapSpans σ),
      d.members.map (Member.mapSpans σ), σ d.nameSpan, σ d.span⟩ := by
  obtain ⟨name, typeParams, superClass, members, nameSpan, span⟩ := d
  rw [mapSpans, mapSpansOfMembers_eq]

theorem ModuleDecl.mapSpans_eq (d : ModuleDecl) : d.mapSpans σ =
    ⟨d.name, d.typeParams.map (TypeParam.mapSpans σ), d.selfTypes.map (NamedType.mapSpans σ),
      d.members.map (Member.mapSpans σ), σ d.nameSpan, σ d.span⟩ := by
  obtain ⟨name, typeParams, selfTypes, members, nameSpan, span⟩ := d
  rw [mapSpans, mapSpansOfMembers_eq]

theorem InterfaceDecl.mapSpans_eq (d : InterfaceDecl) : d.mapSpans σ =
    ⟨d.name, d.typeParams.map (TypeParam.mapSpans σ), d.members.map (Member.mapSpans σ),
      σ d.nameSpan, σ d.span⟩ := by
  obtain ⟨name, typeParams, members, nameSpan, span⟩ := d
  rw [mapSpans, mapSpansOfMembers_eq]

/-- A declaration at the top level of a file with other spans. -/
def Declaration.mapSpans : Declaration → Declaration
  | .entity d => .entity (d.mapSpans σ)
  | .global d => .global (d.mapSpans σ)

end RubySig
