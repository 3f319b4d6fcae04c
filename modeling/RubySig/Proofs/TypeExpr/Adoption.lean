import Mathlib.Data.List.Forall2
import RubySig.Environment.Merge
import RubySig.Proofs.TypeExpr.Params
import RubySig.Proofs.TypeExpr.Spans

/-!
# Names that are read as type parameters

A fragment without a parameter list is read in two steps: first its type parameters are names like
any others, then they become variables.  What it says, up to spans, is told here piece by piece.

* `Span.forget`: the change of spans that leaves nothing of them.
* `TypeExpr.adopted`, `MethodType.adopted`: types in which names were read as type parameters,
  without their spans.
* `TypeExpr.adopted_named` and its siblings: one equation for each kind of type.
* `NamedType.mapSpans`, `Member.own?`: names with arguments and members with other spans.
-/

namespace RubySig

/-- Every span is as good as any other. -/
def Span.forget (_ : Span) : Span := default

/-! ## Types -/

theorem keepsShape_adoptNode (params : List String) : KeepsShape (adoptNode params) := by
  intro g t
  cases t with
  | named target =>
    obtain ⟨name, args, span⟩ := target
    rw [TypeExpr.mapChildren, adoptNode, adoptNode, List.isEmpty_map]
    split <;> rfl
  | _ => rfl

/-- Without type parameters nothing is read as one. -/
theorem adoptNode_nil (t : TypeExpr) : adoptNode [] t = t := by
  cases t with
  | named target =>
    obtain ⟨name, args, span⟩ := target
    rw [adoptNode, if_neg]
    simp
  | _ => rfl

/-- Names are read as type parameters in the same places if spans are changed before. -/
theorem adoptNode_spanNode (params : List String) (σ : Span → Span) (t : TypeExpr) :
    adoptNode params (t.spanNode σ) = (adoptNode params t).spanNode σ := by
  cases t with
  | named target =>
    obtain ⟨name, args, span⟩ := target
    rw [TypeExpr.spanNode, adoptNode, adoptNode]
    split <;> rfl
  | _ => rfl

/-- A type in which bare names are read as type parameters, without its spans. -/
def TypeExpr.adopted (params : List String) (t : TypeExpr) : TypeExpr :=
  (t.map (adoptNode params)).mapSpans Span.forget

/-- An overload in which bare names are read as type parameters, without its spans. -/
def MethodType.adopted (params : List String) (m : MethodType) : MethodType :=
  (m.map (adoptNode params)).mapSpans Span.forget

namespace TypeExpr

variable (params : List String)

theorem adopted_eq (t : TypeExpr) : t.adopted params =
    spanNode Span.forget (adoptNode params (t.mapChildren (adopted params))) := by
  have hmap : adopted params =
      TypeExpr.map fun u => spanNode Span.forget (adoptNode params u) :=
    funext (map_map_of_keepsShape (keepsShape_adoptNode params) _)
  rw [hmap]
  exact map_eq _ t

/-- The one kind of type in which something is read as a type parameter. -/
theorem adopted_named (target : NamedType) : (named target).adopted params =
    if target.args.isEmpty && target.name.isBare && params.contains target.name.name then
      .var target.name.name
    else
      .named ⟨target.name, target.args.map (adopted params), default⟩ := by
  rw [adopted_eq, mapChildren, adoptNode, List.isEmpty_map]
  split <;> rfl

theorem adopted_singleton (target : SingletonType) :
    (singleton target).adopted params = .singleton ⟨target.name, default⟩ := by
  rw [adopted_eq]
  rfl

theorem adopted_var (name : String) : (var name).adopted params = .var name := by
  rw [adopted_eq]
  rfl

theorem adopted_union (types : List TypeExpr) :
    (union types).adopted params = .union (types.map (adopted params)) := by
  rw [adopted_eq]
  rfl

theorem adopted_intersection (types : List TypeExpr) :
    (intersection types).adopted params = .intersection (types.map (adopted params)) := by
  rw [adopted_eq]
  rfl

theorem adopted_optional (t : TypeExpr) :
    (optional t).adopted params = .optional (t.adopted params) := by
  rw [adopted_eq]
  rfl

theorem adopted_tuple (types : List TypeExpr) :
    (tuple types).adopted params = .tuple (types.map (adopted params)) := by
  rw [adopted_eq]
  rfl

theorem adopted_record (fields : List RecordField) :
    (record fields).adopted params =
      .record (fields.map fun f => ⟨f.key, f.type.adopted params⟩) := by
  rw [adopted_eq]
  rfl

theorem adopted_proc (function : FunctionType) (block : Option Block) :
    (proc function block).adopted params = .proc (function.mapTypes (adopted params))
      (block.map (·.mapTypes (adopted params))) := by
  rw [adopted_eq]
  rfl

theorem adopted_literal (value : Literal) : (literal value).adopted params = .literal value := by
  rw [adopted_eq]
  rfl

theorem adopted_special (type : SpecialType) : (special type).adopted params = .special type := by
  rw [adopted_eq]
  rfl

end TypeExpr

/-! ## Overloads -/

namespace MethodType

/-- A type parameter of an overload, with names read as type parameters in its bound, without its
spans. -/
def adoptedParam (params : List String) (p : TypeParam) : TypeParam :=
  { p with upperBound := p.upperBound.map (TypeExpr.adopted params), span := default }

theorem adopted_eq (params : List String) (m : MethodType) : m.adopted params =
    ⟨m.typeParams.map (adoptedParam params), m.function.mapTypes (TypeExpr.adopted params),
      m.block.map (·.mapTypes (TypeExpr.adopted params)), default⟩ := by
  rw [adopted, mapSpans, map_eq, map_eq, respan, FunctionType.mapTypes_mapTypes,
    mapBlock_mapBlock, List.map_map, List.map_map]
  refine congrArg (MethodType.mk · _ _ _) (List.map_congr_left fun p _ => ?_)
  obtain ⟨name, variance, unchecked, bound, span⟩ := p
  cases bound <;> rfl

end MethodType

/-! ## Members -/

/-- A name with other spans in it. -/
def NamedType.mapSpans (σ : Span → Span) (type : NamedType) : NamedType :=
  ⟨type.name, type.args.map (TypeExpr.mapSpans σ), σ type.span⟩

/-- A member with other spans, unless it is a nested declaration. -/
def Member.own? (σ : Span → Span) : Member → Option Member
  | .method m =>
    some (.method
      { m with overloads := m.overloads.map (MethodType.mapSpans σ), span := σ m.span })
  | .attr a => some (.attr { a with type := a.type.mapSpans σ, span := σ a.span })
  | .methodAlias a => some (.methodAlias { a with span := σ a.span })
  | .mixin m => some (.mixin { m with target := m.target.mapSpans σ, span := σ m.span })
  | .marker m => some (.marker { m with span := σ m.span })
  | .typedVar v => some (.typedVar { v with type := v.type.mapSpans σ, span := σ v.span })
  | .nested _ => none

/-- A name in whose arguments names are read as type parameters, without its spans. -/
def NamedType.adopted (params : List String) (type : NamedType) : NamedType :=
  (type.mapArgs (adoptNode params)).mapSpans Span.forget

/-- A member in which names are read as type parameters, without its spans, unless it is a nested
declaration. -/
def Member.adopted? (params : List String) (m : Member) : Option Member :=
  (m.mapTypes (adoptNode params)).own? Span.forget

theorem NamedType.adopted_eq (params : List String) (t : NamedType) :
    t.adopted params = ⟨t.name, t.args.map (TypeExpr.adopted params), default⟩ := by
  rw [adopted, mapSpans, mapArgs_eq, List.map_map]
  rfl

theorem NamedType.adopted_nil (t : NamedType) : t.adopted [] = t.mapSpans Span.forget := by
  rw [adopted, mapArgs_eq_self adoptNode_nil]

theorem Member.adopted?_method (params : List String) (m : MethodMember) :
    (Member.method m).adopted? params = some (.method
      { m with overloads := m.overloads.map (MethodType.adopted params), span := default }) := by
  rw [adopted?, mapTypes, own?, List.map_map]
  rfl

theorem Member.adopted?_nil (m : Member) : m.adopted? [] = m.own? Span.forget := by
  rw [adopted?, mapTypes_eq_self adoptNode_nil]

/-- Without parameters of the entity there is nothing to see. -/
theorem adoptDecl_nil (d : EntityDecl) : adoptDecl [] d = d := by
  have hmembers : ∀ ms : List Member, ms.map (·.mapTypes (adoptNode [])) = ms := fun ms => by
    rw [List.map_congr_left fun m _ => m.mapTypes_eq_self adoptNode_nil, List.map_id']
  have hargs : (fun t : NamedType => t.mapArgs (adoptNode [])) = id :=
    funext (NamedType.mapArgs_eq_self adoptNode_nil)
  cases d with
  | klass d =>
    obtain ⟨name, typeParams, superClass, members, nameSpan, span⟩ := d
    rw [adoptDecl, hmembers, hargs, Option.map_id]
    split <;> rfl
  | module d =>
    obtain ⟨name, typeParams, selfTypes, members, nameSpan, span⟩ := d
    rw [adoptDecl, hmembers, hargs, List.map_id]
    split <;> rfl
  | interface _ | typeAlias _ | constant _ => rfl

/-! ## Lists that correspond -/

theorem map_eq_iff_forall₂ {α β γ : Type} {f : α → γ} {g : β → γ} {as : List α} {bs : List β} :
    as.map f = bs.map g ↔ List.Forall₂ (fun a b => f a = g b) as bs := by
  rw [← List.forall₂_eq_eq_eq, List.forall₂_map_left_iff, List.forall₂_map_right_iff]

/-! ## In a second step -/

section Again

variable (params : List String)

theorem spanNode_adoptNode_spanNode (t : TypeExpr) :
    (adoptNode params (t.spanNode Span.forget)).spanNode Span.forget =
      (adoptNode params t).spanNode Span.forget := by
  rw [adoptNode_spanNode]
  cases adoptNode params t <;> rfl

/-- Names can be read as type parameters after the spans are gone. -/
theorem TypeExpr.adopted_adopted (t : TypeExpr) :
    (t.adopted []).adopted params = t.adopted params := by
  induction t using TypeExpr.inductionOnChildren with
  | step t ih =>
    rw [adopted_eq, adopted_eq [] t, adoptNode_nil, ← keepsShape_spanNode, mapChildren_mapChildren,
      spanNode_adoptNode_spanNode, adopted_eq params t, mapChildren_congr ih]

theorem TypeExpr.adopted_comp :
    TypeExpr.adopted params ∘ TypeExpr.adopted [] = TypeExpr.adopted params :=
  funext (TypeExpr.adopted_adopted params)

theorem MethodType.adopted_adopted (m : MethodType) :
    (m.adopted []).adopted params = m.adopted params := by
  have htypes : (fun t => (TypeExpr.adopted [] t).adopted params) = TypeExpr.adopted params :=
    TypeExpr.adopted_comp params
  rw [adopted_eq params (m.adopted []), adopted_eq [] m, adopted_eq params m,
    FunctionType.mapTypes_mapTypes, mapBlock_mapBlock, List.map_map, htypes]
  refine congrArg (MethodType.mk · _ _ _) (List.map_congr_left fun p _ => ?_)
  rw [Function.comp_apply, adoptedParam, adoptedParam, adoptedParam, Option.map_map,
    TypeExpr.adopted_comp]

theorem NamedType.adopted_adopted (t : NamedType) :
    (t.adopted []).adopted params = t.adopted params := by
  rw [adopted_eq params (t.adopted []), adopted_eq [] t, adopted_eq params t, List.map_map,
    TypeExpr.adopted_comp]

/-- What is read as a type parameter in a member does not depend on its spans. -/
theorem Member.adopted?_adopted? (m : Member) :
    (m.adopted? []).bind (Member.adopted? params) = m.adopted? params := by
  cases m with
  | method m =>
    have hoverloads : MethodType.adopted params ∘ MethodType.adopted [] =
        MethodType.adopted params := funext (MethodType.adopted_adopted params)
    rw [adopted?_method, Option.bind_some, adopted?_method, List.map_map, hoverloads,
      adopted?_method]
  | attr a =>
    exact congrArg (fun t => some (Member.attr { a with type := t, span := default }))
      (a.type.adopted_adopted params)
  | methodAlias a => rfl
  | mixin m =>
    exact congrArg (fun t => some (Member.mixin ⟨m.kind, t, default⟩))
      (m.target.adopted_adopted params)
  | marker m => rfl
  | typedVar v =>
    exact congrArg (fun t => some (Member.typedVar { v with type := t, span := default }))
      (v.type.adopted_adopted params)
  | nested d => rfl

end Again

end RubySig
