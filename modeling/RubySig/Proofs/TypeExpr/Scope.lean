import RubySig.Declaration
import RubySig.Proofs.Substitution.Variables

/-!
# Types in a scope

A type is in the scope of some type parameters if all its variables are among them.  An overload
adds its own type parameters to the scope of its types.

* `TypeExpr.ScopedIn`, `MethodType.ScopedIn`, `Member.ScopedIn`, `EntityDecl.ScopedIn`: the property
  for a type, an overload, the element of a body and a declaration without those nested in it.
* `TypeExpr.scopedIn_iff`: a type is in a scope if its node and its children are.
* `TypeExpr.ScopedIn.map`, `MethodType.ScopedIn.map`, `Member.ScopedIn.mapTypes`: what keeps single
  nodes in a scope keeps whole types, overloads and members in it.
* `EntityDecl.freeVars`, `EntityDecl.scopedIn_iff_freeVars`: the smallest scope of a declaration.
-/

namespace RubySig

/-! ## Types -/

/-- All variables of a type are in scope. -/
def TypeExpr.ScopedIn (scope : List String) (t : TypeExpr) : Prop := ∀ v ∈ t.vars, v ∈ scope

namespace TypeExpr

variable {scope wider : List String} {t : TypeExpr}

/-- A type is in a scope if it is no variable outside it and its children are in it. -/
theorem scopedIn_iff :
    t.ScopedIn scope ↔
      (∀ v, t.varName? = some v → v ∈ scope) ∧ ∀ c ∈ t.children, c.ScopedIn scope := by
  unfold ScopedIn
  rw [vars_eq, List.forall_mem_append, List.forall_mem_flatMap]
  simp

theorem scopedIn_of_children (hvar : t.varName? = none) (h : ∀ c ∈ t.children, c.ScopedIn scope) :
    t.ScopedIn scope := by
  refine scopedIn_iff.2 ⟨fun v hv => ?_, h⟩
  rw [hvar] at hv
  cases hv

theorem scopedIn_var {v : String} : (var v).ScopedIn scope ↔ v ∈ scope := by
  rw [ScopedIn, vars_var, List.forall_mem_singleton]

theorem scopedIn_literal (value : Literal) : (literal value).ScopedIn scope :=
  scopedIn_of_children rfl fun _ hc => absurd hc List.not_mem_nil

theorem scopedIn_special (type : SpecialType) : (special type).ScopedIn scope :=
  scopedIn_of_children rfl fun _ hc => absurd hc List.not_mem_nil

theorem scopedIn_singleton (target : SingletonType) : (singleton target).ScopedIn scope :=
  scopedIn_of_children rfl fun _ hc => absurd hc List.not_mem_nil

theorem ScopedIn.mono (h : t.ScopedIn scope) (hsub : scope ⊆ wider) : t.ScopedIn wider :=
  fun v hv => hsub (h v hv)

/-- A function that keeps every node in a scope keeps the whole type in it. -/
theorem ScopedIn.map {f : TypeExpr → TypeExpr}
    (hf : ∀ t, t.ScopedIn scope → (f t).ScopedIn scope) (h : t.ScopedIn scope) :
    (t.map f).ScopedIn scope := by
  induction t using inductionOnChildren with
  | step t ih =>
    obtain ⟨hvar, hchildren⟩ := scopedIn_iff.1 h
    rw [map_eq]
    refine hf _ (scopedIn_iff.2 ⟨fun v hv => ?_, ?_⟩)
    · rw [varName?_mapChildren] at hv
      exact hvar v hv
    · rw [children_mapChildren, List.forall_mem_map]
      exact fun c hc => ih c hc (hchildren c hc)

end TypeExpr

/-! ## Overloads -/

/-- All types of an overload are in a scope to which its own type parameters are added. -/
def MethodType.ScopedIn (scope : List String) (m : MethodType) : Prop :=
  ∀ t ∈ m.types, t.ScopedIn (typeParamNames m.typeParams ++ scope)

namespace MethodType

variable {scope wider : List String} {m : MethodType}

theorem ScopedIn.mem_of_mem_freeVars (h : m.ScopedIn scope) {v : String} (hv : v ∈ m.freeVars) :
    v ∈ scope := by
  have hown := notMem_typeParams_of_mem_freeVars hv
  obtain ⟨t, ht, hvt⟩ := List.mem_flatMap.1 (m.vars_eq ▸ (List.mem_filter.1 hv).1)
  exact (List.mem_append.1 (h t ht v hvt)).resolve_left hown

/-- An overload is in a scope if its free variables are. -/
theorem scopedIn_iff_freeVars : m.ScopedIn scope ↔ ∀ v ∈ m.freeVars, v ∈ scope := by
  refine ⟨fun h v hv => h.mem_of_mem_freeVars hv, fun h t ht v hv => ?_⟩
  by_cases hown : v ∈ typeParamNames m.typeParams
  · exact List.mem_append_left _ hown
  · have hvars : v ∈ m.vars := by
      rw [vars_eq]
      exact List.mem_flatMap.2 ⟨t, ht, hv⟩
    exact List.mem_append_right _ (h v (List.mem_filter.2 ⟨hvars, decide_eq_true hown⟩))

theorem ScopedIn.mono (h : m.ScopedIn scope) (hsub : scope ⊆ wider) : m.ScopedIn wider :=
  fun t ht => (h t ht).mono (List.append_subset.2
    ⟨List.subset_append_left _ _, fun _ hv => List.mem_append_right _ (hsub hv)⟩)

theorem ScopedIn.map {f : TypeExpr → TypeExpr}
    (hf : ∀ inner, scope ⊆ inner → ∀ t, t.ScopedIn inner → (f t).ScopedIn inner)
    (h : m.ScopedIn scope) : (m.map f).ScopedIn scope := by
  unfold ScopedIn
  rw [types_map, typeParamNames_map, List.forall_mem_map]
  exact fun t ht => (h t ht).map (hf _ (List.subset_append_right _ _))

end MethodType

/-! ## Members -/

/-- All types written in a member are in a scope.  A nested declaration has a scope of its own. -/
def Member.ScopedIn (scope : List String) : Member → Prop
  | .method m => ∀ o ∈ m.overloads, o.ScopedIn scope
  | .attr a => a.type.ScopedIn scope
  | .mixin m => ∀ a ∈ m.target.args, a.ScopedIn scope
  | .typedVar m => m.type.ScopedIn scope
  | .methodAlias _ | .marker _ | .nested _ => True

/-- The variables in a member that no overload declares. -/
def Member.freeVars : Member → List String
  | .method m => m.overloads.flatMap MethodType.freeVars
  | .attr a => a.type.vars
  | .mixin m => m.target.args.flatMap TypeExpr.vars
  | .typedVar m => m.type.vars
  | .methodAlias _ | .marker _ | .nested _ => []

theorem Member.scopedIn_iff_freeVars {scope : List String} {m : Member} :
    m.ScopedIn scope ↔ ∀ v ∈ m.freeVars, v ∈ scope := by
  cases m with
  | method m =>
    refine Iff.trans ?_ List.forall_mem_flatMap.symm
    exact forall₂_congr fun o _ => MethodType.scopedIn_iff_freeVars
  | mixin m => exact List.forall_mem_flatMap.symm
  | attr _ | typedVar _ => exact Iff.rfl
  | methodAlias _ | marker _ | nested _ =>
    exact iff_of_true trivial fun _ hv => absurd hv List.not_mem_nil

theorem NamedType.args_mapArgs (f : TypeExpr → TypeExpr) (t : NamedType) :
    (t.mapArgs f).args = t.args.map (TypeExpr.map f) := by
  obtain ⟨name, args, span⟩ := t
  rw [NamedType.mapArgs, NamedType.mapArgsM, mapTypesM_id]
  rfl

namespace Member

variable {scope wider : List String} {m : Member}

theorem ScopedIn.mono (h : m.ScopedIn scope) (hsub : scope ⊆ wider) : m.ScopedIn wider := by
  cases m with
  | method m => exact fun o ho => MethodType.ScopedIn.mono (h o ho) hsub
  | attr a => exact TypeExpr.ScopedIn.mono h hsub
  | mixin m => exact fun a ha => TypeExpr.ScopedIn.mono (h a ha) hsub
  | typedVar m => exact TypeExpr.ScopedIn.mono h hsub
  | methodAlias _ | marker _ | nested _ => trivial

theorem ScopedIn.mapTypes {f : TypeExpr → TypeExpr}
    (hf : ∀ inner, scope ⊆ inner → ∀ t, t.ScopedIn inner → (f t).ScopedIn inner)
    (h : m.ScopedIn scope) : (m.mapTypes f).ScopedIn scope := by
  have htype := hf scope fun _ hv => hv
  cases m with
  | method m => exact List.forall_mem_map.2 fun o ho => MethodType.ScopedIn.map hf (h o ho)
  | attr a => exact TypeExpr.ScopedIn.map htype h
  | mixin m =>
    show ∀ a ∈ (m.target.mapArgs f).args, _
    rw [NamedType.args_mapArgs]
    exact List.forall_mem_map.2 fun a ha => TypeExpr.ScopedIn.map htype (h a ha)
  | typedVar m => exact TypeExpr.ScopedIn.map htype h
  | methodAlias _ | marker _ | nested _ => trivial

end Member

/-! ## Declarations -/

/-- All types in the body of a declaration are in a scope, and so are the arguments of its
superclass. -/
structure EntityDecl.ScopedIn (scope : List String) (d : EntityDecl) : Prop where
  members : ∀ m ∈ d.members, m.ScopedIn scope
  superClass : ∀ s, d.superClass? = some s → ∀ a ∈ s.args, a.ScopedIn scope

/-- The variables in the body of a declaration and in the arguments of its superclass that no
overload declares. -/
def EntityDecl.freeVars (d : EntityDecl) : List String :=
  (d.superClass?.toList.flatMap fun s => s.args.flatMap TypeExpr.vars) ++
    d.members.flatMap Member.freeVars

/-- A declaration is in a scope if its free variables are. -/
theorem EntityDecl.scopedIn_iff_freeVars {scope : List String} {d : EntityDecl} :
    d.ScopedIn scope ↔ ∀ v ∈ d.freeVars, v ∈ scope := by
  rw [freeVars, List.forall_mem_append, List.forall_mem_flatMap, List.forall_mem_flatMap]
  constructor
  · rintro ⟨hmembers, hsuper⟩
    exact ⟨fun s hs => List.forall_mem_flatMap.2 (hsuper s (Option.mem_toList.1 hs)),
      fun m hm => Member.scopedIn_iff_freeVars.1 (hmembers m hm)⟩
  · rintro ⟨hsuper, hmembers⟩
    exact ⟨fun m hm => Member.scopedIn_iff_freeVars.2 (hmembers m hm),
      fun s hs => List.forall_mem_flatMap.1 (hsuper s (Option.mem_toList.2 hs))⟩

theorem EntityDecl.scopedIn_freeVars (d : EntityDecl) : d.ScopedIn d.freeVars :=
  scopedIn_iff_freeVars.2 fun _ hv => hv

theorem EntityDecl.ScopedIn.mono {scope wider : List String} {d : EntityDecl} (h : d.ScopedIn scope)
    (hsub : scope ⊆ wider) : d.ScopedIn wider :=
  ⟨fun m hm => (h.members m hm).mono hsub, fun s hs a ha => (h.superClass s hs a ha).mono hsub⟩

end RubySig
