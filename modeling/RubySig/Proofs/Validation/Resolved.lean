import RubySig.Proofs.Resolution.Absolutization
import RubySig.Proofs.Substitution.Variables
import RubySig.Validation

/-!
# Resolved types

A type is resolved in an environment if each of its names is the absolute name of a declared entity
that fits what it is used as.  Types that are written without a finding are resolved once their
names are looked up, and a substitution by resolved types keeps them so.

* `TypeExpr.NodeResolvedIn`, `TypeExpr.ResolvedIn`: one node, and all nodes of a type.
* `Environment.resolvedIn_absolutize`: references without findings resolve.
* `Substitution.ResolvedIn.apply`, `Substitution.ResolvedIn.applyMethod`,
  `Substitution.ResolvedIn.compose`: what substitutions keep.
-/

namespace RubySig

/-! ## The property -/

/-- A node that is a name is the absolute name of a declared entity of a kind that fits its
spelling, with as many arguments as the entity has type parameters.  The operand of `singleton` is
the absolute name of a declared class or module. -/
def TypeExpr.NodeResolvedIn (env : Environment) : TypeExpr → Prop
  | .named target => target.name.isAbsolute ∧ ∃ e, env.get? target.name = some e ∧
      e.kind.accepts target.name.kind ∧ target.args.length = e.typeParams.length
  | .singleton target => target.name.isAbsolute ∧ ∃ e, env.get? target.name = some e ∧
      e.kind.isNamespace
  | _ => True

/-- All nodes of a type are resolved. -/
def TypeExpr.ResolvedIn (env : Environment) (t : TypeExpr) : Prop :=
  ∀ n ∈ t.nodes, n.NodeResolvedIn env

/-- All nodes of an overload are resolved. -/
def MethodType.ResolvedIn (env : Environment) (m : MethodType) : Prop :=
  ∀ n ∈ m.nodes, n.NodeResolvedIn env

/-- All types that the parameters stand for are resolved. -/
def Substitution.ResolvedIn (env : Environment) (s : Substitution) : Prop :=
  ∀ t ∈ s.values, t.ResolvedIn env

variable {env : Environment}

theorem TypeExpr.resolvedIn_iff {t : TypeExpr} :
    t.ResolvedIn env ↔ t.NodeResolvedIn env ∧ ∀ c ∈ t.children, c.ResolvedIn env := by
  unfold TypeExpr.ResolvedIn
  rw [TypeExpr.nodes_eq, List.forall_mem_cons, List.forall_mem_flatMap]

theorem MethodType.resolvedIn_iff {m : MethodType} :
    m.ResolvedIn env ↔ ∀ t ∈ m.types, t.ResolvedIn env := by
  unfold MethodType.ResolvedIn
  rw [MethodType.nodes_eq, List.forall_mem_flatMap]
  rfl

/-- Other children leave the name of a node and the number of its arguments. -/
theorem TypeExpr.nodeResolvedIn_mapChildren (g : TypeExpr → TypeExpr) (t : TypeExpr) :
    (t.mapChildren g).NodeResolvedIn env ↔ t.NodeResolvedIn env := by
  cases t with
  | named target => simp [TypeExpr.mapChildren, TypeExpr.NodeResolvedIn]
  | _ => rfl

theorem TypeExpr.resolvedIn_var (v : String) : (TypeExpr.var v).ResolvedIn env :=
  TypeExpr.resolvedIn_iff.2 ⟨trivial, fun _ hc => absurd hc List.not_mem_nil⟩

theorem TypeExpr.resolvedIn_untyped : TypeExpr.untyped.ResolvedIn env :=
  TypeExpr.resolvedIn_iff.2 ⟨trivial, fun _ hc => absurd hc List.not_mem_nil⟩

/-! ## Looking up names -/

namespace Environment

theorem referencesFindings_append {nesting : Nesting} {xs ys : List Reference} :
    env.referencesFindings nesting (xs ++ ys) = [] ↔
      env.referencesFindings nesting xs = [] ∧ env.referencesFindings nesting ys = [] := by
  rw [referencesFindings, List.flatMap_append, List.append_eq_nil_iff]
  rfl

theorem referencesFindings_flatMap {α : Type} {nesting : Nesting} {xs : List α}
    {f : α → List Reference} :
    env.referencesFindings nesting (xs.flatMap f) = [] ↔
      ∀ x ∈ xs, env.referencesFindings nesting (f x) = [] := by
  rw [referencesFindings, List.flatMap_assoc, List.flatMap_eq_nil_iff]
  rfl

/-- Without a finding at a name the number of its arguments is right. -/
theorem length_args_of_arityFindings {found : TypeName} {target : NamedType} {e : Entry}
    (h : env.arityFindings found target = []) (he : env.get? found = some e) :
    target.args.length = e.typeParams.length := by
  unfold arityFindings paramsOf at h
  rw [he] at h
  by_contra hne
  have hcond : e.typeParams.length ≠ target.args.length := fun heq => hne heq.symm
  simp [hcond] at h

/-- A node whose own reference has no finding is resolved by looking up its name. -/
theorem nodeResolvedIn_absolutizeNode {nesting : Nesting} (hnesting : nesting.Anchored)
    {t : TypeExpr} (h : env.referencesFindings nesting t.reference?.toList = []) :
    (env.absolutizeNode nesting t).NodeResolvedIn env := by
  cases t with
  | named target =>
    obtain ⟨name, args, span⟩ := target
    have hfindings : env.referenceFindings nesting (.named ⟨name, args, span⟩) = [] := by
      simpa [TypeExpr.reference?, referencesFindings] using h
    rw [referenceFindings] at hfindings
    cases hresolve : env.resolve name nesting .asType with
    | error missing => simp [hresolve, unresolved] at hfindings
    | ok found =>
      rw [hresolve] at hfindings
      obtain ⟨e, he, haccepts⟩ := declared_of_resolve hresolve
      rw [absolutizeNode, resolve?_eq_some_iff.2 hresolve]
      exact ⟨isAbsolute_of_resolve hnesting hresolve, e, he, haccepts,
        length_args_of_arityFindings hfindings he⟩
  | singleton target =>
    obtain ⟨name, span⟩ := target
    have hfindings : env.referenceFindings nesting (.singleton ⟨name, span⟩) = [] := by
      simpa [TypeExpr.reference?, referencesFindings] using h
    rw [referenceFindings] at hfindings
    cases hresolve : env.resolve name nesting .asNamespace with
    | error missing => simp [hresolve, unresolved] at hfindings
    | ok found =>
      obtain ⟨e, he, haccepts⟩ := declared_of_resolve hresolve
      rw [absolutizeNode, resolve?_eq_some_iff.2 hresolve]
      exact ⟨isAbsolute_of_resolve hnesting hresolve, e, he, haccepts⟩
  | _ => trivial

/-- A type without findings is resolved by looking up its names. -/
theorem resolvedIn_absolutize {nesting : Nesting} (hnesting : nesting.Anchored) {t : TypeExpr}
    (h : env.referencesFindings nesting t.references = []) :
    (env.absolutize nesting t).ResolvedIn env := by
  induction t using TypeExpr.inductionOnChildren with
  | step t ih =>
    rw [TypeExpr.references_eq, referencesFindings_append, referencesFindings_flatMap] at h
    obtain ⟨hnode, hchildren⟩ := h
    rw [absolutize_eq, TypeExpr.resolvedIn_iff, TypeExpr.nodeResolvedIn_mapChildren,
      TypeExpr.children_mapChildren, children_absolutizeNode, List.forall_mem_map]
    exact ⟨nodeResolvedIn_absolutizeNode hnesting hnode,
      fun c hc => ih c hc (hchildren c hc)⟩

theorem resolvedIn_absolutizeMethod {nesting : Nesting} (hnesting : nesting.Anchored)
    {m : MethodType} (h : env.referencesFindings nesting m.references = []) :
    (env.absolutizeMethod nesting m).ResolvedIn env := by
  rw [MethodType.references_eq, referencesFindings_flatMap] at h
  rw [absolutizeMethod, MethodType.resolvedIn_iff, MethodType.types_map, List.forall_mem_map]
  intro t ht
  exact resolvedIn_absolutize hnesting (h t ht)

end Environment

/-! ## Substitutions -/

namespace Substitution

variable {s : Substitution}

theorem ResolvedIn.image (h : s.ResolvedIn env) (v : String) : (s.image v).ResolvedIn env := by
  rw [Substitution.image]
  cases ht : s.get? v with
  | none => exact TypeExpr.resolvedIn_var v
  | some t => exact h t (OrderedMap.mem_values_of_get? ht)

/-- Resolved types in a resolved type leave it resolved. -/
theorem ResolvedIn.apply (h : s.ResolvedIn env) {t : TypeExpr} (ht : t.ResolvedIn env) :
    (s.apply t).ResolvedIn env := by
  induction t using TypeExpr.inductionOnChildren with
  | step t ih =>
    cases hv : t.varName? with
    | some v =>
      rw [TypeExpr.eq_var_of_varName? hv, apply_var]
      exact h.image v
    | none =>
      obtain ⟨hnode, hchildren⟩ := TypeExpr.resolvedIn_iff.1 ht
      rw [s.apply_of_varName?_eq_none hv, TypeExpr.resolvedIn_iff, TypeExpr.children_mapChildren,
        List.forall_mem_map]
      constructor
      · rw [TypeExpr.nodeResolvedIn_mapChildren]
        exact hnode
      · intro c hc
        exact ih c hc (hchildren c hc)

theorem ResolvedIn.without (h : s.ResolvedIn env) (names : List String) :
    (s.without names).ResolvedIn env := by
  intro t ht
  obtain ⟨p, hp, rfl⟩ := List.mem_map.1 ht
  exact h _ (List.mem_map_of_mem (List.mem_of_mem_filter hp))

theorem ResolvedIn.applyMethod (h : s.ResolvedIn env) {m : MethodType} (hm : m.ResolvedIn env) :
    (s.applyMethod m).ResolvedIn env := by
  rw [MethodType.resolvedIn_iff] at hm ⊢
  rw [types_applyMethod, List.forall_mem_map]
  intro t ht
  exact (h.without _).apply (hm t ht)

theorem ResolvedIn.compose (h : s.ResolvedIn env) {inner : Substitution}
    (hinner : inner.ResolvedIn env) : (s.compose inner).ResolvedIn env := by
  intro t ht
  obtain ⟨p, hp, rfl⟩ := List.mem_map.1 ht
  obtain ⟨q, hq, rfl⟩ := List.mem_map.1 hp
  exact h.apply (hinner _ (List.mem_map_of_mem hq))

theorem resolvedIn_empty : empty.ResolvedIn env := fun _ ht => absurd ht List.not_mem_nil

/-- The values of a substitution are among those of the list that it is made from. -/
theorem resolvedIn_ofList {bindings : List (String × TypeExpr)}
    (h : ∀ p ∈ bindings, p.2.ResolvedIn env) : (ofList bindings).ResolvedIn env := by
  intro t ht
  obtain ⟨p, hp, rfl⟩ := List.mem_map.1 ht
  exact h p (OrderedMap.mem_pairs_ofList hp)

theorem resolvedIn_identity (params : List String) : (identity params).ResolvedIn env := by
  refine resolvedIn_ofList fun p hp => ?_
  obtain ⟨v, -, rfl⟩ := List.mem_map.1 hp
  exact TypeExpr.resolvedIn_var v

theorem resolvedIn_bind (params : List String) {args : List TypeExpr}
    (h : ∀ a ∈ args, a.ResolvedIn env) : (bind params args).ResolvedIn env := by
  refine resolvedIn_ofList ?_
  induction params generalizing args with
  | nil => exact fun _ hp => absurd hp List.not_mem_nil
  | cons v params ih =>
    cases args with
    | nil => exact List.forall_mem_cons.2 ⟨TypeExpr.resolvedIn_untyped, ih h⟩
    | cons a args =>
      obtain ⟨ha, hargs⟩ := List.forall_mem_cons.1 h
      exact List.forall_mem_cons.2 ⟨ha, ih hargs⟩

theorem ResolvedIn.rebind (h : s.ResolvedIn env) (names : List String) :
    (s.rebind names).ResolvedIn env :=
  resolvedIn_ofList fun _ hp => h _ (List.of_mem_zip hp).2

end Substitution

theorem resolvedIn_renameParams (canonical : List String) (params : List TypeParam) :
    (renameParams canonical params).ResolvedIn env := by
  unfold renameParams
  split
  · exact Substitution.resolvedIn_empty
  · exact (Substitution.resolvedIn_identity canonical).rebind _

end RubySig
