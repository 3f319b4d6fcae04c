import RubySig.Proofs.Resolution
import RubySig.Proofs.TypeExpr.Spans
import RubySig.Ancestry

/-!
# Renamed type parameters

A parameter list can be spelled with other names, if the variables in the types that it is for are
renamed with it.  Where the new names stand for what the old ones stood for, nothing changes.

* `TypeExpr.rename`, `MethodType.rename`: types and overloads with other variables; the type
  parameters of an overload keep their names.
* `Substitution.apply_rename`, `Substitution.applyMethod_rename`: a renaming before a substitution.
* `Environment.absolutize_rename`, `Environment.absolutizeMethod_rename`: names resolve as before.
* `respelling`, `Respells.image_respelling`: new names for those of a list, in order, and what the
  variables stand for in terms of the entity.
-/

namespace RubySig

/-! ## Other variables -/

/-- A node with another variable. -/
def TypeExpr.renameNode (rename : String → String) : TypeExpr → TypeExpr
  | .var v => .var (rename v)
  | type => type

/-- A type with other variables. -/
def TypeExpr.rename (rename : String → String) (type : TypeExpr) : TypeExpr :=
  type.map (renameNode rename)

/-- A renaming of all variables except some. -/
def renameOutside (own : List String) (rename : String → String) (v : String) : String :=
  if v ∈ own then v else rename v

/-- An overload with other variables.  Its own type parameters keep their names. -/
def MethodType.rename (rename : String → String) (method : MethodType) : MethodType :=
  method.map (TypeExpr.renameNode (renameOutside (typeParamNames method.typeParams) rename))

theorem keepsShape_renameNode (rename : String → String) :
    KeepsShape (TypeExpr.renameNode rename) := by
  intro g t
  cases t <;> rfl

theorem TypeExpr.rename_var (rename : String → String) (v : String) :
    (var v).rename rename = .var (rename v) := by
  rw [TypeExpr.rename, map_eq]
  rfl

theorem TypeExpr.rename_of_varName?_eq_none {rename : String → String} {t : TypeExpr}
    (h : t.varName? = none) : t.rename rename = t.mapChildren (TypeExpr.rename rename) := by
  rw [TypeExpr.rename, map_eq]
  cases t with
  | var v => cases h
  | _ => rfl

/-! ## Substitutions after a renaming -/

namespace Substitution

variable {s s' : Substitution} {rename : String → String}

/-- A substitution that does with the new variables what another one does with the old ones gives
the same types. -/
theorem apply_rename {t : TypeExpr} (h : ∀ v ∈ t.vars, s'.image (rename v) = s.image v) :
    s'.apply (t.rename rename) = s.apply t := by
  induction t using TypeExpr.inductionOnChildren with
  | step t ih =>
    cases ht : t.varName? with
    | some v =>
      obtain rfl := TypeExpr.eq_var_of_varName? ht
      rw [TypeExpr.rename_var, apply_var, apply_var]
      exact h v (List.mem_singleton_self v)
    | none =>
      have hrenamed : (t.mapChildren (TypeExpr.rename rename)).varName? = none := by
        rw [TypeExpr.varName?_mapChildren, ht]
      rw [TypeExpr.rename_of_varName?_eq_none ht, s'.apply_of_varName?_eq_none hrenamed,
        s.apply_of_varName?_eq_none ht, TypeExpr.mapChildren_mapChildren]
      refine TypeExpr.mapChildren_congr fun c hc => ih c hc fun v hv => h v ?_
      rw [TypeExpr.vars_eq_of_varName?_eq_none ht]
      exact List.mem_flatMap.2 ⟨c, hc, hv⟩

/-- The same for overloads, if no new variable is one of the overload's own type parameters. -/
theorem applyMethod_rename {m : MethodType}
    (h : ∀ v ∈ m.freeVars, s'.image (rename v) = s.image v)
    (hfresh : ∀ v ∈ m.freeVars, rename v ∉ typeParamNames m.typeParams) :
    s'.applyMethod (m.rename rename) = s.applyMethod m := by
  rw [applyMethod_eq, applyMethod_eq, MethodType.rename, MethodType.typeParamNames_map]
  refine MethodType.map_map fun t ht => ?_
  rw [← apply_eq, ← apply_eq]
  refine apply_rename fun v hv => ?_
  rw [renameOutside, image_without, image_without]
  by_cases hown : v ∈ typeParamNames m.typeParams
  · rw [if_pos hown, if_pos hown, if_pos hown]
  · have hvars : v ∈ m.vars := by
      rw [MethodType.vars_eq]
      exact List.mem_flatMap.2 ⟨t, ht, hv⟩
    have hfree : v ∈ m.freeVars := List.mem_filter.2 ⟨hvars, decide_eq_true hown⟩
    rw [if_neg hown, if_neg hown, if_neg (hfresh v hfree), h v hfree]

end Substitution

/-! ## Resolution after a renaming -/

namespace Environment

variable (env : Environment) (nesting : Nesting)

theorem keepsShape_absolutizeNode : KeepsShape (env.absolutizeNode nesting) := by
  intro g t
  cases t with
  | named target => obtain ⟨_, _, _⟩ := target; rfl
  | singleton target => obtain ⟨_, _⟩ := target; rfl
  | _ => rfl

/-- Variables are no names that could resolve to something. -/
theorem map_renameNode_absolutizeNode (rename : String → String) (t : TypeExpr) :
    (t.map (TypeExpr.renameNode rename)).map (env.absolutizeNode nesting) =
      (t.map (env.absolutizeNode nesting)).map (TypeExpr.renameNode rename) := by
  rw [TypeExpr.map_map_of_keepsShape (keepsShape_renameNode rename),
    TypeExpr.map_map_of_keepsShape (env.keepsShape_absolutizeNode nesting)]
  refine congrArg (TypeExpr.map · t) (funext fun u => ?_)
  cases u with
  | named target => obtain ⟨_, _, _⟩ := target; rfl
  | singleton target => obtain ⟨_, _⟩ := target; rfl
  | _ => rfl

theorem absolutize_rename (rename : String → String) (t : TypeExpr) :
    env.absolutize nesting (t.rename rename) = (env.absolutize nesting t).rename rename :=
  env.map_renameNode_absolutizeNode nesting rename t

theorem absolutizeMethod_rename (rename : String → String) (m : MethodType) :
    env.absolutizeMethod nesting (m.rename rename) =
      (env.absolutizeMethod nesting m).rename rename := by
  rw [absolutizeMethod, absolutizeMethod, MethodType.rename, MethodType.rename,
    MethodType.typeParamNames_map]
  exact MethodType.map_map_congr fun t _ => env.map_renameNode_absolutizeNode nesting _ t

end Environment

/-! ## Other names for a parameter list -/

/-- New names for those of a list, in order.  All other names are kept. -/
def respelling (old new : List String) (v : String) : String :=
  (OrderedMap.lookupIn v (old.zip new)).getD v

section Respelling

variable {old new : List String} {v : String}

theorem respelling_cons_self (old new : List String) (v w : String) :
    respelling (v :: old) (w :: new) v = w := by
  rw [respelling, List.zip_cons_cons, OrderedMap.lookupIn, if_pos rfl, Option.getD_some]

theorem respelling_cons_of_ne {o : String} (h : o ≠ v) (old new : List String) (w : String) :
    respelling (o :: old) (w :: new) v = respelling old new v := by
  rw [respelling, List.zip_cons_cons, OrderedMap.lookupIn, if_neg h, respelling]

/-- A name that is not in the list is kept. -/
theorem respelling_of_notMem (hv : v ∉ old) : respelling old new v = v := by
  induction old generalizing new with
  | nil => rfl
  | cons o old ih =>
    obtain ⟨ho, hold⟩ := not_or.1 (mt List.mem_cons.2 hv)
    cases new with
    | nil => rfl
    | cons w new => rw [respelling_cons_of_ne (Ne.symm ho), ih hold]

/-- A name of the list gets a new name. -/
theorem respelling_mem (hlength : new.length = old.length) (hv : v ∈ old) :
    respelling old new v ∈ new := by
  induction old generalizing new with
  | nil => exact absurd hv List.not_mem_nil
  | cons o old ih =>
    cases new with
    | nil => cases hlength
    | cons w new =>
      by_cases ho : o = v
      · subst ho
        rw [respelling_cons_self]
        exact List.mem_cons_self
      · rw [respelling_cons_of_ne ho]
        exact List.mem_cons_of_mem _ (ih (Nat.succ.inj hlength)
          ((List.mem_cons.1 hv).resolve_left (Ne.symm ho)))

/-- In lists of pairs with the same right sides a new name finds what the old one finds. -/
theorem exists_lookupIn_respelling {α : Type} (hnew : new.Nodup) (hlength : new.length = old.length)
    {values : List α} (hvalues : values.length = old.length) (hv : v ∈ old) :
    ∃ x, OrderedMap.lookupIn (respelling old new v) (new.zip values) = some x ∧
      OrderedMap.lookupIn v (old.zip values) = some x := by
  induction old generalizing new values with
  | nil => exact absurd hv List.not_mem_nil
  | cons o old ih =>
    cases new with
    | nil => cases hlength
    | cons w new =>
      cases values with
      | nil => cases hvalues
      | cons x values =>
        rw [List.zip_cons_cons, List.zip_cons_cons, OrderedMap.lookupIn, OrderedMap.lookupIn]
        by_cases ho : o = v
        · subst ho
          rw [respelling_cons_self, if_pos rfl, if_pos rfl]
          exact ⟨x, rfl, rfl⟩
        · obtain ⟨hw, hrest⟩ := List.nodup_cons.1 hnew
          have hold : v ∈ old := (List.mem_cons.1 hv).resolve_left (Ne.symm ho)
          have hmem : respelling old new v ∈ new := respelling_mem (Nat.succ.inj hlength) hold
          rw [respelling_cons_of_ne ho, if_neg ho, if_neg fun h : w = _ => hw (h ▸ hmem)]
          exact ih hrest (Nat.succ.inj hlength) (Nat.succ.inj hvalues) hold

end Respelling

/-- A parameter list of a fragment and another spelling of it, for an entity with the given type
parameters. -/
structure Respells (canonical : List String) (params params' : List TypeParam) : Prop where
  nodup_canonical : canonical.Nodup
  nodup_old : (typeParamNames params).Nodup
  nodup_new : (typeParamNames params').Nodup
  arity : params.length = canonical.length
  length : params'.length = params.length

/-- The type parameters of a fragment stand for those of the entity, one by one. -/
theorem bindings_renameParams {canonical : List String} {params : List TypeParam}
    (hcanonical : canonical.Nodup) (hparams : (typeParamNames params).Nodup)
    (hlength : params.length = canonical.length) (hne : params ≠ []) :
    (renameParams canonical params).bindings =
      ⟨(typeParamNames params).zip (canonical.map TypeExpr.var)⟩ := by
  have hfst : ((typeParamNames params).zip (canonical.map TypeExpr.var)).map (·.1) =
      typeParamNames params := by
    refine List.map_fst_zip (Nat.le_of_eq ?_)
    rw [typeParamNames, List.length_map, List.length_map, hlength]
  rw [renameParams, if_neg fun h => hne (List.isEmpty_iff.1 h), Substitution.rebind,
    Substitution.values_identity hcanonical]
  refine OrderedMap.ofList_of_nodup ?_
  rwa [hfst]

/-- A variable that is no type parameter of the fragment stands for itself. -/
theorem image_renameParams_of_notMem (canonical : List String) {params : List TypeParam}
    {v : String} (hv : v ∉ typeParamNames params) :
    (renameParams canonical params).image v = .var v := by
  refine Substitution.image_of_notMem_names fun hbound => ?_
  rw [renameParams] at hbound
  split at hbound
  · exact absurd hbound List.not_mem_nil
  · rw [Substitution.rebind, Substitution.mem_names_ofList] at hbound
    obtain ⟨p, hp, rfl⟩ := List.mem_map.1 hbound
    exact hv (List.of_mem_zip hp).1

namespace Respells

variable {canonical : List String} {params params' : List TypeParam}
  (h : Respells canonical params params') {v : String}
include h

theorem length_names :
    (typeParamNames params').length = (typeParamNames params).length := by
  rw [typeParamNames, typeParamNames, List.length_map, List.length_map, h.length]

/-- In terms of the entity a new name stands for what the old one stood for. -/
theorem image_respelling_of_mem (hv : v ∈ typeParamNames params) :
    (renameParams canonical params').image
        (respelling (typeParamNames params) (typeParamNames params') v) =
      (renameParams canonical params).image v := by
  have hne : params ≠ [] := fun hnil => by
    rw [hnil] at hv
    exact absurd hv List.not_mem_nil
  have hne' : params' ≠ [] := fun hnil => by
    have hlength := h.length
    rw [hnil] at hlength
    exact hne (List.length_eq_zero_iff.1 hlength.symm)
  have hvalues : (canonical.map TypeExpr.var).length = (typeParamNames params).length := by
    rw [typeParamNames, List.length_map, List.length_map, h.arity]
  obtain ⟨x, hx', hx⟩ := exists_lookupIn_respelling h.nodup_new h.length_names hvalues hv
  rw [Substitution.image, Substitution.image, Substitution.get?, Substitution.get?,
    bindings_renameParams h.nodup_canonical h.nodup_old h.arity hne,
    bindings_renameParams h.nodup_canonical h.nodup_new (h.length.trans h.arity) hne']
  show (OrderedMap.lookupIn _ _).getD _ = (OrderedMap.lookupIn _ _).getD _
  rw [hx, hx', Option.getD_some, Option.getD_some]

/-- A variable means the same in the other spelling, if it does not become a type parameter by
it. -/
theorem image_respelling (hv : v ∈ typeParamNames params ∨ v ∉ typeParamNames params') :
    (renameParams canonical params').image
        (respelling (typeParamNames params) (typeParamNames params') v) =
      (renameParams canonical params).image v := by
  by_cases hold : v ∈ typeParamNames params
  · exact h.image_respelling_of_mem hold
  · rw [respelling_of_notMem hold, image_renameParams_of_notMem canonical hold,
      image_renameParams_of_notMem canonical (hv.resolve_left hold)]

/-- The other spelling puts no variable under names that are not in the new list. -/
theorem respelling_notMem {own : List String} (hv : v ∉ own)
    (hfresh : ∀ w ∈ typeParamNames params', w ∉ own) :
    respelling (typeParamNames params) (typeParamNames params') v ∉ own := by
  by_cases hold : v ∈ typeParamNames params
  · exact hfresh _ (respelling_mem h.length_names hold)
  · rwa [respelling_of_notMem hold]

end Respells

end RubySig
