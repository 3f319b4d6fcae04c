import RubySig.Ancestry
import RubySig.Proofs.OrderedMap
import RubySig.Proofs.Substitution.Variables

/-!
# Two substitutions in a row

`compose` makes one substitution of two, but it only knows the parameters of the inner one: a
variable that the inner substitution does not bind stays, although the outer one may bind it.  So
the composition law needs that all variables are bound by the inner substitution.

* `Substitution.apply_apply`: two substitutions in a row are a third one if they are on the
  variables of the type.
* `Substitution.applyMethod_applyMethod`: the same for an overload and its free variables.
* `Substitution.applyMethod_compose`: the composition law for overloads.
* `Substitution.image_renameParams`: the type parameters of a fragment as those of the entity.
-/

namespace RubySig

/-! ## Rebuilding twice -/

theorem FunctionType.mapTypes_mapTypes (f g : TypeExpr → TypeExpr) (function : FunctionType) :
    (function.mapTypes f).mapTypes g = function.mapTypes fun t => g (f t) := by
  simp [FunctionType.mapTypes, Function.comp_def]

theorem mapBlock_mapBlock (f g : TypeExpr → TypeExpr) (block : Option Block) :
    (block.map (·.mapTypes f)).map (·.mapTypes g) = block.map (·.mapTypes fun t => g (f t)) := by
  cases block with
  | none => rfl
  | some b => simp [Block.mapTypes, FunctionType.mapTypes_mapTypes]

theorem TypeExpr.mapChildren_mapChildren (f g : TypeExpr → TypeExpr) (t : TypeExpr) :
    (t.mapChildren f).mapChildren g = t.mapChildren fun c => g (f c) := by
  cases t with
  | proc function block =>
    simp only [mapChildren, FunctionType.mapTypes_mapTypes, mapBlock_mapBlock]
  | _ => simp [mapChildren, Function.comp_def]

/-- Overloads that are rebuilt twice are the same if each of their types is. -/
theorem MethodType.map_map_congr {f g f' g' : TypeExpr → TypeExpr} {m : MethodType}
    (htypes : ∀ t ∈ m.types, (t.map f).map g = (t.map f').map g') :
    (m.map f).map g = (m.map f').map g' := by
  simp only [types, List.mem_append, List.mem_filterMap, or_assoc] at htypes
  have hfunction : m.function.mapTypes (fun t => (t.map f).map g) =
      m.function.mapTypes (fun t => (t.map f').map g') :=
    FunctionType.mapTypes_congr fun t ht => htypes t (Or.inr (Or.inl ht))
  have hblock : m.block.map (·.mapTypes fun t => (t.map f).map g) =
      m.block.map (·.mapTypes fun t => (t.map f').map g') :=
    mapBlock_congr fun t ht => htypes t (Or.inr (Or.inr ht))
  have hparams : ∀ p ∈ m.typeParams,
      (p.upperBound.map (TypeExpr.map f)).map (TypeExpr.map g) =
        (p.upperBound.map (TypeExpr.map f')).map (TypeExpr.map g') := by
    intro p hp
    cases hbound : p.upperBound with
    | none => rfl
    | some t => exact congrArg some (htypes t (Or.inl ⟨p, hp, hbound⟩))
  rw [map_eq, map_eq f, map_eq, map_eq f', FunctionType.mapTypes_mapTypes,
    FunctionType.mapTypes_mapTypes, mapBlock_mapBlock, mapBlock_mapBlock, hfunction, hblock,
    List.map_map, List.map_map]
  refine congrArg (MethodType.mk · _ _ _) (List.map_congr_left fun p hp => ?_)
  rw [Function.comp_apply, Function.comp_apply, hparams p hp]

/-- An overload that is rebuilt twice is rebuilt once, if each of its types is. -/
theorem MethodType.map_map {f g h : TypeExpr → TypeExpr} {m : MethodType}
    (htypes : ∀ t ∈ m.types, (t.map f).map g = t.map h) : (m.map f).map g = m.map h := by
  have hsame : ∀ t ∈ m.types, (t.map f).map g = (t.map h).map fun u => u := fun t ht => by
    rw [htypes t ht, TypeExpr.map_eq_self fun _ => rfl]
  rw [map_map_congr hsame, map_eq_self fun _ => rfl]

/-! ## Two substitutions in a row -/

namespace Substitution

variable {s t r : Substitution}

/-- Two substitutions in a row are a third one, if they are on each variable. -/
theorem apply_apply {x : TypeExpr} (h : ∀ v ∈ x.vars, s.apply (t.image v) = r.image v) :
    s.apply (t.apply x) = r.apply x := by
  induction x using TypeExpr.inductionOnChildren with
  | step x ih =>
    cases hx : x.varName? with
    | some v =>
      obtain rfl := TypeExpr.eq_var_of_varName? hx
      rw [apply_var, apply_var]
      exact h v (List.mem_singleton_self v)
    | none =>
      have hmapped : (x.mapChildren t.apply).varName? = none := by
        rw [TypeExpr.varName?_mapChildren, hx]
      rw [t.apply_of_varName?_eq_none hx, s.apply_of_varName?_eq_none hmapped,
        r.apply_of_varName?_eq_none hx, TypeExpr.mapChildren_mapChildren]
      refine TypeExpr.mapChildren_congr fun c hc => ih c hc fun v hv => h v ?_
      rw [TypeExpr.vars_eq_of_varName?_eq_none hx]
      exact List.mem_flatMap.2 ⟨c, hc, hv⟩

/-- Substitutions that agree on the variables of a type give the same type. -/
theorem apply_congr {x : TypeExpr} (h : ∀ v ∈ x.vars, s.image v = r.image v) :
    s.apply x = r.apply x := by
  have hempty : s.apply ((empty : Substitution).apply x) = r.apply x :=
    apply_apply fun v hv => (s.apply_var v).trans (h v hv)
  exact hempty

theorem image_of_notMem_names {v : String} (h : v ∉ s.names) : s.image v = .var v := by
  have hnone : s.get? v = none :=
    Option.eq_none_iff_forall_ne_some.2 fun _ hget => h (OrderedMap.mem_keys_of_get? hget)
  rw [image, hnone, Option.getD_none]

theorem names_compose (s t : Substitution) : (s.compose t).names = t.names := by
  rw [names, compose, OrderedMap.keys, OrderedMap.mapValues, List.map_map]
  rfl

/-- A variable that the inner substitution binds gives way to its value, to which the outer one is
applied. -/
theorem image_compose {v : String} (h : v ∈ t.names) :
    (s.compose t).image v = s.apply (t.image v) := by
  obtain ⟨u, hu⟩ := OrderedMap.exists_get?_of_mem_keys h
  have hcompose : (s.compose t).get? v = some (s.apply u) := by
    rw [get?, compose, OrderedMap.get?_mapValues, hu]
    rfl
  have hget : t.get? v = some u := hu
  rw [image, hcompose, image, hget]
  rfl

/-- Parameters that are not bound can be left out. -/
theorem apply_without {names : List String} (h : ∀ v ∈ names, v ∉ s.names) (x : TypeExpr) :
    (s.without names).apply x = s.apply x := by
  refine apply_congr fun v _ => ?_
  rw [image_without]
  split
  · exact (image_of_notMem_names (h v ‹_›)).symm
  · rfl

/-- Two substitutions in an overload are a third one, if they are on each free variable. -/
theorem applyMethod_applyMethod {m : MethodType}
    (h : ∀ v ∈ m.freeVars,
      (s.without (typeParamNames m.typeParams)).apply (t.image v) = r.image v) :
    s.applyMethod (t.applyMethod m) = r.applyMethod m := by
  rw [applyMethod_eq, typeParamNames_applyMethod, applyMethod_eq, applyMethod_eq]
  refine MethodType.map_map fun x hx => ?_
  rw [← apply_eq, ← apply_eq, ← apply_eq]
  refine apply_apply fun v hv => ?_
  rw [image_without, image_without]
  split
  · rename_i hown
    rw [apply_var, image_without, if_pos hown]
  · rename_i hown
    have hvars : v ∈ m.vars := by
      rw [MethodType.vars_eq]
      exact List.mem_flatMap.2 ⟨x, hx, hv⟩
    exact h v (List.mem_filter.2 ⟨hvars, decide_eq_true hown⟩)

/-- The composition law for overloads: the inner substitution binds all free variables, and the
outer one none of the overload's own type parameters. -/
theorem applyMethod_compose {m : MethodType} (hfree : ∀ v ∈ m.freeVars, v ∈ t.names)
    (hown : ∀ v ∈ typeParamNames m.typeParams, v ∉ s.names) :
    (s.compose t).applyMethod m = s.applyMethod (t.applyMethod m) := by
  refine (applyMethod_applyMethod fun v hv => ?_).symm
  rw [apply_without hown, image_compose (hfree v hv)]

/-! ## Substitutions that change nothing -/

/-- Where every variable stands for itself, nothing is replaced. -/
theorem applyNode_of_image (h : ∀ v, s.image v = .var v) (t : TypeExpr) : s.applyNode t = t := by
  cases t with
  | var v => exact h v
  | _ => rfl

theorem apply_of_image (h : ∀ v, s.image v = .var v) (t : TypeExpr) : s.apply t = t := by
  rw [apply_eq, TypeExpr.map_eq_self (applyNode_of_image h)]

theorem applyMethod_of_image (h : ∀ v, s.image v = .var v) (m : MethodType) :
    s.applyMethod m = m := by
  rw [applyMethod_eq, MethodType.map_eq_self]
  refine applyNode_of_image fun v => ?_
  rw [image_without, h]
  split <;> rfl

theorem image_identity (params : List String) (v : String) :
    (identity params).image v = .var v := by
  rw [image, get?]
  cases hget : (identity params).bindings.get? v with
  | none => rfl
  | some t =>
    obtain ⟨p, -, hp⟩ := List.mem_map.1 (OrderedMap.mem_pairs_ofList
      (OrderedMap.mem_pairs_of_get? hget))
    obtain ⟨rfl, rfl⟩ := Prod.mk.inj hp
    rfl

/-! ## The parameters of substitutions -/

theorem mem_names_ofList {bindings : List (String × TypeExpr)} {v : String} :
    v ∈ (ofList bindings).names ↔ v ∈ bindings.map (·.1) := by
  rw [names, ofList, OrderedMap.mem_keys_ofList]

theorem mem_names_identity {params : List String} {v : String} :
    v ∈ (identity params).names ↔ v ∈ params := by
  rw [identity, mem_names_ofList, List.map_map]
  simp [Function.comp_def]

theorem map_fst_pairArgs (params : List String) (args : List TypeExpr) :
    (pairArgs params args).map (·.1) = params := by
  induction params generalizing args with
  | nil => rfl
  | cons p params ih => cases args <;> exact congrArg (List.cons p) (ih _)

/-- If there are as many arguments as parameters, each of them is paired. -/
theorem map_snd_pairArgs {params : List String} {args : List TypeExpr}
    (h : args.length = params.length) : (pairArgs params args).map (·.2) = args := by
  induction params generalizing args with
  | nil => exact (List.eq_nil_of_length_eq_zero h).symm
  | cons p params ih =>
    cases args with
    | nil => cases h
    | cons a args => exact congrArg (a :: ·) (ih (Nat.succ.inj h))

theorem mem_names_bind {params : List String} {args : List TypeExpr} {v : String} :
    v ∈ (bind params args).names ↔ v ∈ params := by
  rw [bind, mem_names_ofList, map_fst_pairArgs]

/-- Parameters without repetition stand for themselves in their order. -/
theorem values_identity {params : List String} (h : params.Nodup) :
    (identity params).values = params.map .var := by
  rw [values, identity, ofList, OrderedMap.ofList_of_nodup, OrderedMap.values, List.map_map]
  · rfl
  · rwa [List.map_map, Function.comp_def, List.map_id']

/-- The type parameters of a fragment stand for those of the entity. -/
theorem image_renameParams {canonical : List String} {params : List TypeParam}
    (hnodup : canonical.Nodup) (hlength : params.length = canonical.length) {v : String}
    (hv : v ∈ typeParamNames params) :
    ∃ p ∈ canonical, (renameParams canonical params).image v = .var p := by
  have hne : ¬ params.isEmpty := fun hempty => by
    rw [List.isEmpty_iff.1 hempty] at hv
    exact absurd hv List.not_mem_nil
  rw [renameParams, if_neg hne, rebind, values_identity hnodup]
  have hzip : ((typeParamNames params).zip (canonical.map TypeExpr.var)).map (·.1) =
      typeParamNames params := by
    refine List.map_fst_zip (Nat.le_of_eq ?_)
    rw [typeParamNames, List.length_map, List.length_map, hlength]
  have hbound : v ∈ (ofList ((typeParamNames params).zip (canonical.map TypeExpr.var))).names := by
    rwa [mem_names_ofList, hzip]
  obtain ⟨t, ht⟩ := OrderedMap.exists_get?_of_mem_keys hbound
  have hmem := OrderedMap.mem_pairs_ofList (OrderedMap.mem_pairs_of_get? ht)
  obtain ⟨p, hp, rfl⟩ := List.mem_map.1 (List.of_mem_zip hmem).2
  exact ⟨p, hp, by rw [image, get?, ht, Option.getD_some]⟩

end Substitution

end RubySig
