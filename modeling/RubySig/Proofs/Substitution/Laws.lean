import RubySig.Proofs.Substitution.Composition

/-!
# Laws of composition

`compose` only knows the parameters of its inner substitution.  So one composed substitution does
what its two parts do one after the other exactly if the outer part leaves all variables alone that
the inner one does not bind.

* `Substitution.apply_apply_iff`: when two substitutions in a row are a third one on a type.
* `Substitution.apply_compose_iff`: when that is the composed one.
* `Substitution.compose_compose`: composition is associative where all variables are bound.
* `Substitution.composition_laws`: the laws on which chains of ancestors rest.
-/

namespace RubySig

namespace Substitution

variable {s t r : Substitution}

/-! ## Types -/

/-- Two substitutions in a row are a third one on a type exactly if they are on each of its
variables. -/
theorem apply_apply_iff {x : TypeExpr} :
    s.apply (t.apply x) = r.apply x ↔ ∀ v ∈ x.vars, s.apply (t.image v) = r.image v := by
  refine ⟨?_, apply_apply⟩
  induction x using TypeExpr.inductionOnChildren with
  | step x ih =>
    intro h v hv
    cases hx : x.varName? with
    | some w =>
      obtain rfl := TypeExpr.eq_var_of_varName? hx
      obtain rfl := List.mem_singleton.1 hv
      rwa [apply_var, apply_var] at h
    | none =>
      -- the two results have the same children, so they agree on the child that has the variable
      have hmapped : (x.mapChildren t.apply).varName? = none := by
        rw [TypeExpr.varName?_mapChildren, hx]
      have hchildren := congrArg TypeExpr.children h
      rw [t.apply_of_varName?_eq_none hx, s.apply_of_varName?_eq_none hmapped,
        r.apply_of_varName?_eq_none hx, TypeExpr.mapChildren_mapChildren,
        TypeExpr.children_mapChildren, TypeExpr.children_mapChildren] at hchildren
      rw [TypeExpr.vars_eq_of_varName?_eq_none hx] at hv
      obtain ⟨c, hc, hvc⟩ := List.mem_flatMap.1 hv
      exact ih c hc (List.map_inj_left.1 hchildren c hc) v hvc

theorem image_compose_of_notMem {v : String} (h : v ∉ t.names) : (s.compose t).image v = .var v :=
  image_of_notMem_names fun hmem => h (names_compose s t ▸ hmem)

/-- One composed substitution does what its parts do one after the other exactly if the outer part
leaves the variables alone that the inner one does not bind. -/
theorem apply_compose_iff {x : TypeExpr} :
    (s.compose t).apply x = s.apply (t.apply x) ↔
      ∀ v ∈ x.vars, v ∉ t.names → s.image v = .var v := by
  rw [eq_comm, apply_apply_iff]
  refine forall₂_congr fun v _ => ?_
  by_cases hbound : v ∈ t.names
  · simp [image_compose hbound, hbound]
  · rw [image_compose_of_notMem hbound, image_of_notMem_names hbound, apply_var]
    simp [hbound]

theorem apply_compose {x : TypeExpr} (h : ∀ v ∈ x.vars, v ∈ t.names) :
    (s.compose t).apply x = s.apply (t.apply x) := by
  rw [apply_compose_iff]
  intro v hv hfree
  exact absurd (h v hv) hfree

/-! ## Substitutions -/

/-- Composition is associative if the substitution in the middle binds all variables of the values
of the innermost one. -/
theorem compose_compose (h : ∀ u ∈ r.values, ∀ v ∈ u.vars, v ∈ t.names) :
    s.compose (t.compose r) = (s.compose t).compose r := by
  have hvalue : ∀ p ∈ r.bindings.pairs, s.apply (t.apply p.2) = (s.compose t).apply p.2 := by
    intro p hp
    exact (apply_compose (h p.2 (List.mem_map_of_mem hp))).symm
  show (⟨⟨(r.bindings.pairs.map fun p => (p.1, t.apply p.2)).map fun p => (p.1, s.apply p.2)⟩⟩ :
      Substitution) = ⟨⟨r.bindings.pairs.map fun p => (p.1, (s.compose t).apply p.2)⟩⟩
  rw [List.map_map]
  refine congrArg (Substitution.mk ⟨·⟩) (List.map_congr_left fun p hp => ?_)
  rw [Function.comp_apply, hvalue p hp]

/-- Parameters that stand for themselves change nothing, whichever they are. -/
theorem apply_identity (names : List String) (x : TypeExpr) : (identity names).apply x = x :=
  apply_of_image (image_identity names) x

/-! ## The laws -/

/-- The laws of composition.  One composed substitution does what its parts do one after the other
in a type whose variables the inner part binds; composition is associative if the one in the middle
binds all variables of the values of the innermost one; parameters that stand for themselves change
nothing, so the identity over the variables of a type leaves it as it is; and in an overload whose
free variables the inner part binds the first law holds as soon as the outer part binds none of the
overload's own type parameters, whatever the inner part does with them. -/
theorem composition_laws (s t r : Substitution) (x : TypeExpr) (m : MethodType) :
    ((∀ v ∈ x.vars, v ∈ t.names) → (s.compose t).apply x = s.apply (t.apply x)) ∧
      ((∀ u ∈ r.values, ∀ v ∈ u.vars, v ∈ t.names) →
        s.compose (t.compose r) = (s.compose t).compose r) ∧
      (∀ names, (identity names).apply x = x) ∧
      ((∀ v ∈ m.freeVars, v ∈ t.names) → (∀ v ∈ typeParamNames m.typeParams, v ∉ s.names) →
        (s.compose t).applyMethod m = s.applyMethod (t.applyMethod m)) := by
  refine ⟨apply_compose, compose_compose, fun names => apply_identity names x, ?_⟩
  intro hfree hown
  exact applyMethod_compose hfree hown

/-- `A` stands for integers. -/
def integersForA : Substitution := bind ["A"] [.named ⟨.topLevel "Integer", [], default⟩]

/-- `Elem` stands for pairs of an `A` and a symbol. -/
def pairsForElem : Substitution := bind ["Elem"] [.tuple [.var "A", .literal (.symbol "a")]]

/-- `K` stands for arrays of `Elem`. -/
def arraysForK : Substitution := bind ["K"] [.named ⟨.topLevel "Array", [.var "Elem"], default⟩]

/-- `^(?Elem) { () -> Elem } -> bool` -/
def callback : TypeExpr :=
  .proc ⟨[⟨.optional, .var "Elem", none⟩], .special .bool⟩ (some ⟨true, .returning (.var "Elem")⟩)

/-- `[U] (Elem, U) -> Elem?` -/
def pick : MethodType :=
  ⟨[⟨"U", .invariant, false, none, default⟩],
    ⟨[⟨.required, .var "Elem", none⟩, ⟨.required, .var "U", none⟩], .optional (.var "Elem")⟩, none,
    default⟩

/-- The laws for an element type that goes through two chains. -/
theorem composition_laws_elements :
    (∀ v ∈ callback.vars, v ∈ pairsForElem.names) ∧
      (∀ u ∈ arraysForK.values, ∀ v ∈ u.vars, v ∈ pairsForElem.names) ∧
      (∀ v ∈ pick.freeVars, v ∈ pairsForElem.names) ∧
      (∀ v ∈ typeParamNames pick.typeParams, v ∉ integersForA.names) ∧
      (integersForA.compose pairsForElem).apply callback =
        integersForA.apply (pairsForElem.apply callback) ∧
      integersForA.compose (pairsForElem.compose arraysForK) =
        (integersForA.compose pairsForElem).compose arraysForK ∧
      (identity ["Elem"]).apply callback = callback ∧
      (integersForA.compose pairsForElem).applyMethod pick =
        integersForA.applyMethod (pairsForElem.applyMethod pick) := by
  obtain ⟨htype, hassoc, hidentity, hmethod⟩ :=
    composition_laws integersForA pairsForElem arraysForK callback pick
  have hcallback : ∀ v ∈ callback.vars, v ∈ pairsForElem.names := by decide
  have harrays : ∀ u ∈ arraysForK.values, ∀ v ∈ u.vars, v ∈ pairsForElem.names := by decide
  have hpick : ∀ v ∈ pick.freeVars, v ∈ pairsForElem.names := by decide
  have hown : ∀ v ∈ typeParamNames pick.typeParams, v ∉ integersForA.names := by decide
  exact ⟨hcallback, harrays, hpick, hown, htype hcallback, hassoc harrays, hidentity ["Elem"],
    hmethod hpick hown⟩

/-- A variable that the inner part does not bind is lost to the outer one. -/
example : ((integersForA.compose pairsForElem).apply (.var "A")).render = "A" ∧
    (integersForA.apply (pairsForElem.apply (.var "A"))).render = "::Integer" := by
  decide

end Substitution

end RubySig
