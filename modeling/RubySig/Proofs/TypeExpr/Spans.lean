import RubySig.Diagnostic
import RubySig.Proofs.Substitution.Composition
import RubySig.Proofs.TypeExpr.Members

/-!
# Types with other spans

Two texts that differ only in where things are written declare types that differ only in their
spans.  A change of spans goes through every substitution, so such differences stay differences of
spans.

* `KeepsShape`, `TypeExpr.map_map_of_keepsShape`: node functions that leave the children alone, and
  why rebuilding with two of them is rebuilding once.
* `TypeExpr.mapSpans`, `MethodType.mapSpans`, `Substitution.mapSpans`: the change of all spans by a
  function.
* `Diagnostic.mapSpan`: findings at another place.
* `Substitution.mapSpans_apply`, `Substitution.mapSpans_applyMethod`,
  `Substitution.mapSpans_compose`: a change of spans before and after a substitution.
-/

namespace RubySig

/-! ## Node functions that keep the shape -/

/-- A node function changes what stands at a node and leaves the children of the node in place. -/
def KeepsShape (f : TypeExpr → TypeExpr) : Prop :=
  ∀ g t, f (t.mapChildren g) = (f t).mapChildren g

/-- Rebuilding with two node functions is rebuilding with both at each node. -/
theorem TypeExpr.map_map_of_keepsShape {f : TypeExpr → TypeExpr} (hf : KeepsShape f)
    (g : TypeExpr → TypeExpr) (t : TypeExpr) : (t.map f).map g = t.map fun u => g (f u) := by
  induction t using TypeExpr.inductionOnChildren with
  | step t ih =>
    have hchildren : t.mapChildren (fun c => (c.map f).map g) =
        t.mapChildren (TypeExpr.map fun u => g (f u)) := TypeExpr.mapChildren_congr ih
    rw [TypeExpr.map_eq f, hf, TypeExpr.map_eq g, TypeExpr.map_eq _ t, ← hf,
      ← hf, TypeExpr.mapChildren_mapChildren, hchildren]

/-! ## Other spans -/

section Spans

variable (σ : Span → Span)

/-- A node with another span. -/
def TypeExpr.spanNode : TypeExpr → TypeExpr
  | .named target => .named ⟨target.name, target.args, σ target.span⟩
  | .singleton target => .singleton ⟨target.name, σ target.span⟩
  | type => type

/-- A type with other spans. -/
def TypeExpr.mapSpans (type : TypeExpr) : TypeExpr := type.map (spanNode σ)

/-- A type parameter that is written at another place. -/
def TypeParam.mapSpan (param : TypeParam) : TypeParam := { param with span := σ param.span }

/-- An overload that is written at another place, with its type parameters. -/
def MethodType.respan (method : MethodType) : MethodType :=
  { method with
    typeParams := method.typeParams.map (TypeParam.mapSpan σ)
    span := σ method.span }

/-- An overload with other spans. -/
def MethodType.mapSpans (method : MethodType) : MethodType :=
  (method.map (TypeExpr.spanNode σ)).respan σ

/-- A substitution whose values have other spans. -/
def Substitution.mapSpans (s : Substitution) : Substitution :=
  ⟨s.bindings.mapValues (TypeExpr.mapSpans σ)⟩

/-- A diagnostic at another place. -/
def Diagnostic.mapSpan (d : Diagnostic) : Diagnostic := { d with span := σ d.span }

theorem keepsShape_spanNode : KeepsShape (TypeExpr.spanNode σ) := by
  intro g t
  cases t <;> rfl

namespace TypeExpr

theorem mapSpans_eq (t : TypeExpr) :
    t.mapSpans σ = spanNode σ (t.mapChildren (mapSpans σ)) :=
  t.map_eq _

theorem mapSpans_var (v : String) : (var v).mapSpans σ = .var v := by
  rw [mapSpans_eq]
  rfl

theorem varName?_spanNode (t : TypeExpr) : (spanNode σ t).varName? = t.varName? := by
  cases t <;> rfl

end TypeExpr

namespace MethodType

theorem map_respan (f : TypeExpr → TypeExpr) (m : MethodType) :
    (m.respan σ).map f = (m.map f).respan σ := by
  rw [map_eq, map_eq, respan, respan, List.map_map, List.map_map]
  rfl

theorem typeParamNames_respan (m : MethodType) :
    typeParamNames (m.respan σ).typeParams = typeParamNames m.typeParams := by
  rw [typeParamNames, respan, List.map_map]
  rfl

theorem typeParamNames_mapSpans (m : MethodType) :
    typeParamNames (m.mapSpans σ).typeParams = typeParamNames m.typeParams := by
  rw [mapSpans, typeParamNames_respan, typeParamNames_map]

end MethodType

namespace Substitution

theorem get?_mapSpans (s : Substitution) (v : String) :
    (s.mapSpans σ).get? v = (s.get? v).map (TypeExpr.mapSpans σ) :=
  OrderedMap.get?_mapValues _ _ _

theorem image_mapSpans (s : Substitution) (v : String) :
    (s.mapSpans σ).image v = (s.image v).mapSpans σ := by
  rw [image, image, get?_mapSpans]
  cases s.get? v with
  | none => exact (TypeExpr.mapSpans_var σ v).symm
  | some t => rfl

/-- A change of spans goes through a substitution. -/
theorem mapSpans_apply (s : Substitution) (t : TypeExpr) :
    (s.apply t).mapSpans σ = (s.mapSpans σ).apply (t.mapSpans σ) := by
  induction t using TypeExpr.inductionOnChildren with
  | step t ih =>
    cases ht : t.varName? with
    | some v =>
      obtain rfl := TypeExpr.eq_var_of_varName? ht
      rw [apply_var, TypeExpr.mapSpans_var, apply_var, image_mapSpans]
    | none =>
      have hspans : (t.mapSpans σ).varName? = none := by
        rw [TypeExpr.mapSpans_eq, TypeExpr.varName?_spanNode, TypeExpr.varName?_mapChildren, ht]
      rw [s.apply_of_varName?_eq_none ht, apply_of_varName?_eq_none _ hspans,
        TypeExpr.mapSpans_eq, TypeExpr.mapSpans_eq, ← keepsShape_spanNode,
        TypeExpr.mapChildren_mapChildren, TypeExpr.mapChildren_mapChildren]
      exact congrArg _ (TypeExpr.mapChildren_congr ih)

theorem mapSpans_compose (outer inner : Substitution) :
    (outer.compose inner).mapSpans σ = (outer.mapSpans σ).compose (inner.mapSpans σ) := by
  refine congrArg (fun ps => Substitution.mk ⟨ps⟩) ?_
  show (inner.bindings.pairs.map _).map _ = (inner.bindings.pairs.map _).map _
  rw [List.map_map, List.map_map]
  refine List.map_congr_left fun p _ => ?_
  exact congrArg (Prod.mk p.1) (mapSpans_apply σ outer p.2)

theorem mapSpans_without (s : Substitution) (names : List String) :
    (s.without names).mapSpans σ = (s.mapSpans σ).without names := by
  refine congrArg (fun ps => Substitution.mk ⟨ps⟩) ?_
  show (s.bindings.pairs.filter _).map _ = (s.bindings.pairs.map _).filter _
  rw [List.filter_map]
  rfl

/-- A change of spans goes through a substitution in an overload. -/
theorem mapSpans_applyMethod (s : Substitution) (m : MethodType) :
    (s.applyMethod m).mapSpans σ = (s.mapSpans σ).applyMethod (m.mapSpans σ) := by
  have htypes : ∀ t ∈ m.types,
      (t.map (s.without (typeParamNames m.typeParams)).applyNode).map (TypeExpr.spanNode σ) =
        (t.map (TypeExpr.spanNode σ)).map
          ((s.mapSpans σ).without (typeParamNames m.typeParams)).applyNode := by
    intro t _
    rw [← apply_eq, ← apply_eq, ← mapSpans_without]
    exact mapSpans_apply σ _ t
  rw [applyMethod_eq, applyMethod_eq, MethodType.typeParamNames_mapSpans, MethodType.mapSpans,
    MethodType.mapSpans, MethodType.map_respan, MethodType.map_map_congr htypes]

theorem mapSpans_ofList (bindings : List (String × TypeExpr)) :
    (ofList bindings).mapSpans σ = ofList (bindings.map fun p => (p.1, p.2.mapSpans σ)) :=
  congrArg Substitution.mk (OrderedMap.mapValues_ofList _ _)

theorem mapSpans_bind (params : List String) (args : List TypeExpr) :
    (bind params args).mapSpans σ = bind params (args.map (TypeExpr.mapSpans σ)) := by
  have hpairs : ∀ (params : List String) (args : List TypeExpr),
      (pairArgs params args).map (fun p => (p.1, p.2.mapSpans σ)) =
        pairArgs params (args.map (TypeExpr.mapSpans σ)) := by
    intro params
    induction params with
    | nil => exact fun _ => rfl
    | cons p rest ih =>
      intro args
      cases args with
      | nil => exact congrArg (List.cons _) (ih [])
      | cons a args => exact congrArg (List.cons _) (ih args)
  rw [bind, mapSpans_ofList, hpairs, bind]

end Substitution

end Spans

/-! ## The same spans -/

theorem TypeExpr.spanNode_id (t : TypeExpr) : spanNode id t = t := by
  cases t with
  | named target => obtain ⟨_, _, _⟩ := target; rfl
  | _ => rfl

theorem TypeExpr.mapSpans_id (t : TypeExpr) : t.mapSpans id = t :=
  map_eq_self spanNode_id t

theorem MethodType.mapSpans_id (m : MethodType) : m.mapSpans id = m := by
  have hparams : m.typeParams.map (TypeParam.mapSpan id) = m.typeParams := List.map_id _
  rw [mapSpans, map_eq_self TypeExpr.spanNode_id, respan, hparams]
  rfl

theorem Substitution.mapSpans_id (s : Substitution) : s.mapSpans id = s := by
  obtain ⟨⟨pairs⟩⟩ := s
  refine congrArg (fun ps => Substitution.mk ⟨ps⟩) ((List.map_congr_left fun p _ => ?_).trans
    (List.map_id pairs))
  exact congrArg (Prod.mk p.1) p.2.mapSpans_id

end RubySig
