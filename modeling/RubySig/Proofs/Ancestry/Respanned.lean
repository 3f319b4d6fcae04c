import RubySig.Proofs.Ancestry.Reading
import RubySig.Proofs.Substitution.Renaming
import RubySig.Proofs.TypeExpr.Adoption

/-!
# Fragments that are written elsewhere

Reading a fragment in terms of its entity does not look at spans.  Fragments that are the same up to
spans therefore read the same.

* `Environment.mapSpans_reading_congr`, `Environment.mapSpans_readingMethod_congr`: types and
  overloads that are the same up to spans.
* `EntityDecl.SameOwn`: declarations that are the same up to spans and nested declarations.
* `Environment.reading_of_listed`: a list that repeats that of the entity is as good as none.
* `Fragment.SameReading.of_own`: the result.
-/

namespace RubySig

/-! ## Resolution -/

namespace Environment

section Spans

variable (env : Environment) (nesting : Nesting) (σ : Span → Span)

theorem mapSpans_absolutize (t : TypeExpr) :
    (env.absolutize nesting t).mapSpans σ = env.absolutize nesting (t.mapSpans σ) := by
  rw [absolutize, absolutize, TypeExpr.mapSpans, TypeExpr.mapSpans,
    TypeExpr.map_map_of_keepsShape (env.keepsShape_absolutizeNode nesting),
    TypeExpr.map_map_of_keepsShape (keepsShape_spanNode σ)]
  refine congrArg (TypeExpr.map · t) (funext fun u => ?_)
  cases u with
  | named target => obtain ⟨_, _, _⟩ := target; rfl
  | singleton target => obtain ⟨_, _⟩ := target; rfl
  | _ => rfl

theorem mapSpans_absolutizeMethod (m : MethodType) :
    (env.absolutizeMethod nesting m).mapSpans σ = env.absolutizeMethod nesting (m.mapSpans σ) := by
  rw [absolutizeMethod, absolutizeMethod, MethodType.mapSpans, MethodType.mapSpans,
    MethodType.map_respan]
  exact congrArg (MethodType.respan σ)
    (MethodType.map_map_congr fun t _ => env.mapSpans_absolutize nesting σ t)

variable {σ} (canonical : List String) (params : List TypeParam)

theorem mapSpans_reading_congr {t t' : TypeExpr} (h : t.mapSpans σ = t'.mapSpans σ) :
    (env.reading canonical params nesting t).mapSpans σ =
      (env.reading canonical params nesting t').mapSpans σ := by
  rw [reading, reading, Substitution.mapSpans_apply, Substitution.mapSpans_apply,
    mapSpans_absolutize, mapSpans_absolutize, h]

theorem mapSpans_readingMethod_congr {m m' : MethodType} (h : m.mapSpans σ = m'.mapSpans σ) :
    (env.readingMethod canonical params nesting m).mapSpans σ =
      (env.readingMethod canonical params nesting m').mapSpans σ := by
  rw [readingMethod, readingMethod, Substitution.mapSpans_applyMethod,
    Substitution.mapSpans_applyMethod, mapSpans_absolutizeMethod, mapSpans_absolutizeMethod, h]

end Spans

end Environment

/-! ## Lists that say nothing new -/

/-- A list only counts by its names. -/
theorem renameParams_congr (canonical : List String) {params params' : List TypeParam}
    (h : typeParamNames params = typeParamNames params') :
    renameParams canonical params = renameParams canonical params' := by
  have hempty : ∀ ps : List TypeParam, ps.isEmpty = (typeParamNames ps).isEmpty := fun ps => by
    rw [typeParamNames, List.isEmpty_map]
  rw [renameParams, renameParams, hempty, hempty, h]

/-- A list that is missing or repeats that of the entity renames nothing. -/
theorem image_renameParams_of_listed {canonical : List String} {params : List TypeParam}
    (hnodup : canonical.Nodup) (h : params = [] ∨ typeParamNames params = canonical) (v : String) :
    (renameParams canonical params).image v = .var v := by
  rw [renameParams]
  split
  · rfl
  · rename_i hne
    rcases h with rfl | h
    · exact absurd rfl hne
    · have hidentity : (Substitution.identity canonical).rebind (typeParamNames params) =
          .identity canonical := by
        have hzip : canonical.zip (canonical.map TypeExpr.var) =
            canonical.map fun v => (v, .var v) := by
          rw [← List.zip_map', List.map_id']
        rw [Substitution.rebind, Substitution.values_identity hnodup, h, hzip]
        rfl
      rw [hidentity, Substitution.image_identity]

/-- Two lists with the same names, or two that rename nothing, read types alike. -/
theorem readsAlike_of_params {env env' : Environment}
    (hkind : ∀ name, env.kind? name = env'.kind? name) {canonical : List String}
    {params params' : List TypeParam}
    (h : typeParamNames params = typeParamNames params' ∨ canonical.Nodup ∧
      (params = [] ∨ typeParamNames params = canonical) ∧
        (params' = [] ∨ typeParamNames params' = canonical)) :
    env.reading canonical params = env'.reading canonical params' ∧
      env.readingMethod canonical params = env'.readingMethod canonical params' := by
  rw [← Environment.reading_congr hkind, ← Environment.readingMethod_congr hkind]
  rcases h with h | ⟨hnodup, hlisted, hlisted'⟩
  · have hrename := renameParams_congr canonical h
    constructor <;> funext nesting t
    · rw [Environment.reading, hrename, Environment.reading]
    · rw [Environment.readingMethod, hrename, Environment.readingMethod]
  · have himage := image_renameParams_of_listed hnodup hlisted
    have himage' := image_renameParams_of_listed hnodup hlisted'
    constructor <;> funext nesting t
    · rw [Environment.reading, Environment.reading, Substitution.apply_of_image himage,
        Substitution.apply_of_image himage']
    · rw [Environment.readingMethod, Environment.readingMethod,
        Substitution.applyMethod_of_image himage, Substitution.applyMethod_of_image himage']

/-! ## Declarations -/

section Spans

variable (σ : Span → Span)

/-- Two declarations are the same up to spans and nested declarations, as far as their superclasses
and their bodies go. -/
structure EntityDecl.SameOwn (d d' : EntityDecl) : Prop where
  superClass : d.superClass?.map (NamedType.mapSpans σ) = d'.superClass?.map (NamedType.mapSpans σ)
  members : d.members.map (Member.own? σ) = d'.members.map (Member.own? σ)

variable {σ} {env : Environment} {canonical : List String} {params : List TypeParam}
  {nesting : Nesting}

theorem map_reading_congr {ts ts' : List TypeExpr}
    (h : ts.map (TypeExpr.mapSpans σ) = ts'.map (TypeExpr.mapSpans σ)) :
    ts.map (fun t => (env.reading canonical params nesting t).mapSpans σ) =
      ts'.map fun t => (env.reading canonical params nesting t).mapSpans σ :=
  map_eq_iff_forall₂.2 ((map_eq_iff_forall₂.1 h).imp fun _ _ =>
    env.mapSpans_reading_congr nesting canonical params)

/-- Members that are the same up to spans read the same. -/
theorem Member.sameReading_of_own {m m' : Member} (h : m.own? σ = m'.own? σ) :
    m.SameReading σ (env.reading canonical params nesting) (env.reading canonical params nesting)
      (env.readingMethod canonical params nesting) (env.readingMethod canonical params nesting)
      m' := by
  cases m <;> cases m' <;> first | (cases h; done) | skip
  case method.method m m' =>
    obtain ⟨name, kind, overloads, visibility, span⟩ :=
      MethodMember.mk.inj (Member.method.inj (Option.some.inj h))
    refine .method name kind visibility span (map_eq_iff_forall₂.2 ?_)
    exact (map_eq_iff_forall₂.1 overloads).imp fun _ _ =>
      env.mapSpans_readingMethod_congr nesting canonical params
  case attr.attr a a' =>
    obtain ⟨kind, name, type, side, visibility, span⟩ :=
      AttributeMember.mk.inj (Member.attr.inj (Option.some.inj h))
    exact .attr kind name side visibility span
      (env.mapSpans_reading_congr nesting canonical params type)
  case methodAlias.methodAlias a a' =>
    obtain ⟨newName, oldName, side, span⟩ :=
      AliasMember.mk.inj (Member.methodAlias.inj (Option.some.inj h))
    exact .methodAlias newName oldName side span
  case mixin.mixin m m' =>
    obtain ⟨kind, target, -⟩ := Mixin.mk.inj (Member.mixin.inj (Option.some.inj h))
    obtain ⟨name, args, -⟩ := NamedType.mk.inj target
    exact .mixin kind name (map_reading_congr args)
  case marker.marker m m' =>
    exact .marker (VisibilityMarker.mk.inj (Member.marker.inj (Option.some.inj h))).1
  case typedVar.typedVar v v' => exact .typedVar v v'
  case nested.nested d d' => exact .nested d d'

/-- Fragments that are the same up to spans mean the same if their lists read types alike. -/
theorem Fragment.SameReading.of_own {env' : Environment} {name : TypeName}
    {f f' : Fragment EntityDecl} (hnesting : f.nesting = f'.nesting)
    (hown : f.decl.SameOwn σ f'.decl)
    (hreading :
      env.reading canonical f.decl.typeParams = env'.reading canonical f'.decl.typeParams ∧
      env.readingMethod canonical f.decl.typeParams =
        env'.readingMethod canonical f'.decl.typeParams) :
    Fragment.SameReading σ env env' name canonical f f' := by
  obtain ⟨hsuper, hmembers⟩ := hown
  refine ⟨hnesting, ?_, ?_⟩
  · rw [← hreading.1, ← hnesting]
    cases hs : f.decl.superClass? with
    | none =>
      rw [hs] at hsuper
      rw [Option.map_eq_none_iff.1 hsuper.symm]
      exact .none
    | some s =>
      rw [hs] at hsuper
      obtain ⟨s', hs', hsame⟩ := Option.map_eq_some_iff.1 hsuper.symm
      rw [hs']
      obtain ⟨hname, hargs, -⟩ := NamedType.mk.inj hsame
      exact .some ⟨hname.symm, map_reading_congr hargs.symm⟩
  · rw [← hreading.1, ← hreading.2, ← hnesting]
    exact (map_eq_iff_forall₂.1 hmembers).imp fun _ _ => Member.sameReading_of_own

end Spans

end RubySig
