import Mathlib.Data.List.Forall2
import RubySig.Proofs.Ancestry.Agreement
import RubySig.Proofs.Resolution

/-!
# Fragments that read the same

A fragment is read in terms of the type parameters of its entity: names are resolved, and the
parameters as the fragment spells them give way to those of the entity.  Two environments whose
fragments read the same have the same chains, and if the fragments read the same up to a change of
spans, the same chains up to that change.

* `Environment.reading`, `Environment.readingMethod`: how the types of a fragment are read.
* `Member.SameReading`, `Fragment.SameReading`, `Entry.SameReading`, `Environment.SameReading`:
  declarations that read the same.
* `Environment.SameReading.mixinSplices`, `Environment.SameReading.superClass?`: what they mix in
  and inherit from.
* `Environment.SameReading.sameSites`: the result, that chains agree.
-/

namespace RubySig

/-! ## Reading fragments -/

namespace Environment

variable (env : Environment)

/-- A type of a fragment with the given parameter list and scopes, in terms of the entity's own type
parameters. -/
def reading (canonical : List String) (params : List TypeParam) (nesting : Nesting)
    (t : TypeExpr) : TypeExpr :=
  (renameParams canonical params).apply (env.absolutize nesting t)

/-- An overload of a fragment, in terms of the entity's own type parameters. -/
def readingMethod (canonical : List String) (params : List TypeParam) (nesting : Nesting)
    (m : MethodType) : MethodType :=
  (renameParams canonical params).applyMethod (env.absolutizeMethod nesting m)

variable {env} {env' : Environment}

theorem reading_congr (h : ∀ name, env.kind? name = env'.kind? name) :
    env.reading = env'.reading := by
  funext canonical params nesting t
  rw [reading, reading, absolutize, absolutize, funext (absolutizeNode_congr h nesting)]

theorem readingMethod_congr (h : ∀ name, env.kind? name = env'.kind? name) :
    env.readingMethod = env'.readingMethod := by
  funext canonical params nesting m
  rw [readingMethod, readingMethod, absolutizeMethod, absolutizeMethod,
    funext (absolutizeNode_congr h nesting)]

end Environment

section Spans

variable (σ : Span → Span)

/-- Two members mean the same, up to spans, if their types are read by the given functions.
Variables and nested declarations do not count. -/
inductive Member.SameReading (read read' : TypeExpr → TypeExpr)
    (readMethod readMethod' : MethodType → MethodType) : Member → Member → Prop
  | method {m m' : MethodMember} (name : m.name = m'.name) (kind : m.kind = m'.kind)
      (visibility : m.visibility = m'.visibility) (span : σ m.span = σ m'.span)
      (overloads : m.overloads.map (fun o => (readMethod o).mapSpans σ) =
        m'.overloads.map fun o => (readMethod' o).mapSpans σ) :
      SameReading read read' readMethod readMethod' (.method m) (.method m')
  | attr {a a' : AttributeMember} (kind : a.kind = a'.kind) (name : a.name = a'.name)
      (side : a.singleton = a'.singleton) (visibility : a.visibility = a'.visibility)
      (span : σ a.span = σ a'.span)
      (type : (read a.type).mapSpans σ = (read' a'.type).mapSpans σ) :
      SameReading read read' readMethod readMethod' (.attr a) (.attr a')
  | methodAlias {a a' : AliasMember} (newName : a.newName = a'.newName)
      (oldName : a.oldName = a'.oldName) (side : a.singleton = a'.singleton)
      (span : σ a.span = σ a'.span) :
      SameReading read read' readMethod readMethod' (.methodAlias a) (.methodAlias a')
  | mixin {m m' : Mixin} (kind : m.kind = m'.kind) (target : m.target.name = m'.target.name)
      (args : m.target.args.map (fun t => (read t).mapSpans σ) =
        m'.target.args.map fun t => (read' t).mapSpans σ) :
      SameReading read read' readMethod readMethod' (.mixin m) (.mixin m')
  | marker {m m' : VisibilityMarker} (visibility : m.visibility = m'.visibility) :
      SameReading read read' readMethod readMethod' (.marker m) (.marker m')
  | typedVar (m m' : VariableMember) :
      SameReading read read' readMethod readMethod' (.typedVar m) (.typedVar m')
  | nested (d d' : EntityDecl) :
      SameReading read read' readMethod readMethod' (.nested d) (.nested d')

/-- Two superclasses mean the same, up to spans. -/
structure NamedType.SameReading (read read' : TypeExpr → TypeExpr) (s s' : NamedType) : Prop where
  name : s.name = s'.name
  args : s.args.map (fun t => (read t).mapSpans σ) = s'.args.map fun t => (read' t).mapSpans σ

/-- Two fragments of an entity mean the same in their environments, up to spans. -/
structure Fragment.SameReading (env env' : Environment) (name : TypeName) (canonical : List String)
    (f f' : Fragment EntityDecl) : Prop where
  nesting : f.nesting = f'.nesting
  superClass : Option.Rel (NamedType.SameReading σ
      (env.reading canonical f.decl.typeParams f.nesting)
      (env'.reading canonical f'.decl.typeParams f'.nesting))
    f.decl.superClass? f'.decl.superClass?
  members : List.Forall₂ (Member.SameReading σ
      (env.reading canonical f.decl.typeParams (f.nesting.enter name.toNamespace))
      (env'.reading canonical f'.decl.typeParams (f'.nesting.enter name.toNamespace))
      (env.readingMethod canonical f.decl.typeParams (f.nesting.enter name.toNamespace))
      (env'.readingMethod canonical f'.decl.typeParams (f'.nesting.enter name.toNamespace)))
    f.decl.members f'.decl.members

/-- Two entities mean the same in their environments, up to spans. -/
structure Entry.SameReading (env env' : Environment) (e e' : Entry) : Prop where
  name : e.name = e'.name
  kind : e.kind = e'.kind
  nameSpan : σ e.nameSpan = σ e'.nameSpan
  params : e.paramNames = e'.paramNames
  fragments : List.Forall₂ (Fragment.SameReading σ env env' e.name e.paramNames)
    e.fragments e'.fragments

/-- The entities of two environments mean the same, up to spans. -/
def Environment.SameReading (env env' : Environment) : Prop :=
  ∀ name, Option.Rel (Entry.SameReading σ env env') (env.get? name) (env'.get? name)

/-! ## What is not changed -/

theorem Member.SameReading.refl (read : TypeExpr → TypeExpr) (readMethod : MethodType → MethodType)
    (m : Member) : m.SameReading σ read read readMethod readMethod m := by
  cases m with
  | method m => exact .method rfl rfl rfl rfl rfl
  | attr a => exact .attr rfl rfl rfl rfl rfl rfl
  | methodAlias a => exact .methodAlias rfl rfl rfl rfl
  | mixin m => exact .mixin rfl rfl rfl
  | marker m => exact .marker rfl
  | typedVar m => exact .typedVar m m
  | nested d => exact .nested d d

section Refl

variable {env env' : Environment} (hkind : ∀ name, env.kind? name = env'.kind? name)
include hkind

/-- In environments of the same kinds a fragment means the same. -/
theorem Fragment.SameReading.refl (name : TypeName) (canonical : List String)
    (f : Fragment EntityDecl) : Fragment.SameReading σ env env' name canonical f f := by
  refine ⟨rfl, ?_, ?_⟩
  · rw [Environment.reading_congr hkind]
    cases f.decl.superClass? with
    | none => exact .none
    | some s => exact .some ⟨rfl, rfl⟩
  · rw [Environment.reading_congr hkind, Environment.readingMethod_congr hkind]
    exact List.forall₂_same.2 fun m _ => .refl σ _ _ m

theorem Entry.SameReading.refl (e : Entry) : e.SameReading σ env env' e :=
  ⟨rfl, rfl, rfl, rfl, List.forall₂_same.2 fun f _ => .refl σ hkind _ _ f⟩

end Refl

/-! ## Lists that correspond -/

section Lists

variable {α β γ : Type} {R : α → β → Prop} {as : List α} {bs : List β}

theorem flatMap_eq_of_forall₂ {f : α → List γ} {g : β → List γ} (hfg : ∀ a b, R a b → f a = g b)
    (h : List.Forall₂ R as bs) : as.flatMap f = bs.flatMap g := by
  induction h with
  | nil => rfl
  | cons hab _ ih => rw [List.flatMap_cons, List.flatMap_cons, hfg _ _ hab, ih]

theorem filterMap_eq_of_forall₂ {f : α → Option γ} {g : β → Option γ}
    (hfg : ∀ a b, R a b → f a = g b) (h : List.Forall₂ R as bs) :
    as.filterMap f = bs.filterMap g := by
  induction h with
  | nil => rfl
  | cons hab _ ih => rw [List.filterMap_cons, List.filterMap_cons, hfg _ _ hab, ih]

end Lists

/-! ## Chains -/

/-- What a member of a body mixes in by a directive. -/
def Member.mixin? (directive : MixinKind) : Member → Option Mixin
  | .mixin m => if m.kind = directive then some m else none
  | _ => none

theorem Body.filterMap_mixins {α : Type} (b : Body) (directive : MixinKind) (f : Mixin → Option α) :
    (b.mixins directive).filterMap f =
      b.members.filterMap fun m => (m.mixin? directive).bind f := by
  rw [Body.mixins, List.filterMap_filterMap]
  refine List.filterMap_congr fun m _ => ?_
  cases m <;> rfl

namespace Entry.SameReading

variable {σ} {env env' : Environment} {e e' : Entry} (h : e.SameReading σ env env' e')
include h

/-- The bodies of two entities that mean the same correspond, with the fragments they stand in. -/
theorem bodies :
    List.Forall₂ (fun b b' => ∃ f f', b = e.bodyOf f ∧ b' = e'.bodyOf f' ∧
      Fragment.SameReading σ env env' e.name e.paramNames f f') e.bodies e'.bodies := by
  have hbodies : e.hasBodies = e'.hasBodies := by
    rw [Entry.hasBodies, Entry.hasBodies, h.kind]
  rw [Entry.bodies, Entry.bodies, hbodies]
  split
  · rw [List.forall₂_map_left_iff, List.forall₂_map_right_iff]
    exact h.fragments.imp fun f f' hf => ⟨f, f', rfl, rfl, hf⟩
  · exact .nil

/-- Two entities that mean the same write superclasses that mean the same, or none. -/
theorem superClass? : Option.Rel (fun p p' => p.2.nesting = p'.2.nesting ∧
      NamedType.SameReading σ (env.reading e.paramNames p.2.decl.typeParams p.2.nesting)
        (env'.reading e.paramNames p'.2.decl.typeParams p'.2.nesting) p.1 p'.1)
    e.superClass? e'.superClass? := by
  have hfragments := h.fragments
  rw [Entry.superClass?, Entry.superClass?]
  generalize e.fragments = fs, e'.fragments = fs' at hfragments ⊢
  induction hfragments with
  | nil => exact .none
  | @cons f f' rest rest' hf _ ih =>
    rw [List.findSome?_cons, List.findSome?_cons]
    rcases rel_cases hf.superClass with ⟨hs, hs'⟩ | ⟨s, s', hs, hs', hsame⟩
    · rw [hs, hs']
      exact ih
    · rw [hs, hs']
      exact .some ⟨hf.nesting, hsame⟩

end Entry.SameReading

namespace Environment.SameReading

variable {σ} {env env' : Environment} (h : env.SameReading σ env')
include h

theorem kind? (name : TypeName) : env.kind? name = env'.kind? name :=
  kind?_of_rel (fun hsame => hsame.kind) h name

theorem names_paramsOf (name : TypeName) :
    typeParamNames (env.paramsOf name) = typeParamNames (env'.paramsOf name) :=
  names_paramsOf_of_rel (fun hsame => hsame.params) h name

theorem mixinSplice? {e e' : Entry} (he : e.SameReading σ env env' e') {f f' : Fragment EntityDecl}
    (hf : Fragment.SameReading σ env env' e.name e.paramNames f f') {m m' : Mixin}
    (hkind : m.kind = m'.kind) (htarget : m.target.name = m'.target.name)
    (hargs : m.target.args.map (fun t => (env.reading e.paramNames f.decl.typeParams
        (f.nesting.enter e.name.toNamespace) t).mapSpans σ) =
      m'.target.args.map fun t => (env'.reading e.paramNames f'.decl.typeParams
        (f'.nesting.enter e.name.toNamespace) t).mapSpans σ) :
    (env.mixinSplice? e (e.bodyOf f) m).map (Splice.mapSpans σ) =
      (env'.mixinSplice? e' (e'.bodyOf f') m').map (Splice.mapSpans σ) := by
  have hnesting : (e.bodyOf f).nesting = (e'.bodyOf f').nesting := by
    show f.nesting.enter e.name.toNamespace = f'.nesting.enter e'.name.toNamespace
    rw [hf.nesting, he.name]
  have hsite : (env.siteArgs e (e.bodyOf f).typeParams (e.bodyOf f).nesting m.target.args).map
        (TypeExpr.mapSpans σ) =
      (env'.siteArgs e' (e'.bodyOf f').typeParams (e.bodyOf f).nesting m'.target.args).map
        (TypeExpr.mapSpans σ) := by
    rw [siteArgs, siteArgs, List.map_map, List.map_map, ← he.params]
    rw [← hf.nesting] at hargs
    exact hargs
  rw [Environment.mixinSplice?, Environment.mixinSplice?, ← htarget, ← hnesting,
    ← resolve?_congr h.kind?]
  cases env.resolve? m.target.name (e.bodyOf f).nesting .asType with
  | none => rfl
  | some target =>
    dsimp only
    rw [← h.kind?]
    cases env.kind? target with
    | none => rfl
    | some kind =>
      dsimp only
      rw [← he.kind, ← hkind]
      split
      · have hbinding := mapSpans_bindArgs σ (h.names_paramsOf target) hsite
        exact congrArg (fun binding => some (Splice.mk _ binding _)) hbinding
      · rfl

theorem mixinSplices {e e' : Entry} (he : e.SameReading σ env env' e') (directive : MixinKind) :
    (env.mixinSplices e directive).map (Splice.mapSpans σ) =
      (env'.mixinSplices e' directive).map (Splice.mapSpans σ) := by
  rw [Environment.mixinSplices, Environment.mixinSplices, List.map_flatMap, List.map_flatMap]
  refine flatMap_eq_of_forall₂ ?_ he.bodies
  rintro b b' ⟨f, f', rfl, rfl, hf⟩
  rw [Body.filterMap_mixins, Body.filterMap_mixins, List.map_filterMap, List.map_filterMap]
  refine filterMap_eq_of_forall₂ (fun m m' hm => ?_) hf.members
  cases hm with
  | mixin kind target args =>
    rw [Member.mixin?, Member.mixin?, ← kind]
    split
    · exact h.mixinSplice? he hf kind target args
    · rw [Option.bind_none, Option.bind_none]
  | _ => simp only [Member.mixin?, Option.bind_none]

theorem superClass? {e e' : Entry} (he : e.SameReading σ env env' e') :
    (env.superClass? e).map (mapSuperClass σ) = (env'.superClass? e').map (mapSuperClass σ) := by
  have hisClass : ∀ name, env.isClass name = env'.isClass name := fun name => by
    rw [isClass, isClass, h.kind?]
  have hdefault : env.defaultSuperClass? e.name = env'.defaultSuperClass? e'.name := by
    rw [defaultSuperClass?, defaultSuperClass?, he.name, hisClass]
  have hwritten : (env.writtenSuperClass? e).map (mapSuperClass σ) =
      (env'.writtenSuperClass? e').map (mapSuperClass σ) := by
    rw [writtenSuperClass?, writtenSuperClass?]
    rcases rel_cases he.superClass? with ⟨hs, hs'⟩ | ⟨⟨s, f⟩, ⟨s', f'⟩, hs, hs', hnesting, hsame⟩
    · rw [hs, hs']
    · rw [hs, hs']
      dsimp only at hnesting hsame ⊢
      rw [← hsame.name, ← hnesting, ← resolve?_congr h.kind?]
      cases env.resolve? s.name f.nesting .asType with
      | none => rfl
      | some name =>
        dsimp only
        rw [← hisClass]
        split
        · have hargs := hsame.args
          rw [← hnesting] at hargs
          refine congrArg (fun args => some (name, args)) ?_
          rw [siteArgs, siteArgs, List.map_map, List.map_map, ← he.params]
          exact hargs
        · rfl
  rw [Environment.superClass?, Environment.superClass?, ← hdefault]
  cases hw : env.writtenSuperClass? e with
  | none =>
    rw [hw] at hwritten
    rw [Option.map_eq_none_iff.1 hwritten.symm]
  | some p =>
    rw [hw] at hwritten
    obtain ⟨p', hp', hp⟩ := Option.map_eq_some_iff.1 hwritten.symm
    rw [hp']
    exact congrArg some hp.symm

/-- Entities that mean the same agree in all that chains depend on. -/
theorem sameSites : env.SameSites σ env' := by
  intro name
  have hname := h name
  generalize env.get? name = found, env'.get? name = found' at hname
  cases hname with
  | none => exact .none
  | some he =>
    exact .some ⟨he.name, he.kind, he.nameSpan, he.params, h.mixinSplices he, h.superClass? he⟩

end Environment.SameReading

end Spans

end RubySig
