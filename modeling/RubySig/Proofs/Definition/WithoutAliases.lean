import RubySig.Proofs.Definition.Agreement

/-!
# Environments without aliases

Aliases matter for method tables only, and there they are a part of their own: what an ancestor
writes itself and all chains are the same if the aliases are left out.

* `Entry.aliases`: the aliases of an entity, `contributedAliases_eq`: those that an ancestor adds.
* `EntityDecl.withoutAliases`, `Entry.withoutAliases`, `Environment.withoutAliases`: declarations
  whose aliases are left out.
* `Environment.ancestors_withoutAliases`: chains do not depend on aliases.
* `Environment.contributed_withoutAliases`: neither do the methods that an ancestor writes.
-/

namespace RubySig

/-! ## The aliases of an entity -/

/-- Whether a member is an alias. -/
def Member.isAlias : Member → Bool
  | .methodAlias _ => true
  | _ => false

/-- The alias that a member is. -/
def Member.alias? : Member → Option AliasMember
  | .methodAlias a => some a
  | _ => none

/-- The aliases in the bodies of an entity, in the order in which they are applied. -/
def Entry.aliases (e : Entry) : List AliasMember :=
  e.bodies.flatMap fun b => b.members.filterMap Member.alias?

/-- An ancestor adds the aliases of its entity that belong to its side. -/
theorem contributedAliases_eq (p : AncestorEntry) (e : Entry) :
    contributedAliases p e = e.aliases.filter fun a => a.singleton = p.context.isSingleton := by
  rw [contributedAliases, Entry.aliases, List.filter_flatMap]
  refine List.flatMap_congr fun b _ => ?_
  rw [List.filter_filterMap]
  refine List.filterMap_congr fun m _ => ?_
  cases m with
  | methodAlias a => simp [Member.alias?, Option.filter]
  | _ => rfl

/-! ## Entities without their aliases -/

/-- A declaration without the aliases in its body. -/
def EntityDecl.withoutAliases : EntityDecl → EntityDecl
  | klass d => klass { d with members := d.members.filter (!·.isAlias) }
  | module d => module { d with members := d.members.filter (!·.isAlias) }
  | interface d => interface { d with members := d.members.filter (!·.isAlias) }
  | d => d

/-- A fragment without the aliases in its body. -/
def Fragment.withoutAliases (f : Fragment EntityDecl) : Fragment EntityDecl :=
  { f with decl := f.decl.withoutAliases }

/-- An entity without the aliases in its bodies. -/
def Entry.withoutAliases (e : Entry) : Entry :=
  ⟨e.name, e.primary.withoutAliases, e.reopenings.map Fragment.withoutAliases⟩

/-- An environment whose entities have no aliases in their bodies. -/
def Environment.withoutAliases (env : Environment) : Environment :=
  { env with entries := env.entries.mapValues Entry.withoutAliases }

namespace EntityDecl

variable (d : EntityDecl)

@[simp] theorem kind_withoutAliases : d.withoutAliases.kind = d.kind := by
  cases d <;> rfl

@[simp] theorem nameSpan_withoutAliases : d.withoutAliases.nameSpan = d.nameSpan := by
  cases d <;> rfl

@[simp] theorem typeParams_withoutAliases : d.withoutAliases.typeParams = d.typeParams := by
  cases d <;> rfl

@[simp] theorem superClass?_withoutAliases : d.withoutAliases.superClass? = d.superClass? := by
  cases d <;> rfl

@[simp] theorem members_withoutAliases :
    d.withoutAliases.members = d.members.filter (!·.isAlias) := by
  cases d <;> rfl

end EntityDecl

namespace Entry

variable (e : Entry)

@[simp] theorem name_withoutAliases : e.withoutAliases.name = e.name := rfl

@[simp] theorem kind_withoutAliases : e.withoutAliases.kind = e.kind :=
  e.primary.decl.kind_withoutAliases

@[simp] theorem nameSpan_withoutAliases : e.withoutAliases.nameSpan = e.nameSpan :=
  e.primary.decl.nameSpan_withoutAliases

theorem fragments_withoutAliases :
    e.withoutAliases.fragments = e.fragments.map Fragment.withoutAliases := rfl

@[simp] theorem paramNames_withoutAliases : e.withoutAliases.paramNames = e.paramNames := by
  have hparams : ∀ f : Fragment EntityDecl, f.withoutAliases.decl.typeParams = f.decl.typeParams :=
    fun f => f.decl.typeParams_withoutAliases
  rw [paramNames, paramNames, typeParams, typeParams, fragments_withoutAliases, List.map_map]
  simp only [Function.comp_def, hparams]

/-- The bodies of an entity without its aliases. -/
theorem bodies_withoutAliases : e.withoutAliases.bodies =
    e.bodies.map fun b => { b with members := b.members.filter (!·.isAlias) } := by
  have hbodies : e.withoutAliases.hasBodies = e.hasBodies := by
    rw [hasBodies, hasBodies, kind_withoutAliases]
  rw [bodies, bodies, hbodies, fragments_withoutAliases]
  split
  · rw [List.map_map, List.map_map]
    refine List.map_congr_left fun f _ => ?_
    simp [bodyOf, Fragment.withoutAliases]
  · rfl

theorem superClass?_withoutAliases : e.withoutAliases.superClass? =
    e.superClass?.map fun p => (p.1, p.2.withoutAliases) := by
  rw [superClass?, superClass?, fragments_withoutAliases]
  induction e.fragments with
  | nil => rfl
  | cons f rest ih =>
    rw [List.map_cons, List.findSome?_cons, List.findSome?_cons]
    have hsuper : f.withoutAliases.decl.superClass? = f.decl.superClass? :=
      f.decl.superClass?_withoutAliases
    rw [hsuper]
    cases f.decl.superClass? with
    | none => exact ih
    | some s => rfl

end Entry

/-- What a body contributes does not come from its aliases. -/
theorem contributedFrom_withoutAliases (p : AncestorEntry) (prepare : MethodType → MethodType)
    (sect : Visibility) (members : List Member) :
    contributedFrom p prepare sect (members.filter (!·.isAlias)) =
      contributedFrom p prepare sect members := by
  induction members generalizing sect with
  | nil => rfl
  | cons m rest ih =>
    cases m with
    | methodAlias a =>
      rw [List.filter_cons_of_neg (by simp [Member.isAlias]), contributedFrom]
      exact ih sect
    | method m | attr a | marker m | mixin m | typedVar m | nested d =>
      rw [List.filter_cons_of_pos (by simp [Member.isAlias])]
      simp only [contributedFrom, ih]

/-- A body mixes in the same without its aliases. -/
theorem Body.mixins_withoutAliases (b : Body) (directive : MixinKind) :
    Body.mixins { b with members := b.members.filter (!·.isAlias) } directive =
      b.mixins directive := by
  rw [Body.mixins, Body.mixins, List.filterMap_filter]
  refine List.filterMap_congr fun m _ => ?_
  cases m <;> simp [Member.isAlias]

namespace Environment

variable (env : Environment)

theorem get?_withoutAliases (name : TypeName) :
    env.withoutAliases.get? name = (env.get? name).map Entry.withoutAliases :=
  OrderedMap.get?_mapValues _ _ _

@[simp] theorem kind?_withoutAliases (name : TypeName) :
    env.withoutAliases.kind? name = env.kind? name := by
  rw [kind?, kind?, get?_withoutAliases, Option.map_map]
  exact Option.map_congr fun e _ => e.kind_withoutAliases

@[simp] theorem isClass_withoutAliases (name : TypeName) :
    env.withoutAliases.isClass name = env.isClass name := by
  rw [isClass, isClass, kind?_withoutAliases]

theorem names_paramsOf_withoutAliases (name : TypeName) :
    typeParamNames (env.withoutAliases.paramsOf name) = typeParamNames (env.paramsOf name) := by
  rw [paramsOf, paramsOf, get?_withoutAliases]
  cases env.get? name with
  | none => rfl
  | some e => exact e.paramNames_withoutAliases

theorem absolutize_withoutAliases : env.withoutAliases.absolutize = env.absolutize := by
  funext nesting t
  rw [absolutize, absolutize, funext (absolutizeNode_congr env.kind?_withoutAliases nesting)]

theorem absolutizeMethod_withoutAliases :
    env.withoutAliases.absolutizeMethod = env.absolutizeMethod := by
  funext nesting m
  rw [absolutizeMethod, absolutizeMethod,
    funext (absolutizeNode_congr env.kind?_withoutAliases nesting)]

theorem siteArgs_withoutAliases (e : Entry) (params : List TypeParam) (nesting : Nesting)
    (args : List TypeExpr) :
    env.withoutAliases.siteArgs e.withoutAliases params nesting args =
      env.siteArgs e params nesting args := by
  rw [siteArgs, siteArgs, e.paramNames_withoutAliases, absolutize_withoutAliases]

theorem bindArgs_withoutAliases (target : TypeName) (args : List TypeExpr) :
    env.withoutAliases.bindArgs target args = env.bindArgs target args := by
  rw [bindArgs, bindArgs, names_paramsOf_withoutAliases]

theorem mixinSplices_withoutAliases (e : Entry) (directive : MixinKind) :
    env.withoutAliases.mixinSplices e.withoutAliases directive = env.mixinSplices e directive := by
  rw [mixinSplices, mixinSplices, e.bodies_withoutAliases, List.flatMap_map]
  refine List.flatMap_congr fun b _ => ?_
  rw [b.mixins_withoutAliases]
  refine List.filterMap_congr fun m _ => ?_
  simp only [mixinSplice?, resolve?_congr env.kind?_withoutAliases, kind?_withoutAliases,
    siteArgs_withoutAliases, bindArgs_withoutAliases, Entry.kind_withoutAliases]

theorem superClass?_withoutAliases (e : Entry) :
    env.withoutAliases.superClass? e.withoutAliases = env.superClass? e := by
  have hparams : ∀ f : Fragment EntityDecl, f.withoutAliases.decl.typeParams = f.decl.typeParams :=
    fun f => f.decl.typeParams_withoutAliases
  have hnesting : ∀ f : Fragment EntityDecl, f.withoutAliases.nesting = f.nesting := fun _ => rfl
  have hwritten : env.withoutAliases.writtenSuperClass? e.withoutAliases =
      env.writtenSuperClass? e := by
    rw [writtenSuperClass?, writtenSuperClass?, e.superClass?_withoutAliases]
    cases e.superClass? with
    | none => rfl
    | some p =>
      simp only [Option.map_some, hparams, hnesting, resolve?_congr env.kind?_withoutAliases,
        isClass_withoutAliases, siteArgs_withoutAliases]
  have hdefault : env.withoutAliases.defaultSuperClass? e.withoutAliases.name =
      env.defaultSuperClass? e.name := by
    rw [defaultSuperClass?, defaultSuperClass?, isClass_withoutAliases, e.name_withoutAliases]
  rw [superClass?, superClass?, hwritten, hdefault]

/-- No chain depends on aliases. -/
theorem ancestors_withoutAliases (key : ChainKey) :
    env.withoutAliases.ancestors key = env.ancestors key := by
  have hsites : env.withoutAliases.SameSites id env := by
    intro name
    rw [get?_withoutAliases]
    cases env.get? name with
    | none => exact .none
    | some e =>
      refine .some ⟨rfl, e.kind_withoutAliases, e.nameSpan_withoutAliases,
        e.paramNames_withoutAliases, fun directive => ?_, ?_⟩
      · rw [mixinSplices_withoutAliases]
      · rw [superClass?_withoutAliases]
  have hsame := hsites.ancestors key
  rwa [mapAnswer_id Chain.mapSpans_id, mapAnswer_id Chain.mapSpans_id] at hsame

/-- The methods and accessors that an ancestor writes do not depend on its aliases. -/
theorem contributed_withoutAliases (p : AncestorEntry) (e : Entry) :
    contributed env.withoutAliases p e.withoutAliases = contributed env p e := by
  rw [contributed, contributed, e.bodies_withoutAliases, List.flatMap_map]
  refine List.flatMap_congr fun b _ => ?_
  rw [contributedFrom_withoutAliases]
  have hprepare : prepareOverload env.withoutAliases p e.withoutAliases.paramNames
        { b with members := b.members.filter (!·.isAlias) } =
      prepareOverload env p e.paramNames b := by
    funext m
    rw [prepareOverload, prepareOverload, absolutizeMethod_withoutAliases,
      e.paramNames_withoutAliases]
  rw [hprepare]

end Environment

end RubySig
