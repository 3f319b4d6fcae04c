import RubySig.Proofs.Definition.Agreement
import RubySig.Proofs.Definition.Inheritance
import RubySig.Proofs.Substitution.Renaming

/-!
# The spelling of type parameters

A class or module that is reopened may spell its type parameters with other names.  The names have
no meaning: with another spelling, in which the superclass, the mixins and the types of the members
are renamed along, all chains and all definitions are the same.

* `EntityDecl.respell`, `Entry.respell`, `Environment.respell`: the change of a spelling.
* `EntityDecl.Respellable`, `Fragment.sameReading_respell`: a fragment means the same in another
  spelling, if the new names fit.
* `Entry.typeParams_respell`: the entity keeps its parameters.
* `Environment.respell_keeps_meaning`: the result.
-/

namespace RubySig

/-! ## Another spelling -/

/-- A name with arguments in which variables are renamed. -/
def NamedType.rename (rename : String → String) (type : NamedType) : NamedType :=
  { type with args := type.args.map (TypeExpr.rename rename) }

/-- Renames variables in the types of a member.  A nested declaration has parameters of its own. -/
def Member.rename (rename : String → String) : Member → Member
  | .method m => .method { m with overloads := m.overloads.map (MethodType.rename rename) }
  | .attr a => .attr { a with type := a.type.rename rename }
  | .typedVar v => .typedVar { v with type := v.type.rename rename }
  | .mixin m => .mixin { m with target := m.target.rename rename }
  | .methodAlias a => .methodAlias a
  | .marker m => .marker m
  | .nested d => .nested d

/-- Gives the parameters of a list new names, also in their bounds. -/
def respellParams (params : List TypeParam) (names : List String) : List TypeParam :=
  (params.zip names).map fun p =>
    { p.1 with
      name := p.2
      upperBound := p.1.upperBound.map
        (TypeExpr.rename (respelling (typeParamNames params) names)) }

/-- A class or module with new names for its type parameters. -/
def EntityDecl.respell (names : List String) : EntityDecl → EntityDecl
  | .klass d =>
    .klass { d with
      typeParams := respellParams d.typeParams names
      superClass := d.superClass.map
        (NamedType.rename (respelling (typeParamNames d.typeParams) names))
      members := d.members.map (Member.rename (respelling (typeParamNames d.typeParams) names)) }
  | .module d =>
    .module { d with
      typeParams := respellParams d.typeParams names
      selfTypes := d.selfTypes.map
        (NamedType.rename (respelling (typeParamNames d.typeParams) names))
      members := d.members.map (Member.rename (respelling (typeParamNames d.typeParams) names)) }
  | .interface d => .interface d
  | .typeAlias d => .typeAlias d
  | .constant d => .constant d

/-- `EntityDecl.respell` on a fragment. -/
def Fragment.respell (names : List String) (f : Fragment EntityDecl) : Fragment EntityDecl :=
  { f with decl := f.decl.respell names }

/-- `EntityDecl.respell` on one of the reopenings of an entity. -/
def Entry.respell (i : Nat) (names : List String) (e : Entry) : Entry :=
  { e with reopenings := e.reopenings.modify i (Fragment.respell names) }

/-- `EntityDecl.respell` on one of the reopenings of the entity with a name. -/
def Environment.respell (env : Environment) (name : TypeName) (i : Nat) (names : List String) :
    Environment :=
  match env.get? name with
  | none => env
  | some e => { env with entries := env.entries.insert name (e.respell i names) }

/-- The names of the type parameters that overloads in a body declare. -/
def EntityDecl.overloadParams (d : EntityDecl) : List String :=
  d.members.flatMap fun m => m.overloads.flatMap fun o => typeParamNames o.typeParams

/-! ## Types in another spelling -/

theorem typeParamNames_respellParams {params : List TypeParam} {names : List String}
    (hlength : names.length = params.length) :
    typeParamNames (respellParams params names) = names := by
  rw [typeParamNames, respellParams, List.map_map]
  exact List.map_snd_zip (Nat.le_of_eq hlength)

section Reading

variable (env : Environment) {canonical scope : List String} {params params' : List TypeParam}
  (h : Respells canonical params params') (nesting : Nesting)
  (hscope : ∀ v ∈ scope, v ∈ typeParamNames params ∨ v ∉ typeParamNames params')
include h hscope

theorem reading_rename {t : TypeExpr} (ht : t.ScopedIn scope) :
    env.reading canonical params' nesting
        (t.rename (respelling (typeParamNames params) (typeParamNames params'))) =
      env.reading canonical params nesting t := by
  have hresolved : (env.absolutize nesting t).ScopedIn scope :=
    ht.map fun _ hu => Environment.scopedIn_absolutizeNode nesting hu
  rw [Environment.reading, Environment.reading, Environment.absolutize_rename]
  exact Substitution.apply_rename fun v hv => h.image_respelling (hscope v (hresolved v hv))

theorem readingMethod_rename {m : MethodType} (hm : m.ScopedIn scope)
    (hfresh : ∀ v ∈ typeParamNames params', v ∉ typeParamNames m.typeParams) :
    env.readingMethod canonical params' nesting
        (m.rename (respelling (typeParamNames params) (typeParamNames params'))) =
      env.readingMethod canonical params nesting m := by
  have hresolved : (env.absolutizeMethod nesting m).ScopedIn scope :=
    hm.map fun _ _ _ hu => Environment.scopedIn_absolutizeNode nesting hu
  have hown : typeParamNames (env.absolutizeMethod nesting m).typeParams =
      typeParamNames m.typeParams := MethodType.typeParamNames_map _ m
  rw [Environment.readingMethod, Environment.readingMethod, Environment.absolutizeMethod_rename]
  refine Substitution.applyMethod_rename
    (fun v hv => h.image_respelling (hscope v (hresolved.mem_of_mem_freeVars hv))) fun v hv => ?_
  refine h.respelling_notMem (MethodType.notMem_typeParams_of_mem_freeVars hv) ?_
  rwa [hown]

theorem map_reading_rename {ts : List TypeExpr} (hts : ∀ t ∈ ts, t.ScopedIn scope) :
    ts.map (fun t => (env.reading canonical params nesting t).mapSpans id) =
      (ts.map (TypeExpr.rename (respelling (typeParamNames params)
        (typeParamNames params')))).map fun t =>
          (env.reading canonical params' nesting t).mapSpans id := by
  rw [List.map_map]
  refine List.map_congr_left fun t ht => ?_
  rw [Function.comp_apply, reading_rename env h nesting hscope (hts t ht)]

/-- A member means the same in another spelling. -/
theorem Member.sameReading_rename {m : Member} (hm : m.ScopedIn scope)
    (hfresh : ∀ o ∈ m.overloads, ∀ v ∈ typeParamNames params', v ∉ typeParamNames o.typeParams) :
    m.SameReading id (env.reading canonical params nesting) (env.reading canonical params' nesting)
      (env.readingMethod canonical params nesting) (env.readingMethod canonical params' nesting)
      (m.rename (respelling (typeParamNames params) (typeParamNames params'))) := by
  cases m with
  | method m =>
    refine .method rfl rfl rfl rfl ?_
    rw [List.map_map]
    refine List.map_congr_left fun o ho => ?_
    rw [Function.comp_apply, readingMethod_rename env h nesting hscope (hm o ho) (hfresh o ho)]
  | attr a =>
    refine .attr rfl rfl rfl rfl rfl ?_
    rw [reading_rename env h nesting hscope hm]
  | mixin m => exact .mixin rfl rfl (map_reading_rename env h nesting hscope hm)
  | methodAlias a => exact .methodAlias rfl rfl rfl rfl
  | marker m => exact .marker rfl
  | typedVar v => exact .typedVar _ _
  | nested d => exact .nested _ _

end Reading

/-! ## Fragments in another spelling -/

/-- New names that fit to a declaration of an entity.  There are as many as the declaration and the
entity have parameters, none stands twice, no overload declares one, and only those that are old
names too are free in the declaration. -/
structure EntityDecl.Respellable (canonical names : List String) (d : EntityDecl) : Prop where
  nodup_canonical : canonical.Nodup
  nodup_old : (typeParamNames d.typeParams).Nodup
  nodup_new : names.Nodup
  arity : d.typeParams.length = canonical.length
  length : names.length = d.typeParams.length
  bound : ∀ v ∈ names, v ∉ d.overloadParams
  free : ∀ v ∈ names, v ∈ d.freeVars → v ∈ typeParamNames d.typeParams

namespace EntityDecl.Respellable

variable {canonical names : List String} {d : EntityDecl} (h : d.Respellable canonical names)
include h

theorem respells : Respells canonical d.typeParams (respellParams d.typeParams names) := by
  refine ⟨h.nodup_canonical, h.nodup_old, ?_, h.arity, ?_⟩
  · rw [typeParamNames_respellParams h.length]
    exact h.nodup_new
  · rw [respellParams, List.length_map, List.length_zip, h.length, Nat.min_self]

theorem mem_old_or_notMem_new : ∀ v ∈ d.freeVars, v ∈ typeParamNames d.typeParams ∨
    v ∉ typeParamNames (respellParams d.typeParams names) := by
  intro v hv
  rw [typeParamNames_respellParams h.length]
  exact or_iff_not_imp_right.2 fun hnew => h.free v (not_not.1 hnew) hv

theorem sameReading_members (env : Environment) (nesting : Nesting) :
    List.Forall₂ (Member.SameReading id (env.reading canonical d.typeParams nesting)
        (env.reading canonical (respellParams d.typeParams names) nesting)
        (env.readingMethod canonical d.typeParams nesting)
        (env.readingMethod canonical (respellParams d.typeParams names) nesting))
      d.members
      (d.members.map (Member.rename (respelling (typeParamNames d.typeParams) names))) := by
  refine List.forall₂_map_right_iff.2 (List.forall₂_same.2 fun m hm => ?_)
  have hnames := typeParamNames_respellParams h.length
  have hsame := Member.sameReading_rename env h.respells nesting h.mem_old_or_notMem_new
    (d.scopedIn_freeVars.members m hm) fun o ho v hv hown =>
      h.bound v (hnames ▸ hv) (List.mem_flatMap.2 ⟨m, hm, List.mem_flatMap.2 ⟨o, ho, hown⟩⟩)
  rwa [hnames] at hsame

theorem sameReading_superClass (env : Environment) (nesting : Nesting) {s : NamedType}
    (hs : d.superClass? = some s) :
    NamedType.SameReading id (env.reading canonical d.typeParams nesting)
      (env.reading canonical (respellParams d.typeParams names) nesting)
      s (s.rename (respelling (typeParamNames d.typeParams) names)) := by
  have hargs := map_reading_rename env h.respells nesting h.mem_old_or_notMem_new
    (d.scopedIn_freeVars.superClass s hs)
  rw [typeParamNames_respellParams h.length] at hargs
  exact ⟨rfl, hargs⟩

end EntityDecl.Respellable

/-- A fragment means the same in another spelling. -/
theorem Fragment.sameReading_respell {env env' : Environment}
    (hkind : ∀ name, env.kind? name = env'.kind? name) (name : TypeName) {canonical : List String}
    {f : Fragment EntityDecl} {names : List String} (h : f.decl.Respellable canonical names) :
    Fragment.SameReading id env env' name canonical f (f.respell names) := by
  have hmembers := h.sameReading_members env (f.nesting.enter name.toNamespace)
  obtain ⟨decl, nesting, source⟩ := f
  cases decl with
  | klass d =>
    refine ⟨rfl, ?_, ?_⟩
    · rw [← Environment.reading_congr hkind]
      show Option.Rel _ d.superClass (d.superClass.map _)
      cases hs : d.superClass with
      | none => exact .none
      | some s => exact .some (h.sameReading_superClass env nesting hs)
    · rw [← Environment.reading_congr hkind, ← Environment.readingMethod_congr hkind]
      exact hmembers
  | module d =>
    refine ⟨rfl, .none, ?_⟩
    rw [← Environment.reading_congr hkind, ← Environment.readingMethod_congr hkind]
    exact hmembers
  | interface _ | typeAlias _ | constant _ => exact .refl id hkind _ _ _

/-! ## Entities in another spelling -/

namespace Entry

variable {e : Entry} {i : Nat} {f : Fragment EntityDecl} {names : List String}

theorem fragments_respell (names : List String) (hf : e.reopenings[i]? = some f) :
    ∃ after, e.fragments = e.primary :: e.reopenings.take i ++ f :: after ∧
      (e.respell i names).fragments =
        e.primary :: e.reopenings.take i ++ f.respell names :: after := by
  obtain ⟨hi, rfl⟩ := List.getElem?_eq_some_iff.1 hf
  refine ⟨e.reopenings.drop (i + 1), ?_, ?_⟩
  · rw [List.cons_append, List.getElem_cons_drop, List.take_append_drop]
    rfl
  · rw [List.cons_append, ← List.modify_eq_take_cons_drop hi]
    rfl

/-- Another spelling in a fragment does not change the parameters of the entity, if an earlier
fragment has a list. -/
theorem typeParams_respell (hf : e.reopenings[i]? = some f)
    (hcanonical : ∃ g ∈ e.primary :: e.reopenings.take i, g.decl.typeParams ≠ []) :
    (e.respell i names).typeParams = e.typeParams := by
  obtain ⟨after, hfragments, hrespelled⟩ := fragments_respell names hf
  obtain ⟨g, hg, hne⟩ := hcanonical
  rw [typeParams, typeParams, hfragments, hrespelled, List.map_append, List.map_append]
  exact firstDeclared_append_of_ne ⟨_, List.mem_map_of_mem hg, hne⟩

/-- An entity means the same in another spelling of one of its fragments. -/
theorem sameReading_respell {env env' : Environment}
    (hkind : ∀ name, env.kind? name = env'.kind? name) (hf : e.reopenings[i]? = some f)
    (hcanonical : ∃ g ∈ e.primary :: e.reopenings.take i, g.decl.typeParams ≠ [])
    (hfragment : Fragment.SameReading id env env' e.name e.paramNames f (f.respell names)) :
    e.SameReading id env env' (e.respell i names) := by
  obtain ⟨after, hfragments, hrespelled⟩ := fragments_respell names hf
  refine ⟨rfl, rfl, rfl, ?_, ?_⟩
  · rw [paramNames, paramNames, typeParams_respell hf hcanonical]
  · have hsame : ∀ fs : List (Fragment EntityDecl), List.Forall₂
        (Fragment.SameReading id env env' e.name e.paramNames) fs fs :=
      fun fs => List.forall₂_same.2 fun g _ => .refl id hkind _ _ g
    rw [hfragments, hrespelled]
    exact List.rel_append (hsame _) (.cons hfragment (hsame after))

end Entry

namespace Environment

variable {env : Environment} {name : TypeName} {e : Entry} {i : Nat} {names : List String}

theorem get?_respell (hget : env.get? name = some e) (other : TypeName) :
    (env.respell name i names).get? other =
      if other = name then some (e.respell i names) else env.get? other := by
  rw [respell, hget]
  exact OrderedMap.get?_insert _ _ _ _

theorem kind?_respell (hget : env.get? name = some e) (i : Nat) (names : List String)
    (other : TypeName) :
    env.kind? other = (env.respell name i names).kind? other := by
  rw [kind?, kind?, get?_respell hget]
  split
  · subst other
    rw [hget]
    rfl
  · rfl

/-- The spelling of the type parameters of a reopening has no meaning.  Take the environment of any
sources in which no parameter list repeats a name, and a fragment of a class or module that has a
parameter list and does not provide the parameters of the entity, since a fragment before it has a
list as well.  In another list of distinct names, none is a type parameter of an overload in the
fragment, and none is a free variable of the fragment unless it is in the old list too.  With that
list, and with the variables of the fragment renamed along, every chain and every definition stays
the same, and so does every failure to give one. -/
theorem respell_keeps_meaning {sources : List (SourceId × List Declaration)}
    (henv : env = (mergeSources sources).1) (hdistinct : env.DistinctParams)
    (hget : env.get? name = some e) {f : Fragment EntityDecl} (hf : e.reopenings[i]? = some f)
    (hlist : f.decl.typeParams ≠ [])
    (hcanonical : ∃ g ∈ e.primary :: e.reopenings.take i, g.decl.typeParams ≠ [])
    (hlength : names.length = f.decl.typeParams.length) (hnodup : names.Nodup)
    (hbound : ∀ v ∈ names, v ∉ f.decl.overloadParams)
    (hfree : ∀ v ∈ names, v ∈ f.decl.freeVars → v ∈ typeParamNames f.decl.typeParams)
    (key : ChainKey) :
    (env.respell name i names).ancestors key = env.ancestors key ∧
      (env.respell name i names).definition key = env.definition key := by
  have hkind := kind?_respell hget i names
  have hentity : e ∈ env.entities := OrderedMap.mem_values_of_get? hget
  have hmem : f ∈ e.fragments := List.mem_cons_of_mem _ (List.mem_of_getElem? hf)
  have harity : f.decl.typeParams.length = e.paramNames.length := by
    subst henv
    rw [Entry.paramNames, typeParamNames, List.length_map]
    exact (mergeSources_sameArity hget f hmem).resolve_left hlist
  have hfragment := Fragment.sameReading_respell hkind e.name
    ⟨hdistinct.nodup_paramNames hentity, hdistinct e hentity f hmem, hnodup, harity, hlength,
      hbound, hfree⟩
  have hsame : env.SameReading id (env.respell name i names) := by
    intro other
    rw [get?_respell hget]
    split
    · subst other
      rw [hget]
      exact .some (Entry.sameReading_respell hkind hf hcanonical hfragment)
    · cases env.get? other with
      | none => exact .none
      | some e => exact .some (.refl id hkind e)
  exact ⟨(hsame.ancestors_eq key).symm, (hsame.definition_eq key).symm⟩

end Environment

/-- A class that is reopened with its type parameters in the other order. -/
def knotSetup : SessionSetup :=
  .ofFile "a.rbs" ("module Link[A, B]\nend\n\nclass Knot[S, T]\nend\n\n" ++
    "class Knot[T, S]\n  include Link[T, S]\n  def tie: [U] (S, U) -> T\nend\n")

set_option maxRecDepth 100000 in
/-- The chain and the method of that class are the same if the reopening has other names. -/
theorem knot_respelled : ∃ s e f c d, knotSetup.build = .ok s ∧
    s.env.get? (.topLevel "Knot") = some e ∧ e.reopenings[0]? = some f ∧
    typeParamNames f.decl.typeParams = ["T", "S"] ∧
    typeParamNames (f.respell ["X", "Y"]).decl.typeParams = ["X", "Y"] ∧
    (s.env.respell (.topLevel "Knot") 0 ["X", "Y"]).ancestors (instanceSide "Knot") = .ok c ∧
    c.entries.map AncestorEntry.render = ["::Knot[S, T]", "::Link[S, T]"] ∧
    (s.env.respell (.topLevel "Knot") 0 ["X", "Y"]).definition (instanceSide "Knot") = .ok d ∧
    d.methods.map (fun m => m.overloads.map MethodType.render) = [["[U] (T, U) -> S"]] := by
  obtain ⟨s, hbuild, hs⟩ := exists_ok_of_any knotSetup.build
    (fun s => decide s.env.DistinctParams &&
      ((s.env.get? (.topLevel "Knot")).any fun e : Entry =>
        !e.primary.decl.typeParams.isEmpty && (e.reopenings[0]?).any fun f : Fragment EntityDecl =>
          typeParamNames f.decl.typeParams = ["T", "S"] &&
          typeParamNames (f.respell ["X", "Y"]).decl.typeParams = ["X", "Y"] &&
          f.decl.typeParams.length = 2 &&
          decide (∀ v ∈ ["X", "Y"], v ∉ f.decl.overloadParams ∧ v ∉ f.decl.freeVars)) &&
      (s.env.chain [] (instanceSide "Knot")).toOption.any fun c : Chain =>
        c.entries.map AncestorEntry.render = ["::Knot[S, T]", "::Link[S, T]"] &&
        (s.env.definitionOf c).methods.map (fun m => m.overloads.map MethodType.render) =
          [["[U] (T, U) -> S"]])
    (by decide +kernel)
  simp only [Bool.and_eq_true, decide_eq_true_eq] at hs
  obtain ⟨⟨hdistinct, hentry⟩, hchain⟩ := hs
  obtain ⟨e, he, hentry⟩ := (Option.any_eq_true _ _).1 hentry
  simp only [Bool.and_eq_true] at hentry
  obtain ⟨hprimary, hfragment⟩ := hentry
  obtain ⟨f, hf, hfragment⟩ := (Option.any_eq_true _ _).1 hfragment
  simp only [Bool.and_eq_true, decide_eq_true_eq] at hfragment
  obtain ⟨⟨⟨hold, hnew⟩, hlength⟩, hfresh⟩ := hfragment
  obtain ⟨c, hc, hrender⟩ := exists_ok_of_any _ _ hchain
  simp only [Bool.and_eq_true, decide_eq_true_eq] at hrender
  obtain ⟨parsed, henv⟩ := SessionSetup.env_of_build hbuild
  rw [← Environment.ancestors_eq_chain] at hc
  have hlist : f.decl.typeParams ≠ [] := fun hnil => by
    rw [hnil] at hlength
    cases hlength
  have hcanonical : ∃ g ∈ e.primary :: e.reopenings.take 0, g.decl.typeParams ≠ [] :=
    ⟨e.primary, List.mem_cons_self, fun hnil => by
      rw [hnil] at hprimary
      cases hprimary⟩
  have hsize : ["X", "Y"].length = f.decl.typeParams.length := hlength.symm
  obtain ⟨hancestors, hdefinition⟩ := Environment.respell_keeps_meaning henv hdistinct he hf hlist
    hcanonical hsize (by decide) (fun v hv => (hfresh v hv).1)
    (fun v hv hfree => absurd hfree (hfresh v hv).2) (instanceSide "Knot")
  have hd : s.env.definition (instanceSide "Knot") = .ok (s.env.definitionOf c) := by
    rw [Environment.definition, hc]
    rfl
  exact ⟨s, e, f, c, _, hbuild, he, hf, hold, hnew, hancestors.trans hc, hrender.1,
    hdefinition.trans hd, hrender.2⟩

end RubySig
