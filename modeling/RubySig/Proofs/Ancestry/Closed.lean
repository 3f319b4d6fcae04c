import RubySig.Proofs.Definition.Inheritance
import RubySig.Proofs.Validation.Soundness

/-!
# Chains are closed

In the instance chain of an entity every ancestor binds the type parameters of its own entity, in
their order, and the types that they stand for have no other variables than the type parameters of
the entity whose chain it is.  Arguments are written in terms of what a fragment sees, so they are
renamed to the entity's own type parameters before they are put in; and a chain that is put into
another one has no variable that the place does not bind.

* `Substitution.ScopedIn`, `Substitution.scopedIn_apply`, `Substitution.ScopedIn.compose`:
  substitutions by types in a scope.
* `Environment.names_bindArgs`: the parameters that a place binds.
* `Environment.args_of_pieceOf`: what is written at a place of the instance side.
* `Environment.ClosedIn`: an ancestor that binds its own parameters by types in a scope.
* `Environment.closedIn_of_mem_ancestors`: every ancestor is closed in the scope of the entity.
-/

namespace RubySig

/-! ## Substitutions by types in a scope -/

namespace Substitution

variable {scope : List String} {s t : Substitution}

/-- All types that the parameters stand for are in a scope. -/
def ScopedIn (scope : List String) (s : Substitution) : Prop := ∀ t ∈ s.values, t.ScopedIn scope

theorem ScopedIn.image (h : s.ScopedIn scope) {v : String} (hv : v ∈ s.names) :
    (s.image v).ScopedIn scope := by
  obtain ⟨u, hu⟩ := OrderedMap.exists_get?_of_mem_keys hv
  rw [Substitution.image, get?, hu]
  exact h u (OrderedMap.mem_values_of_get? hu)

/-- What is put in for the variables of a type decides its scope. -/
theorem scopedIn_apply {x : TypeExpr} (h : ∀ v ∈ x.vars, (s.image v).ScopedIn scope) :
    (s.apply x).ScopedIn scope := by
  intro u hu
  rw [vars_apply] at hu
  obtain ⟨v, hv, huv⟩ := List.mem_flatMap.1 hu
  exact h v hv u huv

/-- The outer substitution decides the scope, if it binds all variables of the inner one. -/
theorem ScopedIn.compose (h : s.ScopedIn scope) (ht : t.ScopedIn s.names) :
    (s.compose t).ScopedIn scope := by
  intro x hx
  obtain ⟨p, hp, rfl⟩ := List.mem_map.1 hx
  obtain ⟨q, hq, rfl⟩ := List.mem_map.1 hp
  have hvars : q.2.ScopedIn s.names := ht q.2 (List.mem_map_of_mem hq)
  exact scopedIn_apply fun v hv => h.image (hvars v hv)

theorem scopedIn_ofList {bindings : List (String × TypeExpr)}
    (h : ∀ p ∈ bindings, p.2.ScopedIn scope) : (ofList bindings).ScopedIn scope := by
  intro x hx
  obtain ⟨p, hp, rfl⟩ := List.mem_map.1 hx
  exact h p (OrderedMap.mem_pairs_ofList hp)

theorem scopedIn_identity (params : List String) : (identity params).ScopedIn params :=
  scopedIn_ofList (List.forall_mem_map.2 fun _ hp => TypeExpr.scopedIn_var.2 hp)

/-- Where the arguments have run out there is no variable at all. -/
theorem scopedIn_bind {args : List TypeExpr} (h : ∀ a ∈ args, a.ScopedIn scope)
    (params : List String) : (bind params args).ScopedIn scope := by
  refine scopedIn_ofList ?_
  induction params generalizing args with
  | nil => exact fun _ hp => absurd hp List.not_mem_nil
  | cons p params ih =>
    cases args with
    | nil => exact List.forall_mem_cons.2 ⟨TypeExpr.scopedIn_special _, ih h⟩
    | cons a args =>
      obtain ⟨ha, hargs⟩ := List.forall_mem_cons.1 h
      exact List.forall_mem_cons.2 ⟨ha, ih hargs⟩

/-! ## Parameters in their order -/

/-- Parameters without repetition are bound in their order. -/
theorem names_ofList {bindings : List (String × TypeExpr)} (h : (bindings.map (·.1)).Nodup) :
    (ofList bindings).names = bindings.map (·.1) := by
  rw [names, ofList, OrderedMap.ofList_of_nodup h]
  rfl

theorem names_identity {params : List String} (h : params.Nodup) :
    (identity params).names = params := by
  have hfst : (params.map fun p => (p, TypeExpr.var p)).map (·.1) = params := by
    rw [List.map_map, Function.comp_def, List.map_id']
  rw [identity, names_ofList (hfst.symm ▸ h), hfst]

theorem names_bind {params : List String} (h : params.Nodup) (args : List TypeExpr) :
    (bind params args).names = params := by
  rw [bind, names_ofList ((map_fst_pairArgs params args).symm ▸ h), map_fst_pairArgs]

end Substitution

namespace Environment

variable {env : Environment} {e : Entry}

/-! ## What a place binds -/

theorem paramsOf_of_get? {name : TypeName} (h : env.get? name = some e) :
    typeParamNames (env.paramsOf name) = e.paramNames := by
  rw [paramsOf, h]
  rfl

/-- A place binds the type parameters of its target. -/
theorem names_bindArgs (hdistinct : env.DistinctParams) {target : TypeName}
    (h : env.get? target = some e) (args : List TypeExpr) :
    (env.bindArgs target args).names = e.paramNames := by
  rw [bindArgs, paramsOf_of_get? h]
  exact Substitution.names_bind
    (hdistinct.nodup_paramNames (OrderedMap.mem_values_of_get? h)) args

/-- Arguments that are written in a fragment are in the scope of the entity's own type parameters
once they are renamed to them. -/
theorem scopedIn_siteArgs (hscoped : e.Scoped) (hnodup : e.paramNames.Nodup)
    {f : Fragment EntityDecl} (hf : f ∈ e.fragments) {args : List TypeExpr}
    (hargs : ∀ a ∈ args, a.ScopedIn (e.scopeOf f)) (nesting : Nesting) :
    ∀ a ∈ env.siteArgs e f.decl.typeParams nesting args, a.ScopedIn e.paramNames := by
  refine List.forall_mem_map.2 fun a ha => Substitution.scopedIn_apply fun v hv => ?_
  have hwritten : (env.absolutize nesting a).ScopedIn (e.scopeOf f) :=
    (hargs a ha).map fun _ ht => scopedIn_absolutizeNode nesting ht
  obtain ⟨p, hp, himage⟩ := exists_param_of_mem_scopeOf hscoped hnodup hf (hwritten v hv)
  rw [himage]
  exact TypeExpr.scopedIn_var.2 hp

/-- A directive binds the type parameters of its target to arguments in the scope of the entity. -/
theorem args_of_mem_mixinSplices (hscoped : e.Scoped) (hnodup : e.paramNames.Nodup) {s : Splice}
    {directive : MixinKind} (h : s ∈ env.mixinSplices e directive) :
    ∃ args, s.binding = env.bindArgs s.key.name args ∧ s.key.context = .onInstance ∧
      ∀ a ∈ args, a.ScopedIn e.paramNames := by
  obtain ⟨b, hb, m, hm, -, hsplice⟩ := exists_of_mem_mixinSplices h
  obtain ⟨target, kind, -, -, -, rfl⟩ := mixinSplice?_eq_some hsplice
  rw [Entry.bodies] at hb
  split at hb
  · obtain ⟨f, hf, rfl⟩ := List.mem_map.1 hb
    have hwritten : ∀ a ∈ m.target.args, a.ScopedIn (e.scopeOf f) :=
      (hscoped.closed f hf).members _ hm
    exact ⟨_, rfl, rfl, scopedIn_siteArgs hscoped hnodup hf hwritten _⟩
  · exact absurd hb List.not_mem_nil

/-- The arguments of the superclass are in the scope of the class. -/
theorem scopedIn_superClass (hscoped : e.Scoped) (hnodup : e.paramNames.Nodup) {name : TypeName}
    {args : List TypeExpr} (h : env.superClass? e = some (name, args)) :
    ∀ a ∈ args, a.ScopedIn e.paramNames := by
  obtain ⟨-, rfl | ⟨t, f, hwritten, -, rfl⟩⟩ := superClass?_eq_some h
  · exact fun _ ha => absurd ha List.not_mem_nil
  · obtain ⟨hf, ht⟩ := superClass?_written hwritten
    exact scopedIn_siteArgs hscoped hnodup hf ((hscoped.closed f hf).superClass t ht) _

/-- A place of the instance side binds the type parameters of its target to arguments in the scope
of the entity. -/
theorem args_of_pieceOf (hscoped : e.Scoped) (hnodup : e.paramNames.Nodup) {s : Splice}
    (h : env.PieceOf e .onInstance s) :
    ∃ args, s.binding = env.bindArgs s.key.name args ∧ s.key.context = .onInstance ∧
      ∀ a ∈ args, a.ScopedIn e.paramNames := by
  rcases pieceOf_onInstance_iff.1 h with hs | hs | ⟨-, hs⟩
  · exact args_of_mem_mixinSplices hscoped hnodup hs
  · exact args_of_mem_mixinSplices hscoped hnodup hs
  · rw [superClassSplices] at hs
    split at hs
    · exact absurd hs List.not_mem_nil
    · rename_i name args hsuper
      rw [List.mem_singleton.1 hs]
      exact ⟨args, rfl, rfl, scopedIn_superClass hscoped hnodup hsuper⟩

/-! ## Closed ancestors -/

/-- An ancestor binds the type parameters of its entity in their order, by types in a scope. -/
structure ClosedIn (env : Environment) (scope : List String) (p : AncestorEntry) : Prop where
  /-- The parameters that are bound. -/
  params : ∃ declared, env.get? p.name = some declared ∧
    p.substitution.names = declared.paramNames
  /-- What they stand for. -/
  values : p.substitution.ScopedIn scope

/-- An entity is closed in its own scope. -/
theorem closedIn_ownEntry (henv : env.Anchored) (hdistinct : env.DistinctParams) {name : TypeName}
    (he : env.get? name = some e) : env.ClosedIn e.paramNames (ownEntry e .onInstance) where
  params := ⟨e, by rw [ownEntry, (henv name e he).named, he], Substitution.names_identity
    (hdistinct.nodup_paramNames (OrderedMap.mem_values_of_get? he))⟩
  values := Substitution.scopedIn_identity e.paramNames

/-- Every ancestor in the chain of a side of instances is closed in the scope of the entity. -/
theorem closedIn_of_mem_entries (henv : env.OfTexts) (hdistinct : env.DistinctParams)
    {key : ChainKey} {c : Chain} (h : env.chain [] key = .ok c) (hside : key.context = .onInstance)
    (he : env.get? key.name = some e) : ∀ p ∈ c.entries, env.ClosedIn e.paramNames p := by
  have hanchored := henv.anchored
  induction h using chainOkInduction generalizing e with
  | step key b chainOf hb hparts _ =>
    intro p hp
    obtain ⟨e', he', hpieces⟩ := pieces_of_blueprint hb
    obtain rfl := Option.some.inj (he.symm.trans he')
    rw [hside] at hpieces
    rcases Blueprint.mem_join hp with rfl | ⟨s, hs, q, hq, hkey, hsubst⟩
    · rw [hpieces.own]
      exact closedIn_ownEntry hanchored hdistinct he
    · obtain ⟨hname, -⟩ := ChainKey.mk.inj hkey
      obtain ⟨args, hbinding, hinstance, hargs⟩ := args_of_pieceOf (henv.scoped _ e he)
        (hdistinct.nodup_paramNames (OrderedMap.mem_values_of_get? he)) ((hpieces.splices s).1 hs)
      obtain ⟨hjoined, ih⟩ := hparts s.key (Blueprint.key_mem_keys hs)
      obtain ⟨parts, hparts, -⟩ := parts_of_chain_ok hjoined
      obtain ⟨target, htarget, -⟩ := env.get?_of_blueprint hparts
      have hclosed := ih hinstance htarget q hq
      refine ⟨?_, ?_⟩
      · rw [hname, hsubst, Substitution.names_compose]
        exact hclosed.params
      · -- the target's parameters are all that the place has to bind
        have hbound : s.binding.names = target.paramNames := by
          rw [hbinding, names_bindArgs hdistinct htarget]
        have hscope : s.binding.ScopedIn e.paramNames := by
          rw [hbinding]
          exact Substitution.scopedIn_bind hargs _
        rw [hsubst]
        exact hscope.compose (hbound ▸ hclosed.values)

/-- In the instance chain of an entity every ancestor binds the type parameters of its own entity in
their order, and all variables of what they stand for are type parameters of the entity. -/
theorem closedIn_of_mem_ancestors (henv : env.OfTexts) (hdistinct : env.DistinctParams)
    {name : TypeName} (he : env.get? name = some e) {c : Chain}
    (h : env.ancestors ⟨name, .onInstance⟩ = .ok c) :
    ∀ p ∈ c.entries, env.ClosedIn e.paramNames p := by
  rw [ancestors_eq_chain] at h
  exact closedIn_of_mem_entries henv hdistinct h rfl he

end Environment

/-- A class whose superclass and module are written where it is reopened under another name of its
type parameter.  The superclass has one argument too few, and the module includes another one. -/
def boxSetup : SessionSetup :=
  .ofFile "a.rbs" ("module Pair[A, B]\nend\n\n" ++
    "module Wrap[T]\n  include Pair[T, Wrap[T]]\nend\n\n" ++
    "class Base[X, Y]\nend\n\nclass Box[V]\nend\n\n" ++
    "class Box[W] < Base[W]\n  include Wrap[W?]\nend\n")

set_option maxRecDepth 100000 in
/-- In the chain of that class all types are in terms of the parameter that it has at first. -/
theorem box_closedIn : ∃ s e c, boxSetup.build = .ok s ∧ s.env.get? (.topLevel "Box") = some e ∧
    e.paramNames = ["V"] ∧ s.env.ancestors (instanceSide "Box") = .ok c ∧
    c.entries.map AncestorEntry.render =
      ["::Box[V]", "::Wrap[V?]", "::Pair[V?, ::Wrap[V?]]", "::Base[V, untyped]"] ∧
    ∀ p ∈ c.entries, s.env.ClosedIn ["V"] p := by
  obtain ⟨s, hbuild, hs⟩ := exists_ok_of_any boxSetup.build
    (fun s => decide s.env.DistinctParams &&
      ((s.env.get? (.topLevel "Box")).any fun e => e.paramNames = ["V"]) &&
      (s.env.chain [] (instanceSide "Box")).toOption.any fun c =>
        c.entries.map AncestorEntry.render =
          ["::Box[V]", "::Wrap[V?]", "::Pair[V?, ::Wrap[V?]]", "::Base[V, untyped]"])
    (by decide +kernel)
  simp only [Bool.and_eq_true, decide_eq_true_eq] at hs
  obtain ⟨⟨hdistinct, hentry⟩, hchain⟩ := hs
  obtain ⟨e, he, hparams⟩ := (Option.any_eq_true _ _).1 hentry
  have hparams : e.paramNames = ["V"] := of_decide_eq_true hparams
  obtain ⟨c, hc, hrender⟩ := exists_ok_of_any _ _ hchain
  obtain ⟨errors, hparsed, henv, -⟩ := SessionSetup.parsed_of_build hbuild
  rw [← Environment.ancestors_eq_chain] at hc
  refine ⟨s, e, c, hbuild, he, hparams, hc, of_decide_eq_true hrender, ?_⟩
  rw [← hparams]
  exact Environment.closedIn_of_mem_ancestors ⟨_, parseSources_read hparsed, henv⟩ hdistinct he hc

end RubySig
