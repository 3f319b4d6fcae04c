import RubySig.Proofs.Ancestry.Pieces

/-!
# The places where a chain takes in another one

* `Environment.SpliceOf`: what a chain takes in is a mixin target, the superclass that is written,
  or a class that needs no arguments.
* `Environment.spliceOf_of_pieceOf`: nothing else is part of a blueprint.
* `Environment.Askable`: a side of a declared entity that has methods.
* `Environment.askable_of_depends`: a chain takes in such sides only.
* `Environment.chain_error_cases`: where the chain of such a side fails.
* `Environment.diagnostic_of_chain_error`: if the chain of such a side cannot be built, there is a
  diagnostic that says why.
-/

namespace RubySig

namespace Environment

variable {env : Environment} {e : Entry}

/-! ## Splices -/

/-- What the chains of an entity take in. -/
inductive SpliceOf (env : Environment) (e : Entry) : Splice → Prop
  /-- The target of a directive. -/
  | mixin {b : Body} {m : Mixin} {target : TypeName} {kind : EntityKind} (hb : b ∈ e.bodies)
      (hm : Member.mixin m ∈ b.members)
      (hresolve : env.resolve m.target.name b.nesting .asType = .ok target)
      (hkind : env.kind? target = some kind) (hallowed : mixinAllowed e.kind m.kind kind) :
      SpliceOf env e ⟨⟨target, .onInstance⟩,
        env.bindArgs target (env.siteArgs e b.typeParams b.nesting m.target.args),
        mixinOrigin m.kind kind⟩
  /-- The superclass that is written. -/
  | superClass {s : NamedType} {f : Fragment EntityDecl} {name : TypeName}
      (hwritten : e.superClass? = some (s, f))
      (hresolve : env.resolve s.name f.nesting .asType = .ok name) (hclass : env.isClass name) :
      SpliceOf env e ⟨⟨name, .onInstance⟩,
        env.bindArgs name (env.siteArgs e f.decl.typeParams f.nesting s.args), .superclass⟩
  /-- A class with no arguments. -/
  | plain {key : ChainKey} {binding : Substitution} {origin : Origin}
      (hclass : env.isClass key.name)
      (hbinding : binding = .empty ∨ binding = env.bindArgs key.name []) :
      SpliceOf env e ⟨key, binding, origin⟩

theorem spliceOf_of_mem_mixinSplices {directive : MixinKind} {s : Splice}
    (h : s ∈ env.mixinSplices e directive) : env.SpliceOf e s := by
  obtain ⟨b, hb, m, hm, -, hsplice⟩ := exists_of_mem_mixinSplices h
  obtain ⟨target, kind, hresolve, hkind, hallowed, rfl⟩ := mixinSplice?_eq_some hsplice
  exact .mixin hb hm hresolve hkind hallowed

theorem spliceOf_of_mem_metaclassSplices {name : String} {s : Splice}
    (h : s ∈ env.metaclassSplices name) : env.SpliceOf e s := by
  rw [metaclassSplices] at h
  split at h
  · rw [List.mem_singleton.1 h]
    exact .plain ‹_› (Or.inl rfl)
  · exact absurd h List.not_mem_nil

/-- What the superclass that is written stands for. -/
theorem writtenSuperClass?_eq_some {name : TypeName} {args : List TypeExpr}
    (h : env.writtenSuperClass? e = some (name, args)) :
    ∃ s f, e.superClass? = some (s, f) ∧ env.resolve? s.name f.nesting .asType = some name ∧
      env.isClass name ∧ args = env.siteArgs e f.decl.typeParams f.nesting s.args := by
  rw [writtenSuperClass?] at h
  split at h
  · cases h
  · rename_i s f hwritten
    split at h
    · cases h
    · rename_i found hresolve
      split at h
      · obtain ⟨rfl, rfl⟩ := Prod.mk.inj (Option.some.inj h)
        exact ⟨s, f, hwritten, hresolve, ‹_›, rfl⟩
      · cases h

/-- The superclass is the one that is written, or a class without arguments. -/
theorem superClass?_eq_some {name : TypeName} {args : List TypeExpr}
    (h : env.superClass? e = some (name, args)) :
    env.isClass name ∧ (args = [] ∨ ∃ s f, e.superClass? = some (s, f) ∧
      env.resolve s.name f.nesting .asType = .ok name ∧
      args = env.siteArgs e f.decl.typeParams f.nesting s.args) := by
  rw [superClass?, Option.or_eq_some_iff] at h
  rcases h with h | ⟨-, h⟩
  · obtain ⟨s, f, hwritten, hresolve, hclass, rfl⟩ := writtenSuperClass?_eq_some h
    exact ⟨hclass, Or.inr ⟨s, f, hwritten, resolve?_eq_some_iff.1 hresolve, rfl⟩⟩
  · rw [defaultSuperClass?] at h
    split at h
    · cases h
    · rename_i hdefault
      obtain ⟨rfl, rfl⟩ := Prod.mk.inj (Option.some.inj h)
      simp only [Bool.or_eq_true, not_or, Bool.not_eq_true, Bool.not_eq_false'] at hdefault
      exact ⟨hdefault.2, Or.inl rfl⟩

theorem spliceOf_of_mem_superClassSplices {s : Splice} (h : s ∈ env.superClassSplices e) :
    env.SpliceOf e s := by
  rw [superClassSplices] at h
  split at h
  · exact absurd h List.not_mem_nil
  · rename_i name args hsuper
    rw [List.mem_singleton.1 h]
    obtain ⟨hclass, rfl | ⟨s, f, hwritten, hresolve, rfl⟩⟩ := superClass?_eq_some hsuper
    · exact .plain hclass (Or.inr rfl)
    · exact .superClass hwritten hresolve hclass

theorem spliceOf_of_mem_singletonSuperSplices {s : Splice} (h : s ∈ env.singletonSuperSplices e) :
    env.SpliceOf e s := by
  rw [singletonSuperSplices] at h
  split at h
  · exact spliceOf_of_mem_metaclassSplices h
  · rename_i name args hsuper
    rw [List.mem_singleton.1 h]
    exact .plain (superClass?_eq_some hsuper).1 (Or.inl rfl)

/-- A chain takes in nothing but mixin targets, superclasses and the classes behind them. -/
theorem spliceOf_of_pieceOf {context : Context} {s : Splice} (h : env.PieceOf e context s) :
    env.SpliceOf e s := by
  cases h with
  | mixin _ h => exact spliceOf_of_mem_mixinSplices h
  | superClass _ _ h => exact spliceOf_of_mem_superClassSplices h
  | singletonSuper _ _ h => exact spliceOf_of_mem_singletonSuperSplices h
  | moduleClass _ _ h => exact spliceOf_of_mem_metaclassSplices h

/-! ## Sides that have methods -/

/-- A side of a declared entity that has methods: both sides of a class or module, and the instance
side of an interface. -/
def Askable (env : Environment) (key : ChainKey) : Prop :=
  ∃ e, env.get? key.name = some e ∧ key.context ∈ sides e.kind

theorem askable_of_isClass {key : ChainKey} (h : env.isClass key.name) : env.Askable key := by
  obtain ⟨e, he, hkind⟩ := isClass_iff.1 h
  refine ⟨e, he, ?_⟩
  rw [hkind]
  cases key.context <;> decide

/-- Only modules and interfaces are mixed in, and their instance sides have methods. -/
theorem onInstance_mem_sides_of_mixinAllowed {owner kind : EntityKind} {directive : MixinKind}
    (h : mixinAllowed owner directive kind) : Context.onInstance ∈ sides kind := by
  revert h
  cases owner <;> cases directive <;> cases kind <;> decide

theorem askable_of_spliceOf {s : Splice} (h : env.SpliceOf e s) : env.Askable s.key := by
  cases h with
  | mixin _ _ _ hkind hallowed =>
    obtain ⟨target, htarget, rfl⟩ := kind?_eq_some_iff.1 hkind
    exact ⟨target, htarget, onInstance_mem_sides_of_mixinAllowed hallowed⟩
  | superClass _ _ hclass => exact askable_of_isClass hclass
  | plain hclass _ => exact askable_of_isClass hclass

theorem askable_of_depends {key part : ChainKey} (h : env.Depends key part) :
    env.Askable part := by
  obtain ⟨b, hb, hpart⟩ := env.exists_blueprint_of_depends h
  obtain ⟨e, -, hpieces⟩ := pieces_of_blueprint hb
  obtain ⟨s, hs, rfl⟩ := List.mem_map.1 hpart
  exact askable_of_spliceOf (spliceOf_of_pieceOf ((hpieces.splices s).1 hs))

theorem exists_blueprint_of_askable {key : ChainKey} (h : env.Askable key) :
    ∃ b, env.blueprint key = .ok b := by
  obtain ⟨e, he, hside⟩ := h
  rw [blueprint, he]
  exact exists_entryBlueprint hside

/-- If the chain of a side that has methods cannot be built, the side is on the path, or it has a
part whose chain fails alike. -/
theorem chain_error_cases {path : List ChainKey} {key : ChainKey} (hkey : env.Askable key)
    {failure : Failure} (h : env.chain path key = .error failure) :
    key ∈ path ∧ failure = env.cycle path key ∨
      key ∉ path ∧ ∃ part, env.Depends key part ∧
        env.chain (path ++ [key]) part = .error failure := by
  by_cases hpath : key ∈ path
  · rw [env.chain_of_mem hpath] at h
    exact Or.inl ⟨hpath, (Except.error.inj h).symm⟩
  · obtain ⟨b, hb⟩ := exists_blueprint_of_askable hkey
    rw [env.chain_of_blueprint hpath hb] at h
    refine Or.inr ⟨hpath, ?_⟩
    rcases Blueprint.answered_or_first_error (env.chain (path ++ [key])) b.keys with
      hall | ⟨done, part, rest, other, hkeys, hdone, hpart⟩
    · choose! chainOf hchain using hall
      rw [Blueprint.assemble_eq_ok hchain] at h
      cases h
    · rw [Blueprint.assemble_eq_error hkeys hdone hpart] at h
      obtain rfl := Except.error.inj h
      refine ⟨part, ?_, hpart⟩
      rw [env.depends_iff_of_blueprint hb, hkeys]
      exact List.mem_append_right _ List.mem_cons_self

/-- If the chain of a side that has methods cannot be built, a diagnostic names a cycle. -/
theorem diagnostic_of_chain_error {path : List ChainKey} {key : ChainKey} (hkey : env.Askable key)
    {failure : Failure} (h : env.chain path key = .error failure) :
    ∃ d, failure = .diagnostic d ∧ d.kind = .cyclicAncestor := by
  induction path, key using env.chainInduction with
  | step path key ih =>
    rcases chain_error_cases hkey h with ⟨hpath, rfl⟩ | ⟨hpath, part, hdep, hpart⟩
    · obtain ⟨e, he, -⟩ := hkey
      rw [cycle, he]
      exact ⟨_, rfl, rfl⟩
    · exact ih hpath part hdep (askable_of_depends hdep) hpart

end Environment

end RubySig
