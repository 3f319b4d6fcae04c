import RubySig.Proofs.Ancestry.Sites

/-!
# The dependency graph

The sides of the declared entities form a graph.  An edge leads from a side to each side whose chain
becomes part of its chain, and it is read off the declarations: a directive that mixes something in,
the superclass, and the class behind a class or module object.

* `Environment.MixesIn`: a directive of an entity mixes in a target.
* `Environment.Edge`: the edges.  `Environment.LeadsTo`: the paths.
* `Environment.depends_iff_edge`: the edges of a side are exactly the chains that its chain is
  made of.
* `Environment.LeadsTo.onInstance`: no path leads from an instance side to a singleton side.
-/

namespace RubySig

/-! ## Edges -/

namespace Environment

/-- A directive in one of an entity's bodies mixes in a target: the name that is written denotes it,
and its kind is one that the directive accepts. -/
def MixesIn (env : Environment) (e : Entry) (directive : MixinKind) (target : TypeName) : Prop :=
  ∃ b ∈ e.bodies, ∃ m, Member.mixin m ∈ b.members ∧ m.kind = directive ∧
    env.resolve m.target.name b.nesting .asType = .ok target ∧
    ∃ kind, env.kind? target = some kind ∧ mixinAllowed e.kind directive kind

/-- The chain of one side becomes part of the chain of another. -/
inductive Edge (env : Environment) : ChainKey → ChainKey → Prop
  /-- What is included or prepended is part of the instance side, what extends the entity part of
  its singleton side. -/
  | mixin {name : TypeName} {e : Entry} {directive : MixinKind} {target : TypeName}
      (hentry : env.get? name = some e) (hmixes : env.MixesIn e directive target) :
      Edge env ⟨name, directive.side⟩ ⟨target, .onInstance⟩
  /-- The superclass is part of a class on both sides. -/
  | superClass {name : TypeName} {e : Entry} {context : Context} {super : TypeName}
      {args : List TypeExpr} (hentry : env.get? name = some e) (hkind : e.kind = .klass)
      (hsuper : env.superClass? e = some (super, args)) :
      Edge env ⟨name, context⟩ ⟨super, context⟩
  /-- The object of a class without a superclass is an instance of `::Class`. -/
  | classObject {name : TypeName} {e : Entry} (hentry : env.get? name = some e)
      (hkind : e.kind = .klass) (hroot : env.superClass? e = none)
      (hclass : env.isClass (.topLevel "Class")) :
      Edge env ⟨name, .onSingleton⟩ ⟨.topLevel "Class", .onInstance⟩
  /-- The object of a module is an instance of `::Module`. -/
  | moduleObject {name : TypeName} {e : Entry} (hentry : env.get? name = some e)
      (hkind : e.kind = .module) (hclass : env.isClass (.topLevel "Module")) :
      Edge env ⟨name, .onSingleton⟩ ⟨.topLevel "Module", .onInstance⟩

/-- There is a path of edges, perhaps an empty one. -/
def LeadsTo (env : Environment) : ChainKey → ChainKey → Prop := Relation.ReflTransGen env.Edge

variable {env : Environment} {e : Entry} {part : ChainKey}

/-! ## The keys of splices -/

theorem mixinSplice?_of_resolve {b : Body} {m : Mixin} {target : TypeName} {kind : EntityKind}
    (hresolve : env.resolve m.target.name b.nesting .asType = .ok target)
    (hkind : env.kind? target = some kind) (hallowed : mixinAllowed e.kind m.kind kind) :
    ∃ s, env.mixinSplice? e b m = some s ∧ s.key = ⟨target, .onInstance⟩ := by
  rw [mixinSplice?, resolve?_eq_some_iff.2 hresolve]
  simp only [hkind, if_pos hallowed]
  exact ⟨_, rfl, rfl⟩

theorem mem_keys_mixinSplices {directive : MixinKind} :
    part ∈ (env.mixinSplices e directive).map (·.key) ↔
      ∃ target, env.MixesIn e directive target ∧ part = ⟨target, .onInstance⟩ := by
  rw [List.mem_map]
  constructor
  · rintro ⟨s, hs, rfl⟩
    obtain ⟨b, hb, m, hmember, rfl, hsplice⟩ := exists_of_mem_mixinSplices hs
    obtain ⟨target, kind, hresolve, hkind, hallowed, rfl⟩ := mixinSplice?_eq_some hsplice
    exact ⟨target, ⟨b, hb, m, hmember, rfl, hresolve, kind, hkind, hallowed⟩, rfl⟩
  · rintro ⟨target, ⟨b, hb, m, hmember, rfl, hresolve, kind, hkind, hallowed⟩, rfl⟩
    obtain ⟨s, hs, hkey⟩ := mixinSplice?_of_resolve hresolve hkind hallowed
    refine ⟨s, List.mem_flatMap.2 ⟨b, hb, List.mem_filterMap.2 ⟨m, ?_, hs⟩⟩, hkey⟩
    exact mem_mixins_iff.2 ⟨hmember, rfl⟩

theorem mem_keys_superClassSplices :
    part ∈ (env.superClassSplices e).map (·.key) ↔
      ∃ super args, env.superClass? e = some (super, args) ∧ part = ⟨super, .onInstance⟩ := by
  rw [superClassSplices]
  cases env.superClass? e with
  | none => simp
  | some found => obtain ⟨super, args⟩ := found; simp

theorem mem_keys_metaclassSplices {name : String} :
    part ∈ (env.metaclassSplices name).map (·.key) ↔
      env.isClass (.topLevel name) ∧ part = ⟨.topLevel name, .onInstance⟩ := by
  rw [metaclassSplices]
  split <;> simp [*]

theorem mem_keys_singletonSuperSplices :
    part ∈ (env.singletonSuperSplices e).map (·.key) ↔
      (∃ super args, env.superClass? e = some (super, args) ∧ part = ⟨super, .onSingleton⟩) ∨
        env.superClass? e = none ∧ env.isClass (.topLevel "Class") ∧
          part = ⟨.topLevel "Class", .onInstance⟩ := by
  rw [singletonSuperSplices]
  cases env.superClass? e with
  | none => simp [mem_keys_metaclassSplices]
  | some found => obtain ⟨super, args⟩ := found; simp

/-! ## Edges and parts -/

/-- A directive adds to the chain of a side that its entity has. -/
theorem MixesIn.side_mem_sides {directive : MixinKind} {target : TypeName}
    (h : env.MixesIn e directive target) : directive.side ∈ sides e.kind := by
  obtain ⟨b, hb, m, -, rfl, -, kind, -, hallowed⟩ := h
  rw [Entry.bodies] at hb
  split at hb
  · rename_i hbodies
    rw [Entry.hasBodies] at hbodies
    generalize e.kind = owner at hbodies hallowed ⊢
    cases owner with
    | klass | module => cases m.kind <;> decide
    | interface =>
      rw [eq_included_of_mixinAllowed hallowed]
      decide
    | typeAlias | constant => cases hbodies
  · exact absurd hb List.not_mem_nil

/-- The keys of the pieces of a side that has methods are parts of its chain. -/
theorem depends_of_mem_keys {name : TypeName} {context : Context} {splices : List Splice}
    (hentry : env.get? name = some e) (hside : context ∈ sides e.kind)
    (hpieces : ∀ s ∈ splices, env.PieceOf e context s) (hpart : part ∈ splices.map (·.key)) :
    env.Depends ⟨name, context⟩ part := by
  obtain ⟨s, hs, rfl⟩ := List.mem_map.1 hpart
  have haskable : env.Askable ⟨name, context⟩ := ⟨e, hentry, hside⟩
  obtain ⟨b, hb⟩ := exists_blueprint_of_askable haskable
  obtain ⟨e', hentry', hall⟩ := pieces_of_blueprint hb
  obtain rfl := Option.some.inj (hentry.symm.trans hentry')
  rw [env.depends_iff_of_blueprint hb]
  exact Blueprint.key_mem_keys ((hall.splices s).2 (hpieces s hs))

theorem depends_of_edge {key : ChainKey} (h : env.Edge key part) : env.Depends key part := by
  cases h with
  | mixin hentry hmixes =>
    exact depends_of_mem_keys hentry hmixes.side_mem_sides (fun _ => .mixin rfl)
      (mem_keys_mixinSplices.2 ⟨_, hmixes, rfl⟩)
  | @superClass name e context super args hentry hkind hsuper =>
    have hside : context ∈ sides e.kind := by
      rw [hkind]
      cases context <;> decide
    cases context with
    | onInstance =>
      exact depends_of_mem_keys hentry hside (fun _ => .superClass hkind rfl)
        (mem_keys_superClassSplices.2 ⟨super, args, hsuper, rfl⟩)
    | onSingleton =>
      exact depends_of_mem_keys hentry hside (fun _ => .singletonSuper hkind rfl)
        (mem_keys_singletonSuperSplices.2 (Or.inl ⟨super, args, hsuper, rfl⟩))
  | @classObject name e hentry hkind hroot hclass =>
    have hside : Context.onSingleton ∈ sides e.kind := by
      rw [hkind]
      decide
    exact depends_of_mem_keys hentry hside (fun _ => .singletonSuper hkind rfl)
      (mem_keys_singletonSuperSplices.2 (Or.inr ⟨hroot, hclass, rfl⟩))
  | @moduleObject name e hentry hkind hclass =>
    have hside : Context.onSingleton ∈ sides e.kind := by
      rw [hkind]
      decide
    exact depends_of_mem_keys hentry hside (fun _ => .moduleClass hkind rfl)
      (mem_keys_metaclassSplices.2 ⟨hclass, rfl⟩)

theorem edge_of_depends {key : ChainKey} (h : env.Depends key part) : env.Edge key part := by
  obtain ⟨b, hb, hpart⟩ := env.exists_blueprint_of_depends h
  obtain ⟨e, hentry, hpieces⟩ := pieces_of_blueprint hb
  obtain ⟨s, hs, rfl⟩ := List.mem_map.1 hpart
  obtain ⟨name, context⟩ := key
  cases (hpieces.splices s).1 hs with
  | mixin hside hpiece =>
    subst hside
    obtain ⟨target, hmixes, hkey⟩ := mem_keys_mixinSplices.1 (List.mem_map_of_mem hpiece)
    exact hkey ▸ .mixin hentry hmixes
  | superClass hkind hside hpiece =>
    subst hside
    obtain ⟨super, args, hsuper, hkey⟩ :=
      mem_keys_superClassSplices.1 (List.mem_map_of_mem hpiece)
    exact hkey ▸ .superClass hentry hkind hsuper
  | singletonSuper hkind hside hpiece =>
    subst hside
    rcases mem_keys_singletonSuperSplices.1 (List.mem_map_of_mem hpiece) with
      ⟨super, args, hsuper, hkey⟩ | ⟨hroot, hclass, hkey⟩
    · exact hkey ▸ .superClass hentry hkind hsuper
    · exact hkey ▸ .classObject hentry hkind hroot hclass
  | moduleClass hkind hside hpiece =>
    subst hside
    obtain ⟨hclass, hkey⟩ := mem_keys_metaclassSplices.1 (List.mem_map_of_mem hpiece)
    exact hkey ▸ .moduleObject hentry hkind hclass

/-- The edges of a side are exactly the chains that its chain is made of. -/
theorem depends_iff_edge {key : ChainKey} : env.Depends key part ↔ env.Edge key part :=
  ⟨edge_of_depends, depends_of_edge⟩

theorem depends_eq_edge : env.Depends = env.Edge :=
  funext fun _ => funext fun _ => propext depends_iff_edge

theorem reaches_eq_leadsTo : env.Reaches = env.LeadsTo := by
  rw [Reaches, LeadsTo, depends_eq_edge]

/-! ## Sides -/

/-- The chain of an instance side is made of chains of instance sides. -/
theorem Edge.onInstance {key : ChainKey} (h : env.Edge key part)
    (hkey : key.context = .onInstance) : part.context = .onInstance := by
  cases h with
  | superClass => exact hkey
  | _ => rfl

theorem LeadsTo.onInstance {key : ChainKey} (h : env.LeadsTo key part)
    (hkey : key.context = .onInstance) : part.context = .onInstance := by
  induction h with
  | refl => exact hkey
  | tail _ hedge ih => exact hedge.onInstance ih

end Environment

end RubySig
