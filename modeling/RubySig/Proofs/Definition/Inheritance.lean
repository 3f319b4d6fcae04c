import RubySig.Proofs.Ancestry.Bindings
import RubySig.Proofs.Definition.Lookup
import RubySig.Proofs.Environment.Scope
import RubySig.Proofs.Validation.Silence

/-!
# Inherited methods

A class that inherits a method from an ancestor of its superclass has the overloads that the
superclass has, with the arguments put in that the class writes for the superclass's type
parameters.

* `Environment.DistinctParams`, `Environment.FreshMethodParams`: how type parameters have to be
  named.
* `Environment.freeVars_of_written`: in terms of its entity an overload has no other free variables
  than the entity's type parameters.
* `contributed_mapOverloads`: what an ancestor contributes when a substitution is put in on top.
* `Environment.overloads_inherited`: the overloads of an inherited method.
-/

namespace RubySig

/-! ## Names of type parameters -/

/-- No type parameter list of an entity repeats a name. -/
def Environment.DistinctParams (env : Environment) : Prop :=
  ∀ e ∈ env.entities, ∀ f ∈ e.fragments, (typeParamNames f.decl.typeParams).Nodup

/-- The type parameters of all classes, modules and interfaces, in the spelling of each fragment. -/
def Environment.entityParams (env : Environment) : List String :=
  (env.entities.filter (·.hasBodies)).flatMap fun e =>
    e.fragments.flatMap fun f => typeParamNames f.decl.typeParams

/-- No overload declares a type parameter with the name of one of a class, module or interface. -/
def Environment.FreshMethodParams (env : Environment) : Prop :=
  ∀ e ∈ env.entities, ∀ b ∈ e.bodies, ∀ o ∈ b.overloads, ∀ v ∈ typeParamNames o.typeParams,
    v ∉ env.entityParams

/-! ## Written overloads -/

/-- An overload of a member is in the scope of the member. -/
theorem Member.ScopedIn.overloads {scope : List String} {m : Member} (h : m.ScopedIn scope) :
    ∀ o ∈ m.overloads, o.ScopedIn scope := by
  cases m with
  | method m => exact h
  | attr a =>
    have htypes : ∀ t ∈ [a.type, a.type], t.ScopedIn scope :=
      List.forall_mem_cons.2 ⟨h, List.forall_mem_singleton.2 h⟩
    have hreader : a.readerType.ScopedIn scope := fun t ht => htypes t (List.mem_cons_of_mem _ ht)
    have hwriter : a.writerType.ScopedIn scope := htypes
    refine List.forall_mem_map.2 fun p hp => ?_
    rw [AttributeMember.accessors] at hp
    rcases List.mem_append.1 hp with hp | hp <;> split at hp
    · rwa [List.mem_singleton.1 hp]
    · exact absurd hp List.not_mem_nil
    · rwa [List.mem_singleton.1 hp]
    · exact absurd hp List.not_mem_nil
  | methodAlias _ | mixin _ | marker _ | typedVar _ | nested _ =>
    exact fun _ ho => absurd ho List.not_mem_nil

namespace Environment

variable {env : Environment}

theorem DistinctParams.nodup_paramNames (h : env.DistinctParams) {e : Entry}
    (he : e ∈ env.entities) : e.paramNames.Nodup := by
  rw [Entry.paramNames]
  rcases e.exists_fragment_of_typeParams with hnone | ⟨f, hf, hparams⟩
  · rw [hnone]
    exact List.nodup_nil
  · rw [hparams]
    exact h e he f hf

/-- Resolving names leaves variables alone. -/
theorem scopedIn_absolutizeNode (nesting : Nesting) {scope : List String} {t : TypeExpr}
    (h : t.ScopedIn scope) : (env.absolutizeNode nesting t).ScopedIn scope := by
  cases t with
  | named target =>
    obtain ⟨name, args, span⟩ := target
    exact TypeExpr.scopedIn_of_children rfl (TypeExpr.scopedIn_iff.1 h).2
  | singleton target =>
    obtain ⟨name, span⟩ := target
    exact TypeExpr.scopedIn_singleton _
  | _ => exact h

/-- A variable that a fragment sees is renamed to a type parameter of the entity. -/
theorem exists_param_of_mem_scopeOf {e : Entry} (hscoped : e.Scoped) (hnodup : e.paramNames.Nodup)
    {f : Fragment EntityDecl} (hf : f ∈ e.fragments) {v : String} (hv : v ∈ e.scopeOf f) :
    ∃ p ∈ e.paramNames, (renameParams e.paramNames f.decl.typeParams).image v = .var p := by
  rw [Entry.scopeOf] at hv
  split at hv
  · rename_i hempty
    -- a fragment without a list sees the parameters of the entity, and nothing is renamed
    rw [renameParams, if_pos hempty]
    exact ⟨v, hv, rfl⟩
  · rename_i hlist
    have hlength : f.decl.typeParams.length = e.paramNames.length := by
      rw [Entry.paramNames, typeParamNames, List.length_map]
      exact (hscoped.arity f hf).resolve_left fun hnil => hlist (List.isEmpty_iff.2 hnil)
    exact Substitution.image_renameParams hnodup hlength hv

/-- In terms of its entity an overload has no other free variables than the entity's type
parameters. -/
theorem freeVars_of_written {e : Entry} (hscoped : e.Scoped) (hnodup : e.paramNames.Nodup)
    {b : Body} (hb : b ∈ e.bodies) {w : MethodType} (hw : w ∈ b.overloads) :
    ∀ v ∈ ((renameParams e.paramNames b.typeParams).applyMethod
        (env.absolutizeMethod b.nesting w)).freeVars, v ∈ e.paramNames := by
  rw [Entry.bodies] at hb
  split at hb
  · obtain ⟨f, hf, rfl⟩ := List.mem_map.1 hb
    obtain ⟨m, hm, hw⟩ := List.mem_flatMap.1 hw
    have hwritten : (env.absolutizeMethod (e.bodyOf f).nesting w).ScopedIn (e.scopeOf f) :=
      (((hscoped.closed f hf).members m hm).overloads w hw).map
        fun _ _ _ ht => scopedIn_absolutizeNode _ ht
    intro v hv
    rw [Substitution.freeVars_applyMethod] at hv
    obtain ⟨u, hu, hvu⟩ := List.mem_flatMap.1 (List.mem_filter.1 hv).1
    obtain ⟨p, hp, himage⟩ :=
      exists_param_of_mem_scopeOf hscoped hnodup hf (hwritten.mem_of_mem_freeVars hu)
    have hparams : (e.bodyOf f).typeParams = f.decl.typeParams := rfl
    rw [hparams, himage, TypeExpr.vars_var, List.mem_singleton] at hvu
    rwa [hvu]
  · exact absurd hb List.not_mem_nil

end Environment

/-! ## A substitution on top -/

/-- A method with changed overloads. -/
def MethodDefinition.mapOverloads (g : MethodType → MethodType) (d : MethodDefinition) :
    MethodDefinition :=
  { d with overloads := d.overloads.map g }

theorem contributedFrom_mapOverloads {e f : AncestorEntry} (hkey : e.key = f.key)
    {prepare prepare' g : MethodType → MethodType} {members : List Member}
    (h : ∀ w ∈ members.flatMap Member.overloads, prepare w = g (prepare' w)) (sect : Visibility) :
    contributedFrom e prepare sect members =
      (contributedFrom f prepare' sect members).map (·.mapOverloads g) := by
  obtain ⟨hname, hcontext⟩ := ChainKey.mk.inj hkey
  induction members generalizing sect with
  | nil => rfl
  | cons m rest ih =>
    obtain ⟨hm, hrest⟩ := List.forall_mem_append.1 h
    cases m with
    | method m =>
      have hoverloads : m.overloads.map prepare = (m.overloads.map prepare').map g := by
        rw [List.map_map]
        exact List.map_congr_left hm
      rw [contributedFrom, contributedFrom, hcontext]
      split
      · exact ih hrest sect
      · rw [List.map_cons, ih hrest sect, hoverloads, hname]
        rfl
    | attr a =>
      rw [contributedFrom, contributedFrom, hcontext, List.map_append, ih hrest sect]
      refine congrArg (· ++ _) ?_
      split
      · rw [List.map_map]
        refine List.map_congr_left fun p hp => ?_
        rw [hname, hm p.2 (List.mem_map_of_mem hp)]
        rfl
      · rfl
    | marker m => exact ih hrest m.visibility
    | methodAlias _ | mixin _ | typedVar _ | nested _ => exact ih hrest sect

/-- What an ancestor contributes to a chain that is put into another one, with a substitution put in
on top. -/
theorem contributed_mapOverloads {env : Environment} {p q : AncestorEntry} (hkey : p.key = q.key)
    {declared : Entry} {s : Substitution}
    (h : ∀ b ∈ declared.bodies, ∀ w ∈ b.overloads,
      prepareOverload env p declared.paramNames b w =
        s.applyMethod (prepareOverload env q declared.paramNames b w)) :
    contributed env p declared =
      (contributed env q declared).map (·.mapOverloads s.applyMethod) := by
  rw [contributed, contributed, List.map_flatMap]
  exact List.flatMap_congr fun b hb => contributedFrom_mapOverloads hkey (h b hb) _

theorem find?_mapOverloads (g : MethodType → MethodType) (ds : List MethodDefinition) (n : String) :
    ((ds.map (·.mapOverloads g)).reverse.find? fun d => n = d.name) =
      (ds.reverse.find? fun d => n = d.name).map (·.mapOverloads g) := by
  rw [← List.map_reverse, List.find?_map]
  rfl

/-! ## Methods that no alias gives -/

/-- A name stands for a method because of an alias: the nearest ancestor that gives the name gives
it by one of its aliases, which are read after its methods. -/
def DefinedByAlias (env : Environment) (entries : List AncestorEntry) (n : String) : Prop :=
  ∃ front e rest, IsNearest env n entries front e rest ∧ e.GivesAlias env rest n

/-- A method that no alias gives is the last one of its name that its owner writes. -/
theorem Environment.exists_contributed_of_not_alias {env : Environment} {c : Chain} {n : String}
    (halias : ¬ DefinedByAlias env c.entries n) {m : MethodDefinition}
    (hm : (env.definitionOf c).method? n = some m) :
    ∃ e ∈ c.entries, e.name = m.owner ∧ ∃ declared, env.get? e.name = some declared ∧
      ((contributed env e declared).reverse.find? fun d => n = d.name) = some m := by
  rw [method?_definitionOf] at hm
  obtain ⟨front, e, rest, hnearest⟩ :=
    MethodTable.exists_nearest (OrderedMap.mem_keys_of_get? hm)
  have hwrites : ¬ e.GivesAlias env rest n := fun h => halias ⟨front, e, rest, hnearest, h⟩
  obtain ⟨declared, hget, hfound⟩ := hnearest.get?_contributed hwrites
  refine ⟨e, ?_, (hnearest.owner_eq hm).symm, declared, hget, hfound ▸ hm⟩
  rw [hnearest.split]
  exact List.mem_append_right _ List.mem_cons_self

/-! ## Inheritance -/

namespace Environment

variable {env : Environment}

/-- No overload declares a type parameter that is one of a class. -/
theorem FreshMethodParams.notMem_paramsOf (h : env.FreshMethodParams) {e : Entry}
    (he : e ∈ env.entities) {b : Body} (hb : b ∈ e.bodies) {w : MethodType} (hw : w ∈ b.overloads)
    {super : TypeName} (hsuper : env.isClass super) :
    ∀ v ∈ typeParamNames w.typeParams, v ∉ typeParamNames (env.paramsOf super) := by
  intro v hv hmem
  obtain ⟨es, hes, hkind⟩ := isClass_iff.1 hsuper
  have hbodies : es.hasBodies := by
    rw [Entry.hasBodies, hkind]
  have hparams : env.paramsOf super = es.typeParams := by
    rw [paramsOf, hes]
    rfl
  rw [hparams] at hmem
  rcases es.exists_fragment_of_typeParams with hnone | ⟨f, hf, hlist⟩
  · rw [hnone] at hmem
    exact absurd hmem List.not_mem_nil
  · rw [hlist] at hmem
    have hlisted : es ∈ env.entities.filter (·.hasBodies) :=
      List.mem_filter.2 ⟨OrderedMap.mem_values_of_get? hes, hbodies⟩
    refine h e he b hb w hw v hv (List.mem_flatMap.2 ⟨es, hlisted, ?_⟩)
    exact List.mem_flatMap.2 ⟨f, hf, hmem⟩

/-- Two entries of a chain with one key are the same entry. -/
theorem eq_of_key_eq {key : ChainKey} {c : Chain} (h : env.chain [] key = .ok c)
    {p q : AncestorEntry} (hp : p ∈ c.entries) (hq : q ∈ c.entries) (hkey : p.key = q.key) :
    p = q :=
  List.inj_on_of_nodup_map (nodup_keys_of_chain h) hp hq hkey

/-- Every ancestor on an instance side is on its instance side. -/
theorem onInstance_of_mem_entries (henv : env.Anchored) {name : TypeName} {c : Chain}
    (h : env.chain [] ⟨name, .onInstance⟩ = .ok c) {p : AncestorEntry} (hp : p ∈ c.entries) :
    p.context = .onInstance := by
  have hreach := (mem_keys_iff_leadsTo henv h).1 (List.mem_map_of_mem (f := (·.key)) hp)
  exact hreach.onInstance rfl

/-- An overload of an ancestor that is inherited from the superclass is prepared as in the chain of
the superclass, and then the class's arguments are put in. -/
theorem prepareOverload_inherited (henv : env.OfTexts) (hdistinct : env.DistinctParams)
    (hfresh : env.FreshMethodParams) {super : TypeName} (hclass : env.isClass super)
    {key : ChainKey} {c : Chain} (hchain : env.chain [] key = .ok c) {p q : AncestorEntry}
    (hq : q ∈ c.entries) (hside : q.context = .onInstance) {args : List TypeExpr}
    (hsubst : p.substitution = (env.bindArgs super args).compose q.substitution) {declared : Entry}
    (hget : env.get? q.name = some declared) {b : Body} (hb : b ∈ declared.bodies)
    {w : MethodType} (hw : w ∈ b.overloads) :
    prepareOverload env p declared.paramNames b w =
      (env.bindArgs super args).applyMethod
        (prepareOverload env q declared.paramNames b w) := by
  have hentity : declared ∈ env.entities := OrderedMap.mem_values_of_get? hget
  rw [prepareOverload, prepareOverload, hsubst]
  refine Substitution.applyMethod_compose (fun v hv => ?_) fun v hv => ?_
  · have hscoped := henv.scoped _ declared hget
    have hparam : v ∈ declared.paramNames :=
      freeVars_of_written hscoped (hdistinct.nodup_paramNames hentity) hb hw v hv
    exact (mem_names_iff_of_mem_entries henv.anchored hchain hq hside hget).2 hparam
  · rw [Substitution.typeParamNames_applyMethod, absolutizeMethod,
      MethodType.typeParamNames_map] at hv
    rw [bindArgs, Substitution.mem_names_bind]
    exact hfresh.notMem_paramsOf hentity hb hw hclass v hv

/-- A class and its superclass have a method of one ancestor, and neither has it by an alias.  If
the ancestor is not the class itself and not reached through what the class prepends or includes,
the overloads in the class are those in the superclass with the class's arguments put in for the
superclass's type parameters. -/
theorem overloads_inherited (henv : env.OfTexts) (hdistinct : env.DistinctParams)
    (hfresh : env.FreshMethodParams) {name super : TypeName} {e : Entry}
    (he : env.get? name = some e) {args : List TypeExpr}
    (hsuper : env.superClass? e = some (super, args)) {d ds : Definition}
    (hd : env.definition ⟨name, .onInstance⟩ = .ok d)
    (hds : env.definition ⟨super, .onInstance⟩ = .ok ds) {n : String} {m ms : MethodDefinition}
    (hm : d.method? n = some m) (hms : ds.method? n = some ms)
    (halias : ¬ DefinedByAlias env d.ancestors.entries n)
    (haliass : ¬ DefinedByAlias env ds.ancestors.entries n) (howner : m.owner = ms.owner)
    (hother : m.owner ≠ name)
    (hmixins : ∀ directive target, env.MixesIn e directive target →
      directive = .prepended ∨ directive = .included →
      ¬ env.LeadsTo ⟨target, .onInstance⟩ ⟨m.owner, .onInstance⟩) :
    m.overloads = ms.overloads.map
      (Substitution.bind (typeParamNames (env.paramsOf super)) args).applyMethod := by
  have hanchored := henv.anchored
  obtain ⟨c, hc, rfl⟩ := definition_eq_ok_iff.1 hd
  obtain ⟨cs, hcs, rfl⟩ := definition_eq_ok_iff.1 hds
  obtain ⟨p, hp, hpname, declared, hget, hfound⟩ := exists_contributed_of_not_alias halias hm
  obtain ⟨q, hq, hqname, declared', hget', hfound'⟩ := exists_contributed_of_not_alias haliass hms
  have hpside := onInstance_of_mem_entries hanchored hc hp
  have hqside := onInstance_of_mem_entries hanchored hcs hq
  have hpkey : p.key = ⟨m.owner, .onInstance⟩ := by
    rw [AncestorEntry.key, hpname, hpside]
  have hqkey : q.key = ⟨m.owner, .onInstance⟩ := by
    rw [AncestorEntry.key, hqname, hqside, howner]
  -- the ancestor in the chain of the class is the one in the chain of the superclass
  obtain ⟨r, hr, hrkey, hsubst⟩ := exists_inherited_entry hanchored he hsuper hc hcs hp
    (hpname ▸ hother) fun directive target hmixes hside => by
      rw [hpkey]
      refine hmixins directive target hmixes ?_
      cases directive with
      | included => exact Or.inr rfl
      | prepended => exact Or.inl rfl
      | extended => cases hside
  obtain rfl : r = q := eq_of_key_eq hcs hr hq (hrkey.symm.trans (hpkey.trans hqkey.symm))
  obtain rfl : declared = declared' := by
    rw [hpname, howner, ← hqname, hget'] at hget
    exact (Option.some.inj hget).symm
  have hcontributed : contributed env p declared =
      (contributed env r declared).map (·.mapOverloads (env.bindArgs super args).applyMethod) :=
    contributed_mapOverloads hrkey fun b hb w hw => prepareOverload_inherited henv hdistinct hfresh
      (superClass?_eq_some hsuper).1 hcs hq hqside hsubst hget' hb hw
  rw [hcontributed, find?_mapOverloads, hfound', Option.map_some] at hfound
  rw [← Option.some.inj hfound]
  rfl

end Environment

/-! ## A method inherited twice over -/

instance (env : Environment) : Decidable env.DistinctParams :=
  inferInstanceAs (Decidable (∀ e ∈ env.entities, ∀ f ∈ e.fragments,
    (typeParamNames f.decl.typeParams).Nodup))

instance (env : Environment) : Decidable env.FreshMethodParams :=
  inferInstanceAs (Decidable (∀ e ∈ env.entities, ∀ b ∈ e.bodies, ∀ o ∈ b.overloads,
    ∀ v ∈ typeParamNames o.typeParams, v ∉ env.entityParams))

/-- Whether no ancestor writes an alias. -/
def writesNoAlias (env : Environment) (entries : List AncestorEntry) : Bool :=
  entries.all fun e => (env.get? e.name).all fun declared => (contributedAliases e declared).isEmpty

theorem not_definedByAlias {env : Environment} {entries : List AncestorEntry}
    (h : writesNoAlias env entries) (n : String) : ¬ DefinedByAlias env entries n := by
  rintro ⟨front, e, rest, hnearest, declared, before, a, after, hget, haliases, -⟩
  have he : e ∈ entries := by
    rw [hnearest.split]
    exact List.mem_append_right _ List.mem_cons_self
  have hnone := List.all_eq_true.1 h e he
  rw [hget, Option.all_some, haliases] at hnone
  simp at hnone

theorem Environment.not_mixesIn {env : Environment} {e : Entry} {directive : MixinKind}
    (h : (env.mixinSplices e directive).isEmpty) (target : TypeName) :
    ¬ env.MixesIn e directive target := by
  intro hmixes
  have hmem := mem_keys_mixinSplices.2 ⟨target, hmixes, rfl⟩
  rw [List.isEmpty_iff.1 h] at hmem
  exact absurd hmem List.not_mem_nil

/-- A generic class that is reopened under another name of its type parameter, a subclass, and a
subclass of that. -/
def jarSetup : SessionSetup :=
  .ofFile "a.rbs" ("class Holder[T]\n  def get: () -> T\nend\n\n" ++
    "class Holder[S]\n  def put: [K] (S, K) -> K\nend\n\n" ++
    "class Box[U] < Holder[U?]\nend\n\nclass Jar[V] < Box[[V, V]]\nend\n")

/-- Whether in a chain without aliases a method belongs to an owner and has given free variables. -/
def givesWritten (env : Environment) (n : String) (owner : TypeName) (free : List (List String))
    (c : Chain) : Bool :=
  writesNoAlias env c.entries && ((MethodTable.ofEntries env c.entries).methods.get? n).any fun m =>
    m.owner = owner && m.overloads.map MethodType.freeVars = free

theorem Environment.definition_of_givesWritten {env : Environment} {key : ChainKey} {n : String}
    {owner : TypeName} {free : List (List String)}
    (h : (env.chain [] key).toOption.any (givesWritten env n owner free)) :
    ∃ d m, env.definition key = .ok d ∧ d.method? n = some m ∧ m.owner = owner ∧
      m.overloads.map MethodType.freeVars = free ∧
      ¬ DefinedByAlias env d.ancestors.entries n := by
  obtain ⟨c, hc, hgives⟩ := exists_ok_of_any _ _ h
  rw [givesWritten, Bool.and_eq_true, Option.any_eq_true] at hgives
  obtain ⟨haliases, m, hm, hmethod⟩ := hgives
  rw [Bool.and_eq_true, decide_eq_true_eq, decide_eq_true_eq] at hmethod
  exact ⟨env.definitionOf c, m, definition_eq_ok_iff.2 ⟨c, hc, rfl⟩,
    (env.method?_definitionOf c n).trans hm, hmethod.1, hmethod.2, not_definedByAlias haliases n⟩

set_option maxRecDepth 100000 in
/-- `put` takes `U?` in the subclass and `[V, V]?` in the subclass of that. -/
theorem put_inherited_by_jar : ∃ s e args d ds m ms, jarSetup.build = .ok s ∧
    s.env.get? (.topLevel "Jar") = some e ∧
    s.env.superClass? e = some (.topLevel "Box", args) ∧
    s.env.definition (instanceSide "Jar") = .ok d ∧
    s.env.definition (instanceSide "Box") = .ok ds ∧ d.method? "put" = some m ∧
    ds.method? "put" = some ms ∧ m.owner = .topLevel "Holder" ∧
    m.overloads.map MethodType.freeVars = [["V", "V"]] ∧
    ms.overloads.map MethodType.freeVars = [["U"]] ∧
    m.overloads = ms.overloads.map
      (Substitution.bind (typeParamNames (s.env.paramsOf (.topLevel "Box"))) args).applyMethod := by
  obtain ⟨s, hbuild, hs⟩ := exists_ok_of_any jarSetup.build
    (fun s => decide s.env.DistinctParams && decide s.env.FreshMethodParams &&
      ((s.env.get? (.topLevel "Jar")).any fun e =>
        (s.env.mixinSplices e .prepended).isEmpty && (s.env.mixinSplices e .included).isEmpty &&
        (s.env.superClass? e).any fun p => p.1 = .topLevel "Box") &&
      (s.env.chain [] (instanceSide "Jar")).toOption.any
        (givesWritten s.env "put" (.topLevel "Holder") [["V", "V"]]) &&
      (s.env.chain [] (instanceSide "Box")).toOption.any
        (givesWritten s.env "put" (.topLevel "Holder") [["U"]]))
    (by decide +kernel)
  simp only [Bool.and_eq_true, decide_eq_true_eq] at hs
  obtain ⟨⟨⟨⟨hdistinct, hfresh⟩, hentry⟩, hjar⟩, hbox⟩ := hs
  obtain ⟨e, he, hclass⟩ := (Option.any_eq_true _ _).1 hentry
  simp only [Bool.and_eq_true] at hclass
  obtain ⟨⟨hprepended, hincluded⟩, hsuper⟩ := hclass
  obtain ⟨⟨super, args⟩, hsuper, hname⟩ := (Option.any_eq_true _ _).1 hsuper
  obtain rfl : super = .topLevel "Box" := of_decide_eq_true hname
  obtain ⟨d, m, hd, hm, howner, hfree, halias⟩ := Environment.definition_of_givesWritten hjar
  obtain ⟨ds, ms, hds, hms, howners, hfrees, haliass⟩ := Environment.definition_of_givesWritten hbox
  obtain ⟨errors, hparsed, henv, -⟩ := SessionSetup.parsed_of_build hbuild
  refine ⟨s, e, args, d, ds, m, ms, hbuild, he, hsuper, hd, hds, hm, hms, howner, hfree, hfrees, ?_⟩
  refine Environment.overloads_inherited ⟨_, parseSources_read hparsed, henv⟩ hdistinct hfresh he
    hsuper hd hds hm hms halias haliass (howner.trans howners.symm) ?_ ?_
  · rw [howner]
    decide
  · rintro directive target hmixes (rfl | rfl)
    · exact absurd hmixes (Environment.not_mixesIn hprepended target)
    · exact absurd hmixes (Environment.not_mixesIn hincluded target)

end RubySig
