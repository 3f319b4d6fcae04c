import RubySig.Proofs.Ancestry.Closed
import RubySig.Proofs.Ancestry.Paths
import RubySig.Proofs.TypeExpr.Printed
import RubySig.Proofs.Validation.Batches
import RubySig.Proofs.Validation.Degradation
import RubySig.Proofs.Validation.SuperClasses

/-!
# Arguments in chains

The chain of a generic class, module or interface is put in with the arguments that are written at
the place, and in a valid session there are as many of them as type parameters. They can be read
back from the entry, in whatever chain it ends up, as long as no two type parameters have the same
name: the arguments are kept under the names of the parameters.

* `Use`, `Entry.Uses`: what an entity writes to have a chain put in.
* `Environment.PutsIn`: what is put in for it.
* `Environment.argsAt`: the arguments of a use in a chain that the use has come into.
* `Environment.PutsIn.values_along_iff`: when they can be read back from what is put in.
* `Environment.CameIn`: how the entries of a chain have come in.
* `SessionSetup.args_kept_iff`: in a valid session the arguments of a use are those of the entry
  exactly if no type parameter is repeated.
* `pair_loses_argument`: it may be otherwise in a valid session.
-/

namespace RubySig

/-! ## Uses -/

/-- A place in a fragment of an entity where a generic entity is named, to have its chain put in. -/
structure Use where
  /-- The side of the entity whose chain it is put into. -/
  side : Context
  /-- The name and the arguments. -/
  target : NamedType
  /-- The type parameters of the entity as the fragment spells them. -/
  params : List TypeParam
  /-- The scopes in which the name is read. -/
  nesting : Nesting

/-- The target of a directive. -/
def Use.ofMixin (b : Body) (m : Mixin) : Use := ⟨m.kind.side, m.target, b.typeParams, b.nesting⟩

/-- The superclass that a fragment writes. -/
def Use.ofSuperClass (f : Fragment EntityDecl) (t : NamedType) : Use :=
  ⟨.onInstance, t, f.decl.typeParams, f.nesting⟩

/-- An entity writes the first use, and the second one counts for it: of the superclasses of its
fragments only the first one is put in. -/
inductive Entry.Uses (e : Entry) : Use → Use → Prop
  /-- A directive counts for itself. -/
  | mixin {b : Body} {m : Mixin} (hb : b ∈ e.bodies) (hm : Member.mixin m ∈ b.members) :
      Uses e (.ofMixin b m) (.ofMixin b m)
  /-- The superclass that is written first counts for all. -/
  | superClass {f g : Fragment EntityDecl} {t first : NamedType} (hf : f ∈ e.fragments)
      (ht : f.decl.superClass? = some t) (hfirst : e.superClass? = some (first, g)) :
      Uses e (.ofSuperClass f t) (.ofSuperClass g first)

theorem EntityDecl.kind_of_superClass? {d : EntityDecl} {t : NamedType}
    (h : d.superClass? = some t) : d.kind = .klass := by
  cases d with
  | klass _ => rfl
  | module _ | interface _ | typeAlias _ | constant _ => cases h

/-- An entry of a side of instances is printed like the type with its values as arguments. -/
theorem AncestorEntry.render_eq_named {p : AncestorEntry} (hside : p.context = .onInstance)
    (span : Span) : p.render = (NamedType.mk p.name p.substitution.values span).render := by
  rw [render, hside]
  by_cases hnone : p.substitution.values = []
  · have hempty : p.substitution.isEmpty := by
      rw [Substitution.isEmpty, OrderedMap.isEmpty, List.isEmpty_iff]
      exact List.map_eq_nil_iff.1 hnone
    rw [NamedType.render_bare hnone]
    exact if_pos hempty
  · have hsome : ¬ p.substitution.isEmpty := by
      rw [Substitution.isEmpty, OrderedMap.isEmpty, List.isEmpty_iff]
      exact fun hempty => hnone (List.map_eq_nil_iff.2 hempty)
    rw [NamedType.render_args hnone, ← commaSeparated, ← String.append_assoc,
      ← String.append_assoc]
    exact if_neg hsome

namespace Environment

variable {env : Environment} {e m : Entry} {u counted : Use} {splice : Splice}
  {key : ChainKey} {outer : List Splice}

/-- The chain of `m` is put into a chain of `e` for a use, with the arguments written there. -/
structure PutsIn (env : Environment) (e : Entry) (u : Use) (m : Entry) (splice : Splice) :
    Prop where
  declared : env.get? m.name = some m
  resolved : env.resolve? u.target.name u.nesting .asType = some m.name
  key : splice.key = ⟨m.name, .onInstance⟩
  binding : splice.binding =
    env.bindArgs m.name (env.siteArgs e u.params u.nesting u.target.args)
  place : env.HasSplice ⟨e.name, u.side⟩ splice

/-- The arguments of a use, as they stand in a chain into which the chain of the entity has come:
with resolved names, in terms of the type parameters of the entity, and with what these stand for
put in at each of the places on the way. -/
def argsAt (env : Environment) (e : Entry) (u : Use) (outer : List Splice) : List TypeExpr :=
  (env.siteArgs e u.params u.nesting u.target.args).map (·.along outer)

theorem length_argsAt : (env.argsAt e u outer).length = u.target.args.length := by
  rw [argsAt, siteArgs, List.length_map, List.length_map]

/-! ## What is put in -/

theorem length_paramsOf (h : env.get? m.name = some m) :
    (env.paramsOf m.name).length = m.paramNames.length := by
  rw [← paramsOf_of_get? h, typeParamNames, List.length_map]

/-- Where nothing is found, every directive has its target put in, with the right number of
arguments. -/
theorem Silent.exists_putsIn_mixin (h : env.Silent) (henv : env.Anchored)
    (he : env.get? e.name = some e) {b : Body} (hb : b ∈ e.bodies) {m : Mixin}
    (hm : Member.mixin m ∈ b.members) :
    ∃ target splice, env.PutsIn e (.ofMixin b m) target splice ∧
      m.target.args.length = target.paramNames.length := by
  have hfindings : env.mixinFindings e b.nesting m = [] := h.member (mem_entities_of_get? he) hb hm
  cases hsplice : env.mixinSplice? e b m with
  | none =>
    obtain ⟨d, hd, -⟩ := exists_finding_of_leftOut hsplice
    rw [hfindings] at hd
    cases hd
  | some splice =>
    obtain ⟨blueprint, other, hblueprint, hmem, hother⟩ := takesIn_of_mixinSplice? hb hm hsplice
    obtain rfl := Option.some.inj (hsplice.symm.trans hother)
    have harity := arityFindings_subset_mixinFindings hsplice
    obtain ⟨name, kind, hresolve, hkind, -, rfl⟩ := mixinSplice?_eq_some hsplice
    obtain ⟨target, htarget, -⟩ := kind?_eq_some_iff.1 hkind
    obtain rfl := (henv name target htarget).named
    refine ⟨target, _,
      ⟨htarget, resolve?_eq_some_iff.2 hresolve, rfl, rfl, blueprint, ?_, hmem⟩, ?_⟩
    · rw [Environment.blueprint, he]
      exact hblueprint
    · by_contra hlength
      rw [← length_paramsOf htarget] at hlength
      obtain ⟨d, hd, -⟩ := exists_finding_of_length_ne hlength
      have hfound := harity hd
      rw [hfindings] at hfound
      cases hfound

/-- Where nothing is found and the fragments of a class name one superclass, it is put in, and each
of them writes the right number of arguments. -/
theorem Silent.exists_putsIn_superClass (h : env.Silent) (henv : env.Anchored)
    (he : env.get? e.name = some e) (hkind : e.kind = .klass)
    (hsame : (e.fragments.filterMap env.resolvedSuper?).Pairwise (· = ·))
    {f g : Fragment EntityDecl} {t first : NamedType} (hf : f ∈ e.fragments)
    (ht : f.decl.superClass? = some t) (hfirst : e.superClass? = some (first, g)) :
    ∃ m splice, env.PutsIn e (.ofSuperClass g first) m splice ∧
      env.resolve? t.name f.nesting .asType = some m.name ∧
      t.args.length = m.paramNames.length ∧ first.args.length = m.paramNames.length := by
  have hentity := mem_entities_of_get? he
  obtain ⟨hg, hgfirst⟩ := superClass?_written hfirst
  obtain ⟨super, args, used, -, hargs, hused, -, -, hlength, hlength'⟩ :=
    h.exists_used hentity hsame hf (Option.isSome_iff_exists.2 ⟨t, ht⟩)
  obtain ⟨name, args', hfound, hclass, -⟩ :=
    h.denotedSuper? hentity hg (Option.isSome_iff_exists.2 ⟨first, hgfirst⟩)
  have hsuper := superClass?_of_denotedSuper? hfirst hfound hclass
  obtain ⟨rfl, rfl⟩ := Prod.mk.inj (Option.some.inj (hused.symm.trans hsuper))
  obtain ⟨hresolve, rfl⟩ := denotedSuper?_eq_some ht hargs
  obtain ⟨hresolve', rfl⟩ := denotedSuper?_eq_some hgfirst hfound
  obtain ⟨m, hm, -⟩ := isClass_iff.1 hclass
  obtain rfl := (henv super m hm).named
  have hplace : env.HasSplice ⟨e.name, .onInstance⟩ ⟨⟨m.name, .onInstance⟩,
      env.bindArgs m.name (env.siteArgs e g.decl.typeParams g.nesting first.args),
      .superclass⟩ := by
    obtain ⟨b, hb⟩ : ∃ b, env.entryBlueprint e .onInstance = .ok b :=
      exists_entryBlueprint (by rw [hkind]; decide)
    refine ⟨b, ?_, ((pieces_of_entryBlueprint hb).splices _).2 (.superClass hkind rfl ?_)⟩
    · rw [blueprint, he]
      exact hb
    · rw [superClassSplices, hused]
      exact List.mem_singleton_self _
  rw [siteArgs, List.length_map, length_paramsOf hm] at hlength hlength'
  exact ⟨m, _, ⟨hm, hresolve', rfl, rfl, hplace⟩, hresolve, hlength, hlength'⟩

/-- The arguments of a use can be read back from what is put in for it, if no type parameter of the
target is repeated. -/
theorem PutsIn.values_along (h : env.PutsIn e u m splice)
    (hlength : u.target.args.length = m.paramNames.length) (hnodup : m.paramNames.Nodup)
    (outer : List Splice) :
    ((ownEntry m .onInstance).along (outer ++ [splice])).substitution.values =
      env.argsAt e u outer := by
  have hput : ((ownEntry m .onInstance).along [splice]).substitution =
      (Substitution.bind m.paramNames (env.siteArgs e u.params u.nesting u.target.args)).compose
        (.identity m.paramNames) := by
    rw [← paramsOf_of_get? h.declared, ← bindArgs, ← h.binding, paramsOf_of_get? h.declared]
    rfl
  rw [AncestorEntry.along_append, AncestorEntry.values_along, hput,
    Substitution.values_bind_compose_identity hnodup]
  · rfl
  · rw [siteArgs, List.length_map, hlength]

/-- An entity that is put in has as many values as other types only if no type parameter is
repeated. -/
theorem nodup_of_sameTypes_along {path : List Splice} {ts : List TypeExpr}
    (hlength : ts.length = m.paramNames.length)
    (h : SameTypes ((ownEntry m .onInstance).along path).substitution.values ts) :
    m.paramNames.Nodup := by
  have hall := congrArg List.length h
  rw [List.length_map, List.length_map, AncestorEntry.values_along, List.length_map,
    hlength] at hall
  exact Substitution.length_values_identity_iff.1 hall

theorem PutsIn.values_along_iff (h : env.PutsIn e u m splice)
    (hlength : u.target.args.length = m.paramNames.length) (outer : List Splice) :
    ((ownEntry m .onInstance).along (outer ++ [splice])).substitution.values =
      env.argsAt e u outer ↔ m.paramNames.Nodup := by
  constructor
  · intro hkept
    exact nodup_of_sameTypes_along (length_argsAt.trans hlength) (congrArg _ hkept)
  · intro hnodup
    exact h.values_along hlength hnodup outer

/-- What is put in for the use that counts has the arguments of another use exactly if these are the
same and can be read back. -/
theorem PutsIn.sameTypes_along_iff (h : env.PutsIn e counted m splice)
    (hcounted : counted.target.args.length = m.paramNames.length)
    (hlength : u.target.args.length = m.paramNames.length) (outer : List Splice) :
    SameTypes ((ownEntry m .onInstance).along (outer ++ [splice])).substitution.values
        (env.argsAt e u outer) ↔
      m.paramNames.Nodup ∧ SameTypes (env.argsAt e counted outer) (env.argsAt e u outer) := by
  constructor
  · intro hkept
    have hnodup := nodup_of_sameTypes_along (length_argsAt.trans hlength) hkept
    rw [h.values_along hcounted hnodup outer] at hkept
    exact ⟨hnodup, hkept⟩
  · rintro ⟨hnodup, hsame⟩
    rwa [h.values_along hcounted hnodup outer]

theorem PutsIn.render_along (h : env.PutsIn e u m splice)
    (hlength : u.target.args.length = m.paramNames.length) (hnodup : m.paramNames.Nodup)
    (outer : List Splice) (span : Span) :
    ((ownEntry m .onInstance).along (outer ++ [splice])).render =
      (NamedType.mk m.name (env.argsAt e u outer) span).render := by
  have hkey := AncestorEntry.key_along (ownEntry m .onInstance) (outer ++ [splice])
  obtain ⟨hname, hcontext⟩ := ChainKey.mk.inj hkey
  rw [AncestorEntry.render_eq_named hcontext span, h.values_along hlength hnodup outer, hname]
  rfl

/-- What is put in is in every chain into which the chain of the entity comes. -/
theorem PutsIn.mem_keys (h : env.PutsIn e u m splice) (henv : env.Anchored)
    (houter : env.Carries key outer ⟨e.name, u.side⟩) {c : Chain}
    (hc : env.chain [] key = .ok c) :
    ((ownEntry m .onInstance).along (outer ++ [splice])).key ∈ c.entries.map (·.key) := by
  rw [AncestorEntry.key_along, key_ownEntry, ← h.key, mem_keys_iff_leadsTo henv hc]
  exact (houter.snoc h.place).leadsTo

/-! ## Where entries come from -/

/-- A class is put in for which no arguments are written: as a superclass that is not written or has
no arguments, as the object of the superclass, or as the class of an object. -/
def Unargued (env : Environment) (splice : Splice) : Prop :=
  env.isClass splice.key.name ∧
    (splice.binding = .empty ∨ splice.binding = env.bindArgs splice.key.name [])

theorem unargued_of_mem_metaclassSplices {name : String}
    (h : splice ∈ env.metaclassSplices name) : env.Unargued splice := by
  rw [metaclassSplices] at h
  split at h
  · rw [List.mem_singleton.1 h]
    exact ⟨‹_›, Or.inl rfl⟩
  · exact absurd h List.not_mem_nil

/-- What is put in at a place of a side is put in for a use or without arguments. -/
theorem putsIn_or_unargued (henv : env.Anchored) (h : env.HasSplice key splice) :
    (∃ e u m, env.get? e.name = some e ∧ e.Uses u u ∧ key = ⟨e.name, u.side⟩ ∧
      env.PutsIn e u m splice) ∨ env.Unargued splice := by
  obtain ⟨b, hb, hs⟩ := h
  obtain ⟨e, he, hpieces⟩ := pieces_of_blueprint hb
  have hname := (henv key.name e he).named
  have hself : env.get? e.name = some e := by rw [hname, he]
  cases (hpieces.splices splice).1 hs with
  | @mixin directive hside hmixin =>
    obtain ⟨body, hbody, m, hm, rfl, hsplice⟩ := exists_of_mem_mixinSplices hmixin
    obtain ⟨name, kind, hresolve, hkind, -, rfl⟩ := mixinSplice?_eq_some hsplice
    obtain ⟨target, htarget, -⟩ := kind?_eq_some_iff.1 hkind
    obtain rfl := (henv name target htarget).named
    have hkey : key = ⟨e.name, m.kind.side⟩ := by rw [hname, hside]
    exact Or.inl ⟨e, _, target, hself, .mixin hbody hm, hkey, htarget,
      resolve?_eq_some_iff.2 hresolve, rfl, rfl, b, hkey ▸ hb, hs⟩
  | superClass _ hside hsuper =>
    rw [superClassSplices] at hsuper
    split at hsuper
    · exact absurd hsuper List.not_mem_nil
    · rename_i name args hfound
      obtain rfl := List.mem_singleton.1 hsuper
      obtain ⟨hclass, rfl | ⟨t, f, hwritten, hresolve, rfl⟩⟩ := superClass?_eq_some hfound
      · exact Or.inr ⟨hclass, Or.inr rfl⟩
      · obtain ⟨hf, ht⟩ := superClass?_written hwritten
        obtain ⟨m, hm, -⟩ := isClass_iff.1 hclass
        obtain rfl := (henv name m hm).named
        have hkey : key = ⟨e.name, .onInstance⟩ := by rw [hname, ← hside]
        exact Or.inl ⟨e, _, m, hself, .superClass hf ht hwritten, hkey, hm,
          resolve?_eq_some_iff.2 hresolve, rfl, rfl, b, hkey ▸ hb, hs⟩
  | singletonSuper _ _ hsuper =>
    rw [singletonSuperSplices] at hsuper
    split at hsuper
    · exact Or.inr (unargued_of_mem_metaclassSplices hsuper)
    · rename_i name args hfound
      obtain rfl := List.mem_singleton.1 hsuper
      exact Or.inr ⟨(superClass?_eq_some hfound).1, Or.inl rfl⟩
  | moduleClass _ _ hmeta => exact Or.inr (unargued_of_mem_metaclassSplices hmeta)

/-- How an entry that is not the entity itself has come into the chain of a side. -/
inductive CameIn (env : Environment) (key : ChainKey) (p : AncestorEntry) : Prop
  /-- It is what is put in for a use, in a chain that is put in at the outer places. -/
  | used {e m : Entry} {u : Use} {outer : List Splice} {splice : Splice} (he : e ∈ env.entities)
      (hu : e.Uses u u) (hputs : env.PutsIn e u m splice)
      (houter : env.Carries key outer ⟨e.name, u.side⟩)
      (hp : p = (ownEntry m .onInstance).along (outer ++ [splice]))
  /-- It is a class that is put in without arguments. -/
  | unargued {m : Entry} {outer : List Splice} {middle : ChainKey} {splice : Splice}
      (hplace : env.HasSplice middle splice) (hclass : env.Unargued splice)
      (houter : env.Carries key outer middle)
      (hp : p = (ownEntry m p.context).along (outer ++ [splice]))

theorem cameIn_of_mem_entries (henv : env.Anchored) {c : Chain} (h : env.chain [] key = .ok c)
    {p : AncestorEntry} (hp : p ∈ c.entries) : p.key = key ∨ env.CameIn key p := by
  obtain ⟨path, m, hpath, hm, halong⟩ := exists_path_of_mem_entries henv h hp
  rcases path.eq_nil_or_concat' with rfl | ⟨outer, splice, rfl⟩
  · cases hpath
    exact Or.inl rfl
  · obtain ⟨middle, houter, hplace, hkey⟩ := hpath.exists_last
    refine Or.inr ?_
    rcases putsIn_or_unargued henv hplace with ⟨e, u, m', he, hu, rfl, hputs⟩ | hclass
    · -- the entity that is put in is the one that the entry is of
      obtain ⟨hname, hcontext⟩ := ChainKey.mk.inj (hkey.symm.trans hputs.key)
      have hsame := hputs.declared
      rw [← hname, hm] at hsame
      obtain rfl := Option.some.inj hsame
      rw [hcontext] at halong
      exact .used (mem_entities_of_get? he) hu hputs houter halong
    · exact .unargued hplace hclass houter halong

end Environment

/-! ## Sessions -/

/-- In a valid session the target of every use is put in for the use that counts, with the right
number of arguments. -/
theorem SessionSetup.exists_putsIn {setup : SessionSetup} {s : Session}
    (hbuild : setup.build = .ok s) (hvalid : s.validate = []) {e : Entry}
    (he : e ∈ s.env.entities) {u counted : Use} (hu : e.Uses u counted) :
    ∃ m splice, s.env.PutsIn e counted m splice ∧ counted.side = u.side ∧
      s.env.resolve? u.target.name u.nesting .asType = some m.name ∧
      u.target.args.length = m.paramNames.length ∧
      counted.target.args.length = m.paramNames.length := by
  have hsilent := Session.silent_of_validate hvalid
  have henv := anchored_of_build hbuild
  have hget := get?_of_mem_entities hbuild e he
  cases hu with
  | mixin hb hm =>
    obtain ⟨m, splice, hputs, hlength⟩ := hsilent.exists_putsIn_mixin henv hget hb hm
    exact ⟨m, splice, hputs, rfl, hputs.resolved, hlength, hlength⟩
  | superClass hf ht hfirst =>
    have hkind : e.kind = .klass := by
      obtain ⟨parsed, hmerged⟩ := env_of_build hbuild
      rw [← mergeSources_uniform (hmerged ▸ he) _ hf]
      exact EntityDecl.kind_of_superClass? ht
    have hsame := pairwise_resolvedSuper hbuild hvalid hget hkind
    obtain ⟨m, splice, hputs, hresolve, hlengths⟩ :=
      hsilent.exists_putsIn_superClass henv hget hkind hsame hf ht hfirst
    exact ⟨m, splice, hputs, rfl, hresolve, hlengths⟩

/-- In a valid session the target of every use is put in with as many arguments as it has type
parameters, and it is in every chain into which the chain of the entity comes.  There the values of
its entry are the arguments of the use that counts exactly if no type parameter of the target is
repeated, and then the entry is printed like the type with these arguments.  They are the arguments
of another use for which it counts if those are the same.  A chain has no other entries than the
entity itself, what is put in for uses, and classes for which nobody writes arguments. -/
theorem SessionSetup.args_kept_iff {setup : SessionSetup} {s : Session}
    (hbuild : setup.build = .ok s) (hvalid : s.validate = []) :
    (∀ e ∈ s.env.entities, ∀ u counted, e.Uses u counted → ∃ m splice,
      s.env.PutsIn e counted m splice ∧
      s.env.resolve? u.target.name u.nesting .asType = some m.name ∧
      u.target.args.length = m.paramNames.length ∧
      ∀ key outer p, s.env.Carries key outer ⟨e.name, u.side⟩ →
        p = (ownEntry m .onInstance).along (outer ++ [splice]) →
        (∃ c, s.env.ancestors key = .ok c ∧ p.key ∈ c.entries.map (·.key)) ∧
        (p.substitution.values = s.env.argsAt e counted outer ↔ m.paramNames.Nodup) ∧
        (SameTypes p.substitution.values (s.env.argsAt e u outer) ↔ m.paramNames.Nodup ∧
          SameTypes (s.env.argsAt e counted outer) (s.env.argsAt e u outer)) ∧
        (m.paramNames.Nodup → p.render =
          (NamedType.mk m.name (s.env.argsAt e counted outer) u.target.span).render)) ∧
    ∀ key c, s.env.ancestors key = .ok c → ∀ p ∈ c.entries, p.key = key ∨ s.env.CameIn key p := by
  have hsilent := Session.silent_of_validate hvalid
  have henv := anchored_of_build hbuild
  refine ⟨fun e he u counted hu => ?_, fun key c hc p hp => ?_⟩
  · obtain ⟨m, splice, hputs, hside, hresolve, hlength, hcounted⟩ :=
      exists_putsIn hbuild hvalid he hu
    refine ⟨m, splice, hputs, hresolve, hlength, ?_⟩
    rintro key outer p houter rfl
    rw [← hside] at houter
    obtain ⟨c, hc, -⟩ := hsilent.chain_ok henv (houter.askable hputs.place)
    have hmem := hputs.mem_keys henv houter hc
    rw [← Environment.ancestors_eq_chain] at hc
    exact ⟨⟨c, hc, hmem⟩, hputs.values_along_iff hcounted outer,
      hputs.sameTypes_along_iff hcounted hlength outer,
      fun hnodup => hputs.render_along hcounted hnodup outer u.target.span⟩
  · rw [Environment.ancestors_eq_chain] at hc
    exact Environment.cameIn_of_mem_entries henv hc hp

/-- A class that inherits from a generic class, which prepends a module that includes another
one. -/
def hostSetup : SessionSetup :=
  .ofFile "a.rbs" ("class A\nend\nmodule Pair[K, V]\nend\n" ++
    "module Wrap[T]\ninclude Pair[A, T]\nend\nclass Base[X]\nprepend Wrap[X]\nend\n" ++
    "class Host < Base[A?]\nend\n")

set_option maxRecDepth 100000 in
/-- All arguments are kept there. -/
theorem host_args_kept : ∃ s c, hostSetup.build = .ok s ∧ s.validate = [] ∧
    (∃ e ∈ s.env.entities, ∃ u, e.Uses u u ∧ u.target.args.length = 2) ∧
    (∀ e ∈ s.env.entities, ∀ u counted, e.Uses u counted → ∃ m splice,
      s.env.PutsIn e counted m splice ∧
      ∀ key outer, s.env.Carries key outer ⟨e.name, u.side⟩ →
        ((ownEntry m .onInstance).along (outer ++ [splice])).substitution.values =
          s.env.argsAt e counted outer) ∧
    s.env.ancestors (instanceSide "Host") = .ok c ∧
    c.entries.map AncestorEntry.render =
      ["::Host", "::Wrap[::A?]", "::Pair[::A, ::A?]", "::Base[::A?]"] ∧
    ∀ p ∈ c.entries, p.key = instanceSide "Host" ∨ s.env.CameIn (instanceSide "Host") p := by
  obtain ⟨s, hbuild, hs⟩ := exists_ok_of_any hostSetup.build
    (fun s => s.validate.isEmpty && decide s.env.DistinctParams &&
      ((s.env.get? (.topLevel "Wrap")).any fun e => e.bodies.any fun b =>
        (b.mixins .included).any fun m => m.target.args.length = 2) &&
      (s.env.chain [] (instanceSide "Host")).toOption.any fun c =>
        c.entries.map AncestorEntry.render =
          ["::Host", "::Wrap[::A?]", "::Pair[::A, ::A?]", "::Base[::A?]"])
    (by decide +kernel)
  simp only [Bool.and_eq_true, List.isEmpty_iff, decide_eq_true_eq] at hs
  obtain ⟨⟨⟨hvalid, hdistinct⟩, huse⟩, hchain⟩ := hs
  simp only [Option.any_eq_true, List.any_eq_true, mem_mixins_iff, decide_eq_true_eq] at huse
  obtain ⟨e, he, b, hb, m, ⟨hm, -⟩, htwo⟩ := huse
  obtain ⟨c, hc, hrender⟩ := exists_ok_of_any _ _ hchain
  have hancestors : s.env.ancestors (instanceSide "Host") = .ok c := by
    rw [Environment.ancestors_eq_chain, hc]
  obtain ⟨huses, hentries⟩ := SessionSetup.args_kept_iff hbuild hvalid
  refine ⟨s, c, hbuild, hvalid, ⟨e, Environment.mem_entities_of_get? he, _, .mixin hb hm, htwo⟩,
    fun e he u counted hu => ?_, hancestors, of_decide_eq_true hrender,
    hentries _ c hancestors⟩
  obtain ⟨m, splice, hputs, -, -, hkept⟩ := huses e he u counted hu
  have hnodup : m.paramNames.Nodup :=
    hdistinct.nodup_paramNames (Environment.mem_entities_of_get? hputs.declared)
  exact ⟨m, splice, hputs, fun key outer houter => (hkept key outer _ houter rfl).2.1.2 hnodup⟩

/-- A class that includes a module two of whose type parameters have the same name. -/
def pairSetup : SessionSetup :=
  .ofFile "a.rbs" ("class A\nend\n\nclass B\nend\n\nmodule Pair[T, T]\nend\n\n" ++
    "class Host\n  include Pair[A, B]\nend\n")

set_option maxRecDepth 100000 in
/-- Nothing is found there, but of the two arguments only the second one is in the chain. -/
theorem pair_loses_argument : ∃ s e u m splice c, pairSetup.build = .ok s ∧ s.validate = [] ∧
    e ∈ s.env.entities ∧ e.Uses u u ∧ s.env.PutsIn e u m splice ∧
    u.target.args.length = 2 ∧ m.paramNames.length = 2 ∧
    ((ownEntry m .onInstance).along [splice]).substitution.values.length = 1 ∧
    s.env.ancestors ⟨e.name, u.side⟩ = .ok c ∧
    c.entries.map AncestorEntry.render = ["::Host", "::Pair[::B]"] := by
  obtain ⟨s, hbuild, hs⟩ := exists_ok_of_any pairSetup.build
    (fun s => s.validate.isEmpty &&
      ((s.env.get? (.topLevel "Host")).any fun e => e.bodies.any fun b =>
        (b.mixins .included).any fun m => m.target.args.length = 2 &&
          (s.env.resolve? m.target.name b.nesting .asType).any fun name =>
            (s.env.get? name).any fun target => target.paramNames = ["T", "T"]) &&
      (s.env.chain [] (instanceSide "Host")).toOption.any fun c =>
        c.entries.map AncestorEntry.render = ["::Host", "::Pair[::B]"])
    (by decide +kernel)
  simp only [Bool.and_eq_true, List.isEmpty_iff] at hs
  obtain ⟨⟨hvalid, huse⟩, hchain⟩ := hs
  simp only [Option.any_eq_true, List.any_eq_true, Bool.and_eq_true, mem_mixins_iff,
    decide_eq_true_eq] at huse
  obtain ⟨e, he, b, hb, m, ⟨hm, hkind⟩, htwo, name, hresolve, target, htarget, hparams⟩ := huse
  obtain ⟨c, hc, hrender⟩ := exists_ok_of_any _ _ hchain
  have henv := SessionSetup.anchored_of_build hbuild
  have hname : e.name = .topLevel "Host" := (henv _ e he).named
  obtain ⟨m', splice, hputs, -⟩ := SessionSetup.exists_putsIn hbuild hvalid
    (Environment.mem_entities_of_get? he) (.mixin hb hm)
  -- what is put in is the module that was looked at
  obtain rfl : name = m'.name := Option.some.inj (hresolve.symm.trans hputs.resolved)
  obtain rfl := Option.some.inj (htarget.symm.trans hputs.declared)
  refine ⟨s, e, _, target, splice, c, hbuild, hvalid, Environment.mem_entities_of_get? he,
    .mixin hb hm, hputs, htwo, by rw [hparams]; rfl, ?_, ?_, of_decide_eq_true hrender⟩
  · rw [AncestorEntry.values_along, List.length_map]
    show (Substitution.identity target.paramNames).values.length = 1
    rw [hparams]
    decide
  · show s.env.ancestors ⟨e.name, m.kind.side⟩ = .ok c
    rw [hname, hkind, Environment.ancestors_eq_chain]
    exact hc

end RubySig
