import RubySig.Proofs.Ancestry.Entries
import RubySig.Proofs.Definition.Overloads
import RubySig.Proofs.Validation.Resolved
import RubySig.Proofs.Validation.Silence

/-!
# Validated sessions are sound

If nothing is found in a session, every side of an entity that has methods has a chain and a
definition, and every name in them is the absolute name of a declared entity, used as it has to be.
Findings are collected from what is written, in the scopes in which it is written; chains and
definitions are made of the same places, so no name gets into them without having been looked at.

* `Environment.Silent.resolvedIn_binding`: what a chain puts into another one is resolved.
* `Environment.Silent.resolvedIn_substitution`: the substitutions of the entries of a chain are
  resolved.
* `Environment.Silent.resolvedIn_overload`: the overloads that are written are resolved when they
  are prepared for a chain.
* `SessionSetup.resolved_of_validate`: all of it, for sessions.
-/

namespace RubySig

namespace Environment

variable {env : Environment} {e : Entry}

/-! ## Scopes -/

theorem anchored_of_mem_bodies {name : TypeName} (h : e.AnchoredAt name) {b : Body}
    (hb : b ∈ e.bodies) : b.nesting.Anchored := by
  unfold Entry.bodies at hb
  split at hb
  · obtain ⟨f, hf, rfl⟩ := List.mem_map.1 hb
    have hname : e.name.isAbsolute := by
      rw [h.named]
      exact h.absolute
    exact (h.nesting f hf).enter hname
  · exact absurd hb List.not_mem_nil

/-! ## Arguments -/

/-- Arguments without findings are resolved where they become part of a chain. -/
theorem resolvedIn_siteArgs {params : List TypeParam} {nesting : Nesting}
    (hnesting : nesting.Anchored) {target : NamedType}
    (h : env.referencesFindings nesting target.argReferences = []) :
    ∀ a ∈ env.siteArgs e params nesting target.args, a.ResolvedIn env := by
  obtain ⟨name, args, span⟩ := target
  rw [NamedType.argReferences, referencesOfTypes_eq, referencesFindings_flatMap] at h
  intro a ha
  obtain ⟨arg, harg, rfl⟩ := List.mem_map.1 ha
  have habsolute := resolvedIn_absolutize hnesting (h arg harg)
  exact (resolvedIn_renameParams e.paramNames params).apply habsolute

theorem resolvedIn_bindArgs {name : TypeName} {args : List TypeExpr}
    (h : ∀ a ∈ args, a.ResolvedIn env) : (env.bindArgs name args).ResolvedIn env :=
  Substitution.resolvedIn_bind _ h

/-- The superclass that counts is written in a fragment of a class. -/
theorem superClass?_written {s : NamedType} {f : Fragment EntityDecl}
    (h : e.superClass? = some (s, f)) : f ∈ e.fragments ∧ f.decl.superClass? = some s := by
  obtain ⟨g, hg, hmap⟩ := List.exists_of_findSome?_eq_some h
  obtain ⟨t, ht, hpair⟩ := Option.map_eq_some_iff.1 hmap
  obtain ⟨rfl, rfl⟩ := Prod.mk.inj hpair
  exact ⟨hg, ht⟩

theorem superClass_references_of_header {f : Fragment EntityDecl} {s : NamedType}
    (h : env.headerFindings e f = []) (hs : f.decl.superClass? = some s) :
    env.referencesFindings f.nesting s.argReferences = [] := by
  obtain ⟨decl, nesting, source⟩ := f
  cases decl with
  | klass d =>
    have hd : d.superClass = some s := hs
    simp only [headerFindings, hd, Option.map_some, Option.getD_some, superClassFindings,
      List.append_eq_nil_iff] at h
    exact h.2.2
  | module _ | interface _ | typeAlias _ | constant _ => cases hs

/-- What a chain puts into another one for the type parameters is resolved. -/
theorem Silent.resolvedIn_binding (h : env.Silent) {name : TypeName} (he : env.get? name = some e)
    (hanchored : e.AnchoredAt name) {s : Splice} (hs : env.SpliceOf e s) :
    s.binding.ResolvedIn env := by
  have hentity := mem_entities_of_get? he
  cases hs with
  | mixin hb hm _ _ _ =>
    have hfindings := h.member hentity hb hm
    rw [memberFindings, mixinFindings, List.append_eq_nil_iff] at hfindings
    have hnesting := anchored_of_mem_bodies hanchored hb
    exact resolvedIn_bindArgs (resolvedIn_siteArgs hnesting hfindings.2)
  | superClass hwritten _ _ =>
    obtain ⟨hf, hsuper⟩ := superClass?_written hwritten
    have hfindings := superClass_references_of_header (h.header hentity hf) hsuper
    exact resolvedIn_bindArgs (resolvedIn_siteArgs (hanchored.nesting _ hf) hfindings)
  | plain _ hbinding =>
    rcases hbinding with rfl | rfl
    · exact Substitution.resolvedIn_empty
    · exact resolvedIn_bindArgs fun _ ha => absurd ha List.not_mem_nil

/-! ## Chains -/

theorem resolvedIn_own (e : Entry) (context : Context) :
    (ownEntry e context).substitution.ResolvedIn env := by
  cases context with
  | onInstance => exact Substitution.resolvedIn_identity e.paramNames
  | onSingleton => exact Substitution.resolvedIn_empty

/-- The substitutions of the entries of a chain are resolved. -/
theorem Silent.resolvedIn_substitution (h : env.Silent) (henv : env.Anchored) {key : ChainKey}
    {c : Chain} (hc : env.chain [] key = .ok c) :
    ∀ a ∈ c.entries, a.substitution.ResolvedIn env := by
  induction hc using chainOkInduction with
  | step key b chainOf hb hparts hchain =>
    intro a ha
    obtain ⟨e, he, hpieces⟩ := pieces_of_blueprint hb
    rcases Blueprint.mem_join ha with rfl | ⟨s, hs, f, hf, -, hsubstitution⟩
    · rw [hpieces.own]
      exact resolvedIn_own e key.context
    · obtain ⟨-, ih⟩ := hparts s.key (Blueprint.key_mem_keys hs)
      have hsplice := spliceOf_of_pieceOf ((hpieces.splices s).1 hs)
      have hbinding := h.resolvedIn_binding he (henv key.name e he) hsplice
      rw [hsubstitution]
      exact hbinding.compose (ih f hf)

/-! ## Overloads -/

/-- The accessors of an attribute mention what its type mentions. -/
theorem references_accessors {a : AttributeMember} {nesting : Nesting}
    (h : env.referencesFindings nesting a.type.references = []) {w : MethodType}
    (hw : w ∈ a.accessors.map (·.2)) : env.referencesFindings nesting w.references = [] := by
  have htypes : ∀ t ∈ w.types, t = a.type := by
    simp only [AttributeMember.accessors, List.map_append, List.mem_append] at hw
    rcases hw with hw | hw
    · split at hw
      · obtain rfl := List.mem_singleton.1 hw
        simp [MethodType.types, AttributeMember.readerType, FunctionType.returning,
          FunctionType.types, blockTypes]
      · exact absurd hw List.not_mem_nil
    · split at hw
      · obtain rfl := List.mem_singleton.1 hw
        simp [MethodType.types, AttributeMember.writerType, FunctionType.types, blockTypes]
      · exact absurd hw List.not_mem_nil
  rw [MethodType.references_eq, referencesFindings_flatMap]
  intro t ht
  rw [htypes t ht]
  exact h

theorem references_of_memberFindings {owner : Entry} {nesting : Nesting} {m : Member}
    (h : env.memberFindings owner nesting m = []) {w : MethodType} (hw : w ∈ m.overloads) :
    env.referencesFindings nesting w.references = [] := by
  cases m with
  | method m =>
    rw [memberFindings, referencesFindings_flatMap] at h
    exact h w hw
  | attr a => exact references_accessors h hw
  | methodAlias _ | mixin _ | marker _ | typedVar _ | nested _ => exact absurd hw List.not_mem_nil

/-- An overload that is written is resolved when it is prepared for a chain. -/
theorem Silent.resolvedIn_overload (h : env.Silent) (henv : env.Anchored) {a : AncestorEntry}
    (ha : a.substitution.ResolvedIn env) (he : env.get? a.name = some e) {b : Body}
    (hb : b ∈ e.bodies) {w : MethodType} (hw : w ∈ b.overloads) :
    (prepareOverload env a e.paramNames b w).ResolvedIn env := by
  obtain ⟨m, hm, hwm⟩ := List.mem_flatMap.1 hw
  have hfindings := references_of_memberFindings (h.member (mem_entities_of_get? he) hb hm) hwm
  have hnesting := anchored_of_mem_bodies (henv a.name e he) hb
  have hwritten := resolvedIn_absolutizeMethod hnesting hfindings
  have hrenamed := (resolvedIn_renameParams e.paramNames b.typeParams).applyMethod hwritten
  exact ha.applyMethod hrenamed

end Environment

/-! ## Sessions -/

/-- In a session in which nothing is found, every side of a declared entity that has methods has a
chain and a definition.  All names in the substitutions of the chain and in the overloads of the
methods are absolute names of declared entities of a fitting kind, with the right number of
arguments. -/
theorem SessionSetup.resolved_of_validate {setup : SessionSetup} {s : Session}
    (hbuild : setup.build = .ok s) (hvalid : s.validate = []) {key : ChainKey} {e : Entry}
    (he : s.env.get? key.name = some e) (hside : key.context ∈ Environment.sides e.kind) :
    ∃ c d, s.env.ancestors key = .ok c ∧ s.env.definition key = .ok d ∧ d.ancestors = c ∧
      (∀ a ∈ c.entries, a.substitution.ResolvedIn s.env) ∧
      ∀ m ∈ d.methods, ∀ o ∈ m.overloads, o.ResolvedIn s.env := by
  have hsilent := Session.silent_of_validate hvalid
  have henv := anchored_of_build hbuild
  obtain ⟨c, hc, -⟩ := hsilent.chain_ok henv ⟨e, he, hside⟩
  have hdefinition : s.env.definition key = .ok (s.env.definitionOf c) :=
    Environment.definition_eq_ok_iff.2 ⟨c, hc, rfl⟩
  have hsubstitution := hsilent.resolvedIn_substitution henv hc
  refine ⟨c, s.env.definitionOf c, ?_, hdefinition, rfl, hsubstitution, ?_⟩
  · rw [Environment.ancestors_eq_chain, hc]
  · intro m hm o ho
    obtain ⟨a, ha, declared, hget, b, hb, w, hw, rfl⟩ :=
      Environment.exists_written_of_definition hdefinition hm ho
    exact hsilent.resolvedIn_overload henv (hsubstitution a ha) hget hb hw

/-- A class whose superclass is nested, generic, and reopened with another spelling of its type
parameter. -/
def nestedSetup : SessionSetup :=
  .ofFile "a.rbs" ("module M\nclass I\nend\nclass B[T]\ndef k: () -> singleton(I)\nend\n" ++
    "class B[U]\ndef p: [X < I] (U, X) -> B[X]\nend\nend\nclass S < M::B[M::I]\nend\n")

set_option maxRecDepth 100000 in
/-- The two methods that the class inherits are resolved. -/
theorem resolved_of_nested_superclass : ∃ s c d, nestedSetup.build = .ok s ∧ s.validate = [] ∧
    s.env.ancestors (instanceSide "S") = .ok c ∧
    s.env.definition (instanceSide "S") = .ok d ∧
    (∀ a ∈ c.entries, a.substitution.ResolvedIn s.env) ∧
    (∀ m ∈ d.methods, ∀ o ∈ m.overloads, o.ResolvedIn s.env) ∧
    ∀ n, n ∈ d.names ↔ n ∈ ["k", "p"] := by
  obtain ⟨s, hbuild, hs⟩ := exists_ok_of_any nestedSetup.build
    (fun s => s.validate.isEmpty && (s.env.get? (.topLevel "S")).any (fun e => e.kind = .klass) &&
      (s.env.outline (instanceSide "S")).any fun o => o.2 = ["k", "p"])
    (by decide +kernel)
  simp only [Bool.and_eq_true, List.isEmpty_iff] at hs
  obtain ⟨e, he, hkind⟩ := (Option.any_eq_true _ _).1 hs.1.2
  have hside : Context.onInstance ∈ Environment.sides e.kind := by
    rw [of_decide_eq_true hkind]
    decide
  have hget : s.env.get? (instanceSide "S").name = some e := he
  obtain ⟨c, d, hc, hd, -, hentries, hmethods⟩ :=
    SessionSetup.resolved_of_validate hbuild hs.1.1 hget hside
  obtain ⟨⟨keys, names⟩, houtline, hnames⟩ := (Option.any_eq_true _ _).1 hs.2
  obtain ⟨d', hd', -, hd'names⟩ := s.env.definition_of_outline houtline
  obtain rfl := Except.ok.inj (hd.symm.trans hd')
  refine ⟨s, c, d, hbuild, hs.1.1, hc, hd, hentries, hmethods, ?_⟩
  rw [← of_decide_eq_true hnames]
  exact hd'names

end RubySig
