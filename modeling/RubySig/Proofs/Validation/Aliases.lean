import RubySig.Proofs.Definition.Inclusion
import RubySig.Proofs.Definition.WithoutAliases
import RubySig.Proofs.Validation.Batches

/-!
# No alias is lost

An alias of an entity is read when the chain of its side is read.  Either its method is there, and
then the definition of the side has a method of the new name, or the alias is missing, and then it
is reported at its place.  Interfaces have no chain for their singleton side, so there an alias is
neither defined nor reported.

* `Environment.defines_or_missing`: an alias that an entity writes, in the entity's own chain.
* `Environment.exists_alias_of_finding`: what is reported as missing is an alias of its entity.
* `SessionSetup.alias_kept_iff`: which aliases of a session are reported or defined.
-/

namespace RubySig

namespace Environment

variable {env : Environment}

/-- An alias that an entity writes gives a method of its own chain, or it is missing there. -/
theorem defines_or_missing (henv : env.Anchored) {key : ChainKey} {c : Chain}
    (hchain : env.chain [] key = .ok c) {e : Entry} (he : env.get? key.name = some e)
    {a : AliasMember} (ha : a ∈ e.aliases) (hside : a.singleton = key.context.isSingleton) :
    (MethodTable.ofEntries env c.entries).Defines a.newName ∨
      ⟨key.name, a.newName, a.oldName, a.span⟩ ∈ (MethodTable.ofEntries env c.entries).missing := by
  obtain ⟨front, own, hsplit, hown⟩ := exists_split_ownAncestors henv hchain
  obtain ⟨hname, hcontext⟩ := ChainKey.mk.inj hown
  have hget : env.get? own.name = some e := by rwa [hname]
  have hwrites : a ∈ contributedAliases own e := by
    rw [contributedAliases_eq, List.mem_filter, decide_eq_true_eq, hcontext]
    exact ⟨ha, hside⟩
  obtain ⟨before, after, haliases⟩ := List.append_of_mem hwrites
  by_cases htarget : (MethodTable.partway env (env.ownAncestors key) own e before).Defines a.oldName
  · left
    rw [hsplit]
    refine MethodTable.Defines.append_left ?_ front
    rw [MethodTable.ofEntries_cons_of_get? hget, MethodTable.defines_partway_iff]
    exact Or.inr ⟨before, a, after, haliases, rfl, htarget⟩
  · right
    refine MethodTable.mem_missing_ofEntries_iff.2 ⟨own, a, _, ?_, htarget, by rw [hname]⟩
    exact ⟨front, _, e, before, after, hsplit, hget, haliases, rfl⟩

/-- An alias that is missing in a chain is one that an ancestor writes on its own side. -/
theorem exists_alias_of_missing {entries : List AncestorEntry} {x : MissingAlias}
    (h : x ∈ (MethodTable.ofEntries env entries).missing) :
    ∃ p ∈ entries, ∃ e a, env.get? p.name = some e ∧ a ∈ e.aliases ∧
      a.singleton = p.context.isSingleton ∧ x = ⟨p.name, a.newName, a.oldName, a.span⟩ := by
  obtain ⟨p, a, t, hread, -, hx⟩ := MethodTable.mem_missing_ofEntries_iff.1 h
  obtain ⟨e, hget, ha⟩ := hread.writesAlias
  rw [contributedAliases_eq, List.mem_filter, decide_eq_true_eq] at ha
  exact ⟨p, hread.mem, e, a, hget, ha.1, ha.2, hx⟩

/-- What is found missing is an alias of the entity, for a side that has methods. -/
theorem exists_alias_of_finding (henv : env.Anchored) {e : Entry} (he : env.get? e.name = some e)
    {d : Diagnostic} (hd : d ∈ env.ancestryFindings env.sideChains e)
    (hkind : d.kind = .unknownMethodAlias) :
    ∃ a ∈ e.aliases, d.span = a.span ∧ ∃ side ∈ sides e.kind, a.singleton = side.isSingleton := by
  obtain ⟨context, hcontext, hd⟩ := List.mem_flatMap.1 hd
  rw [get?_sideChains (mem_sideKeys (mem_entities_of_get? he) hcontext), Option.map_some,
    Option.getD_some] at hd
  cases hchain : env.chain [] ⟨e.name, context⟩ with
  | error failure =>
    obtain ⟨d', rfl, hcyclic⟩ := diagnostic_of_chain_error ⟨e, he, hcontext⟩ hchain
    rw [hchain, sideFindings] at hd
    rw [List.mem_singleton.1 hd, hcyclic] at hkind
    cases hkind
  | ok c =>
    rw [hchain, sideFindings] at hd
    obtain ⟨x, hx, rfl⟩ := List.mem_map.1 hd
    obtain ⟨hx, howner⟩ := List.mem_filter.1 hx
    obtain ⟨p, hp, e', a, hget, ha, hside, rfl⟩ := exists_alias_of_missing hx
    have hname : p.name = e.name := of_decide_eq_true howner
    rw [hname] at hget
    obtain rfl := Option.some.inj (he.symm.trans hget)
    -- the ancestor has a chain of its own, so its side has methods
    obtain ⟨own, hown, -⟩ := chain_of_mem_entries henv hchain hp
    obtain ⟨e', hget', hmethods⟩ := askable_of_chain_ok hown
    change env.get? p.name = some e' at hget'
    rw [hname] at hget'
    obtain rfl := Option.some.inj (he.symm.trans hget')
    exact ⟨a, ha, rfl, p.context, hmethods, hside⟩

/-- An alias that is missing in the chain of its entity is found. -/
theorem mem_rawFindings_of_missing {e : Entry} (he : env.get? e.name = some e) {context : Context}
    (hcontext : context ∈ sides e.kind) {c : Chain}
    (hchain : env.chain [] ⟨e.name, context⟩ = .ok c) {a : AliasMember}
    (h : ⟨e.name, a.newName, a.oldName, a.span⟩ ∈ (MethodTable.ofEntries env c.entries).missing) :
    ⟨.unknownMethodAlias e.name a.oldName, a.span⟩ ∈ env.rawFindings := by
  have hentity := mem_entities_of_get? he
  refine (mem_rawFindings_alias rfl).2 ⟨e, hentity, List.mem_flatMap.2 ⟨context, hcontext, ?_⟩⟩
  rw [get?_sideChains (mem_sideKeys hentity hcontext), Option.map_some, Option.getD_some, hchain,
    sideFindings]
  exact List.mem_map.2 ⟨_, List.mem_filter.2 ⟨h, decide_eq_true rfl⟩, rfl⟩

end Environment

theorem Entry.mem_aliases_iff {e : Entry} {a : AliasMember} :
    a ∈ e.aliases ↔ .methodAlias a ∈ e.members := by
  have halias : ∀ m : Member, m.alias? = some a ↔ m = .methodAlias a := by
    intro m
    cases m <;> simp [Member.alias?]
  simp [aliases, members, halias]

/-- Which sides of an entity with members have methods: all but the singleton side of an
interface. -/
theorem Entry.mem_sides_iff {e : Entry} (h : e.members ≠ []) {side : Context} :
    side ∈ Environment.sides e.kind ↔ ¬ (e.kind = .interface ∧ side.isSingleton) := by
  have hbodies : e.hasBodies := by
    by_contra hnone
    rw [members, bodies, if_neg hnone] at h
    exact h rfl
  revert hbodies
  rw [hasBodies]
  cases e.kind <;> cases side <;> decide

/-- An alias of a session, on a side of its entity whose definition does not fail because of a
cycle, is either reported as missing at its place, or the definition of the side exists and has a
method of its new name, exactly if it is not a singleton alias of an interface. -/
theorem SessionSetup.alias_kept_iff {setup : SessionSetup} {s : Session}
    (hbuild : setup.build = .ok s) {e : Entry} (he : e ∈ s.env.entities) {a : AliasMember}
    (ha : .methodAlias a ∈ e.members) {context : Context}
    (hside : a.singleton = context.isSingleton)
    (hacyclic : ∀ d, s.env.definition ⟨e.name, context⟩ = .error (.diagnostic d) →
      d.kind ≠ .cyclicAncestor) :
    (s.Reports .unknownMethodAlias a.span ∨
        ∃ d, s.env.definition ⟨e.name, context⟩ = .ok d ∧ a.newName ∈ d.names) ↔
      ¬ (e.kind = .interface ∧ a.singleton) := by
  have henv := anchored_of_build hbuild
  have hget := get?_of_mem_entities hbuild e he
  have halias := Entry.mem_aliases_iff.2 ha
  have hsides : context ∈ Environment.sides e.kind ↔
      ¬ (e.kind = .interface ∧ context.isSingleton) := e.mem_sides_iff (List.ne_nil_of_mem ha)
  rw [← hside] at hsides
  rw [← hsides]
  constructor
  · rintro (hreported | ⟨d, hd, -⟩)
    · obtain ⟨d, hd, hkind, hspan⟩ :=
        (Session.reports_iff_rawFindings hbuild (by decide)).1 hreported
      obtain ⟨e', he', hd⟩ := (Environment.mem_rawFindings_alias hkind).1 hd
      obtain ⟨a', ha', hspan', side, hmethods, hside'⟩ := Environment.exists_alias_of_finding henv
        (get?_of_mem_entities hbuild e' he') hd hkind
      -- the alias at the place is the only one
      obtain ⟨rfl, hsame⟩ := member_eq_of_span hbuild (Environment.mem_members.2 ⟨he, ha⟩)
        (Environment.mem_members.2 ⟨he', Entry.mem_aliases_iff.1 ha'⟩) rfl rfl
        (hspan.symm.trans hspan')
      obtain rfl := Member.methodAlias.inj hsame
      have hcontext : context = side := by
        rw [hside] at hside'
        revert hside'
        cases context <;> cases side <;> decide
      rwa [hcontext]
    · obtain ⟨c, hc, -⟩ := Environment.definition_eq_ok_iff.1 hd
      obtain ⟨e', hget', hmethods⟩ := Environment.askable_of_chain_ok hc
      obtain rfl := Option.some.inj (hget.symm.trans hget')
      exact hmethods
  · intro hmethods
    cases hchain : s.env.chain [] ⟨e.name, context⟩ with
    | error failure =>
      obtain ⟨d, rfl, hcyclic⟩ := Environment.diagnostic_of_chain_error ⟨e, hget, hmethods⟩ hchain
      refine absurd hcyclic (hacyclic d ?_)
      rw [Environment.definition, Environment.ancestors_eq_chain, hchain]
      rfl
    | ok c =>
      rcases Environment.defines_or_missing henv hchain hget halias hside with hdefines | hmissing
      · exact Or.inr ⟨_, Environment.definition_eq_ok_iff.2 ⟨c, hchain, rfl⟩,
          Environment.mem_names_definitionOf.2 hdefines⟩
      · refine Or.inl ((Session.reports_iff_rawFindings hbuild (by decide)).2 ?_)
        exact ⟨_, Environment.mem_rawFindings_of_missing hget hmethods hchain hmissing, rfl, rfl⟩

/-- Both sides of an entity have a definition. -/
def Environment.definesBoth (env : Environment) (name : TypeName) : Bool :=
  (env.definition ⟨name, .onInstance⟩).toOption.isSome &&
    (env.definition ⟨name, .onSingleton⟩).toOption.isSome

/-- A class with an alias of a method and a singleton alias for which there is none. -/
def renamedSetup : SessionSetup :=
  .ofFile "a.rbs" "class Box\n  def a: () -> void\n  alias b a\n  alias self.c self.d\nend\n"

set_option maxRecDepth 100000 in
/-- Each of them is reported or defined. -/
theorem renamed_kept : ∃ s e, renamedSetup.build = .ok s ∧ e ∈ s.env.entities ∧
    e.aliases.map (·.newName) = ["b", "c"] ∧ ∀ a ∈ e.aliases, ∃ context,
      a.singleton = context.isSingleton ∧ (s.Reports .unknownMethodAlias a.span ∨
        ∃ d, s.env.definition ⟨e.name, context⟩ = .ok d ∧ a.newName ∈ d.names) := by
  obtain ⟨s, hbuild, hs⟩ := exists_ok_of_any renamedSetup.build
    (fun s => s.env.entities.any fun e => decide (e.aliases.map (·.newName) = ["b", "c"]) &&
      decide (e.kind = .klass) && s.env.definesBoth e.name) (by decide +kernel)
  obtain ⟨e, he, hcheck⟩ := List.any_eq_true.1 hs
  simp only [Bool.and_eq_true, decide_eq_true_eq, Environment.definesBoth] at hcheck
  obtain ⟨⟨hnames, hkind⟩, hinstance, hsingleton⟩ := hcheck
  have hdefined : ∀ context, (s.env.definition ⟨e.name, context⟩).toOption.isSome := by
    intro context
    cases context with
    | onInstance => exact hinstance
    | onSingleton => exact hsingleton
  refine ⟨s, e, hbuild, he, hnames, ?_⟩
  intro a ha
  obtain ⟨context, hside⟩ : ∃ context : Context, a.singleton = context.isSingleton := by
    cases a.singleton with
    | true => exact ⟨.onSingleton, rfl⟩
    | false => exact ⟨.onInstance, rfl⟩
  refine ⟨context, hside, (SessionSetup.alias_kept_iff hbuild he (Entry.mem_aliases_iff.1 ha) hside
    ?_).2 ?_⟩
  · intro d hd
    have hok := hdefined context
    rw [hd] at hok
    cases hok
  · rw [hkind]
    rintro ⟨hinterface, -⟩
    cases hinterface

/-- An interface with a singleton alias. -/
def sidelessSetup : SessionSetup :=
  .ofFile "a.rbs" "interface _I\n  alias self.a self.b\nend\n"

/-- Why a side has no definition. -/
def Environment.definitionIssue? (env : Environment) (key : ChainKey) : Option IssueKind :=
  match env.definition key with
  | .error (.diagnostic d) => some d.kind
  | _ => none

set_option maxRecDepth 100000 in
/-- It is neither reported nor defined, although there is no cycle. -/
theorem sideless_lost : ∃ s e a, sidelessSetup.build = .ok s ∧ e ∈ s.env.entities ∧
    .methodAlias a ∈ e.members ∧ a.singleton = Context.onSingleton.isSingleton ∧
    (∀ d, s.env.definition ⟨e.name, .onSingleton⟩ = .error (.diagnostic d) →
      d.kind ≠ .cyclicAncestor) ∧
    ¬ (s.Reports .unknownMethodAlias a.span ∨
      ∃ d, s.env.definition ⟨e.name, .onSingleton⟩ = .ok d ∧ a.newName ∈ d.names) := by
  obtain ⟨s, hbuild, hs⟩ := exists_ok_of_any sidelessSetup.build
    (fun s => s.validate.isEmpty && s.env.entities.any fun e => e.aliases.any (·.singleton) &&
      decide (s.env.definitionIssue? ⟨e.name, .onSingleton⟩ = some .noSingletonChain))
    (by decide +kernel)
  simp only [Bool.and_eq_true, List.isEmpty_iff, List.any_eq_true, decide_eq_true_eq] at hs
  obtain ⟨hvalid, e, he, ⟨a, ha, hside⟩, hissue⟩ := hs
  refine ⟨s, e, a, hbuild, he, Entry.mem_aliases_iff.1 ha, hside, ?_, ?_⟩
  · intro d hd hcyclic
    rw [Environment.definitionIssue?, hd, Option.some.injEq, hcyclic] at hissue
    cases hissue
  · rintro (⟨d, hd, -⟩ | ⟨d, hd, -⟩)
    · rw [hvalid] at hd
      cases hd
    · rw [Environment.definitionIssue?, hd] at hissue
      cases hissue

end RubySig
