import Mathlib.Data.Multiset.OrderedMonoid
import RubySig.Proofs.Environment.Places
import RubySig.Proofs.Resolution
import RubySig.Validation

/-!
# Types written in environments

* `Role`, `Role.allows`: what a reference is written for, and which kinds of entities it can name.
* `EntityDecl.HeaderWrites`, `Member.Writes`, `Environment.Writes`: the type nodes that are written
  outside of bodies, in them, and anywhere in an environment, with the scopes around them.
* `Occurrence`, `Environment.occurrences`: the same as a list of references.
* `Environment.Writes.mem_occurrences`: every reference that is written is in the list.
* `Environment.occurrence_eq_of_site`, `Environment.site_ne_of_mem_occurrences`: a reference is
  known by the place where it starts, where no declared name starts.
-/

namespace RubySig

/-! ## What is written -/

/-- What a reference is written for. -/
inductive Role
  /-- Any type: a bound, a self type, an argument, a part of another type. -/
  | plain
  /-- The superclass of a class. -/
  | superClass
  /-- The target of a directive in an entity of some kind. -/
  | mixinTarget (owner : EntityKind) (directive : MixinKind)
  deriving DecidableEq

/-- Whether an entity of a kind can be named in a role. -/
def Role.allows : Role → EntityKind → Bool
  | plain, _ => true
  | superClass, kind => kind == .klass
  | mixinTarget owner directive, kind => mixinAllowed owner directive kind

/-- A declaration writes a type node outside of its body. -/
inductive EntityDecl.HeaderWrites : EntityDecl → Role → TypeExpr → Prop
  | bound {d : EntityDecl} {p : TypeParam} {t node : TypeExpr} : p ∈ d.typeParams →
      p.upperBound = some t → node ∈ t.nodes → HeaderWrites d .plain node
  | superClass {d : ClassDecl} {s : NamedType} : d.superClass = some s →
      HeaderWrites (.klass d) .superClass (.named s)
  | superClassArg {d : ClassDecl} {s : NamedType} {node : TypeExpr} : d.superClass = some s →
      node ∈ s.argNodes → HeaderWrites (.klass d) .plain node
  | selfType {d : ModuleDecl} {s : NamedType} {node : TypeExpr} : s ∈ d.selfTypes →
      node ∈ (TypeExpr.named s).nodes → HeaderWrites (.module d) .plain node
  | aliased {d : AliasDecl} {node : TypeExpr} : node ∈ d.type.nodes →
      HeaderWrites (.typeAlias d) .plain node
  | constant {d : ConstantDecl} {node : TypeExpr} : node ∈ d.type.nodes →
      HeaderWrites (.constant d) .plain node

/-- A member of an entity of some kind writes a type node. -/
inductive Member.Writes (owner : EntityKind) : Member → Role → TypeExpr → Prop
  | overload {m : MethodMember} {o : MethodType} {node : TypeExpr} : o ∈ m.overloads →
      node ∈ o.nodes → Writes owner (.method m) .plain node
  | attrType {a : AttributeMember} {node : TypeExpr} : node ∈ a.type.nodes →
      Writes owner (.attr a) .plain node
  | variableType {v : VariableMember} {node : TypeExpr} : node ∈ v.type.nodes →
      Writes owner (.typedVar v) .plain node
  | target {m : Mixin} : Writes owner (.mixin m) (.mixinTarget owner m.kind) (.named m.target)
  | targetArg {m : Mixin} {node : TypeExpr} : node ∈ m.target.argNodes →
      Writes owner (.mixin m) .plain node

/-- A type node is written in a fragment or global variable of an environment, for some purpose and
in some scopes: those around the declaration, or in its body also the entity itself. -/
inductive Environment.Writes (env : Environment) : Role → Nesting → TypeExpr → Prop
  | header {e : Entry} {f : Fragment EntityDecl} {role : Role} {node : TypeExpr} :
      e ∈ env.entities → f ∈ e.fragments → f.decl.HeaderWrites role node →
        Writes env role f.nesting node
  | body {e : Entry} {f : Fragment EntityDecl} {m : Member} {role : Role} {node : TypeExpr} :
      e ∈ env.entities → f ∈ e.fragments → m ∈ f.decl.members → m.Writes e.kind role node →
        Writes env role (f.nesting.enter e.name.toNamespace) node
  | global {f : Fragment GlobalDecl} {node : TypeExpr} : f ∈ env.globals.values →
      node ∈ f.decl.type.nodes → Writes env .plain f.nesting node

/-! ## References in order -/

/-- References for no special purpose. -/
def plainly (references : List Reference) : List (Role × Reference) := references.map (.plain, ·)

/-- A name for some purpose, and the references in its arguments. -/
def NamedType.mentions (role : Role) (t : NamedType) : List (Role × Reference) :=
  (role, .named t) :: plainly t.argReferences

/-- What a declaration refers to outside of its body, and what for. -/
def EntityDecl.headerMentions (d : EntityDecl) : List (Role × Reference) :=
  plainly (referencesOfTypeParams d.typeParams) ++
    match d with
    | .klass d => (d.superClass.map (NamedType.mentions .superClass)).getD []
    | .module d => plainly (d.selfTypes.flatMap NamedType.references)
    | .interface _ => []
    | .typeAlias d => plainly d.type.references
    | .constant d => plainly d.type.references

/-- What a member of an entity of some kind refers to, and what for. -/
def Member.mentions (owner : EntityKind) : Member → List (Role × Reference)
  | .mixin m => m.target.mentions (.mixinTarget owner m.kind)
  | m => plainly m.references

theorem map_snd_plainly (references : List Reference) :
    (plainly references).map (·.2) = references := by
  rw [plainly, List.map_map]
  exact List.map_id _

theorem NamedType.map_snd_mentions (role : Role) (t : NamedType) :
    (t.mentions role).map (·.2) = t.references := by
  rw [mentions, List.map_cons, map_snd_plainly]
  rfl

theorem EntityDecl.map_snd_headerMentions (d : EntityDecl) :
    d.headerMentions.map (·.2) = d.headerReferences := by
  cases d with
  | klass d =>
    rw [headerMentions, headerReferences, List.map_append, map_snd_plainly]
    cases d.superClass with
    | none => rfl
    | some s => exact congrArg _ (s.map_snd_mentions _)
  | module _ | typeAlias _ | constant _ =>
    rw [headerMentions, headerReferences, List.map_append, map_snd_plainly, map_snd_plainly]
  | interface _ =>
    rw [headerMentions, headerReferences, List.map_append, map_snd_plainly]
    rfl

theorem Member.map_snd_mentions (owner : EntityKind) (m : Member) :
    (m.mentions owner).map (·.2) = m.references := by
  cases m with
  | mixin m => exact m.target.map_snd_mentions _
  | method _ | attr _ | typedVar _ | methodAlias _ | marker _ | nested _ => exact map_snd_plainly _

theorem mem_plainly {references : List Reference} {r : Reference} (h : r ∈ references) :
    (.plain, r) ∈ plainly references :=
  List.mem_map_of_mem h

/-- A reference among the nodes of a type is one of its references. -/
theorem TypeExpr.mem_references {t node : TypeExpr} {r : Reference} (h : node ∈ t.nodes)
    (hr : node.reference? = some r) : r ∈ t.references := by
  rw [references_eq_filterMap_nodes]
  exact List.mem_filterMap.2 ⟨node, h, hr⟩

theorem NamedType.mem_argReferences {t : NamedType} {node : TypeExpr} {r : Reference}
    (h : node ∈ t.argNodes) (hr : node.reference? = some r) : r ∈ t.argReferences := by
  obtain ⟨name, args, span⟩ := t
  rw [argNodes, nodesOfTypes_eq] at h
  rw [argReferences, referencesOfTypes_eq]
  obtain ⟨a, ha, hnode⟩ := List.mem_flatMap.1 h
  exact List.mem_flatMap.2 ⟨a, ha, TypeExpr.mem_references hnode hr⟩

theorem EntityDecl.HeaderWrites.mem_headerMentions {d : EntityDecl} {role : Role} {node : TypeExpr}
    {r : Reference} (h : d.HeaderWrites role node) (hr : node.reference? = some r) :
    (role, r) ∈ d.headerMentions := by
  cases h with
  | bound hp hbound hnode =>
    refine List.mem_append_left _ (mem_plainly ?_)
    rw [referencesOfTypeParams_eq]
    exact List.mem_flatMap.2 ⟨_, List.mem_filterMap.2 ⟨_, hp, hbound⟩,
      TypeExpr.mem_references hnode hr⟩
  | superClass hsuper =>
    obtain rfl := Option.some.inj hr
    refine List.mem_append_right _ ?_
    simp [hsuper, NamedType.mentions]
  | superClassArg hsuper hnode =>
    refine List.mem_append_right _ ?_
    simp only [hsuper, Option.map_some, Option.getD_some]
    exact List.mem_cons_of_mem _ (mem_plainly (NamedType.mem_argReferences hnode hr))
  | selfType hs hnode =>
    exact List.mem_append_right _ (mem_plainly (List.mem_flatMap.2
      ⟨_, hs, TypeExpr.mem_references hnode hr⟩))
  | aliased hnode | constant hnode =>
    exact List.mem_append_right _ (mem_plainly (TypeExpr.mem_references hnode hr))

theorem Member.Writes.mem_mentions {owner : EntityKind} {m : Member} {role : Role} {node : TypeExpr}
    {r : Reference} (h : m.Writes owner role node) (hr : node.reference? = some r) :
    (role, r) ∈ m.mentions owner := by
  cases h with
  | overload ho hnode =>
    rw [MethodType.nodes_eq] at hnode
    obtain ⟨t, ht, hnode⟩ := List.mem_flatMap.1 hnode
    refine mem_plainly (List.mem_flatMap.2 ⟨_, ho, ?_⟩)
    rw [MethodType.references_eq]
    exact List.mem_flatMap.2 ⟨t, ht, TypeExpr.mem_references hnode hr⟩
  | attrType hnode | variableType hnode => exact mem_plainly (TypeExpr.mem_references hnode hr)
  | target =>
    obtain rfl := Option.some.inj hr
    exact List.mem_cons_self
  | targetArg hnode =>
    exact List.mem_cons_of_mem _ (mem_plainly (NamedType.mem_argReferences hnode hr))

/-! ## Occurrences -/

/-- A reference in an environment. -/
structure Occurrence where
  /-- What it is written for. -/
  role : Role
  /-- The scopes in which it is written. -/
  nesting : Nesting
  /-- The reference itself. -/
  reference : Reference

/-- Mentions in some scopes. -/
def occurrencesIn (nesting : Nesting) (mentions : List (Role × Reference)) : List Occurrence :=
  mentions.map fun m => ⟨m.1, nesting, m.2⟩

theorem mem_occurrencesIn {nesting : Nesting} {mentions : List (Role × Reference)} {role : Role}
    {r : Reference} (h : (role, r) ∈ mentions) :
    ⟨role, nesting, r⟩ ∈ occurrencesIn nesting mentions :=
  List.mem_map_of_mem h

/-- The references that a fragment makes outside of its body. -/
def Fragment.headerOccurrences (f : Fragment EntityDecl) : List Occurrence :=
  occurrencesIn f.nesting f.decl.headerMentions

/-- The references that the members of a fragment make. -/
def Entry.bodyOccurrences (e : Entry) (f : Fragment EntityDecl) : List Occurrence :=
  occurrencesIn (f.nesting.enter e.name.toNamespace)
    (f.decl.members.flatMap (Member.mentions e.kind))

/-- The references that an entity makes. -/
def Entry.occurrences (e : Entry) : List Occurrence :=
  e.fragments.flatMap fun f => f.headerOccurrences ++ e.bodyOccurrences f

namespace Environment

/-- All references of an environment. -/
def occurrences (env : Environment) : List Occurrence :=
  env.entities.flatMap Entry.occurrences ++
    env.globals.values.flatMap fun f => occurrencesIn f.nesting (plainly f.decl.type.references)

variable {env : Environment}

theorem Writes.mem_occurrences {role : Role} {nesting : Nesting} {node : TypeExpr} {r : Reference}
    (h : env.Writes role nesting node) (hr : node.reference? = some r) :
    ⟨role, nesting, r⟩ ∈ env.occurrences := by
  cases h with
  | header he hf hwrites =>
    refine List.mem_append_left _ (List.mem_flatMap.2 ⟨_, he, List.mem_flatMap.2 ⟨_, hf, ?_⟩⟩)
    exact List.mem_append_left _ (mem_occurrencesIn (hwrites.mem_headerMentions hr))
  | body he hf hm hwrites =>
    refine List.mem_append_left _ (List.mem_flatMap.2 ⟨_, he, List.mem_flatMap.2 ⟨_, hf, ?_⟩⟩)
    exact List.mem_append_right _ (mem_occurrencesIn
      (List.mem_flatMap.2 ⟨_, hm, hwrites.mem_mentions hr⟩))
  | global hf hnode =>
    refine List.mem_append_right _ (List.mem_flatMap.2 ⟨_, hf, ?_⟩)
    exact mem_occurrencesIn (mem_plainly (TypeExpr.mem_references hnode hr))

/-! ## Places -/

/-- Where the names of entities are written. -/
def nameSites (env : Environment) : Multiset Site :=
  (env.entities.map fun e => (e.fragments.map fun f => {f.decl.nameSpan.site}).sum).sum

theorem map_reference_occurrencesIn (nesting : Nesting) (mentions : List (Role × Reference)) :
    (occurrencesIn nesting mentions).map (·.reference) = mentions.map (·.2) := by
  rw [occurrencesIn, List.map_map]
  rfl

theorem sites_entry_eq (e : Entry) :
    e.sites = (e.fragments.map fun f => {f.decl.nameSpan.site}).sum +
      sitesOf (e.occurrences.map (·.reference)) := by
  rw [Entry.occurrences, List.map_flatMap, sitesOf_flatMap, ← List.sum_map_add, Entry.sites]
  refine congrArg List.sum (List.map_congr_left fun f _ => ?_)
  rw [EntityDecl.ownSites, add_assoc, List.map_append, sitesOf_append, Fragment.headerOccurrences,
    Entry.bodyOccurrences, map_reference_occurrencesIn, map_reference_occurrencesIn,
    EntityDecl.map_snd_headerMentions, List.map_flatMap]
  simp only [Member.map_snd_mentions]

/-- All places of an environment are those of its names and of its references. -/
theorem sites_eq (env : Environment) :
    env.sites = env.nameSites + sitesOf (env.occurrences.map (·.reference)) := by
  have hentities : (env.entities.map Entry.sites).sum =
      env.nameSites + sitesOf ((env.entities.flatMap Entry.occurrences).map (·.reference)) := by
    rw [List.map_flatMap, sitesOf_flatMap, nameSites, ← List.sum_map_add]
    exact congrArg List.sum (List.map_congr_left fun e _ => sites_entry_eq e)
  have hglobals : (env.globals.values.map (·.decl.type.sites)).sum =
      sitesOf ((env.globals.values.flatMap fun f =>
        occurrencesIn f.nesting (plainly f.decl.type.references)).map (·.reference)) := by
    rw [List.map_flatMap, sitesOf_flatMap]
    simp only [map_reference_occurrencesIn, map_snd_plainly]
    rfl
  rw [Environment.sites, hentities, hglobals, occurrences, List.map_append, sitesOf_append,
    add_assoc]

/-- If no two places are the same, a reference is known by the place where it starts. -/
theorem occurrence_eq_of_site (h : env.sites.Nodup) {o o' : Occurrence} (ho : o ∈ env.occurrences)
    (ho' : o' ∈ env.occurrences) (hsite : o.reference.site = o'.reference.site) : o = o' := by
  rw [sites_eq, Multiset.nodup_add, sitesOf, List.map_map, Multiset.coe_nodup] at h
  exact List.inj_on_of_nodup_map h.2.1 ho ho' hsite

/-- If no two places are the same, no reference starts where a name is declared. -/
theorem site_ne_of_mem_occurrences (h : env.sites.Nodup) {o : Occurrence} (ho : o ∈ env.occurrences)
    {e : Entry} (he : e ∈ env.entities) : o.reference.site ≠ e.nameSpan.site := by
  rw [sites_eq, Multiset.nodup_add] at h
  intro hsite
  have hprimary : e.primary ∈ e.fragments := List.mem_cons_self
  have hfragment : ({e.nameSpan.site} : Multiset Site) ≤
      (e.fragments.map fun f => {f.decl.nameSpan.site}).sum :=
    List.le_sum_of_mem (List.mem_map_of_mem hprimary)
  have hname : e.nameSpan.site ∈ env.nameSites := Multiset.singleton_le.1 <| hfragment.trans <|
    List.le_sum_of_mem (List.mem_map_of_mem he)
  have hreference : o.reference.site ∈ sitesOf (env.occurrences.map (·.reference)) :=
    Multiset.mem_coe.2 (List.mem_map_of_mem (List.mem_map_of_mem ho))
  exact Multiset.disjoint_left.1 h.2.2 (hsite ▸ hname) hreference

end Environment

end RubySig
