import RubySig.Proofs.Validation.Occurrences
import RubySig.Proofs.Validation.Silence

/-!
# What is found at references

Of the issues that are found at references two do not depend on where the reference stands: that its
name is not found, and that it has another number of arguments than type parameters.

* `Environment.issuesOf`, `Environment.issues`: these issues of one reference and of several.
* `Environment.filter_headerFindings`, `Environment.filter_memberFindings`: they are what the checks
  of headers and members find.
* `Entry.Uniform`: all fragments of an entity are of its kind, so there are no bodies but those that
  are checked.
* `Environment.filter_duplicateFindings`, `Environment.filter_ancestryFindings`: the other checks
  find other issues.
* `Environment.mem_rawFindings_iff`: these issues are found at references, or where a name is
  declared.
-/

namespace RubySig

/-! ## Issues of references -/

/-- Whether a name is not found or has the wrong number of arguments. -/
def Diagnostic.isReferential (d : Diagnostic) : Bool :=
  d.kind == .noTypeFound || d.kind == .arityMismatch

namespace Environment

variable (env : Environment)

/-- What is wrong with a reference: its name, or else the number of its arguments.  The number is
not checked if the role does not allow the kind of the entity. -/
def issuesOf (nesting : Nesting) (role : Role) : Reference → List Diagnostic
  | .named t =>
    match env.resolve t.name nesting .asType with
    | .ok resolved =>
      if (env.kind? resolved).any role.allows then env.arityFindings resolved t else []
    | .error missing => unresolved missing t.span
  | .singleton t =>
    match env.resolve t.name nesting .asNamespace with
    | .ok _ => []
    | .error missing => unresolved missing t.span

/-- What is wrong with several references. -/
def issues (nesting : Nesting) (mentions : List (Role × Reference)) : List Diagnostic :=
  mentions.flatMap fun m => env.issuesOf nesting m.1 m.2

variable {env}

theorem issues_cons (nesting : Nesting) (role : Role) (r : Reference)
    (rest : List (Role × Reference)) :
    env.issues nesting ((role, r) :: rest) =
      env.issuesOf nesting role r ++ env.issues nesting rest :=
  List.flatMap_cons

theorem issues_append (nesting : Nesting) (xs ys : List (Role × Reference)) :
    env.issues nesting (xs ++ ys) = env.issues nesting xs ++ env.issues nesting ys :=
  List.flatMap_append

theorem filter_arityFindings (resolved : TypeName) (t : NamedType) :
    (env.arityFindings resolved t).filter Diagnostic.isReferential =
      env.arityFindings resolved t := by
  rw [arityFindings]
  split <;> rfl

/-- What a name resolves to is declared. -/
theorem exists_kind_of_resolve {name resolved : TypeName} {nesting : Nesting} {usage : Usage}
    (h : env.resolve name nesting usage = .ok resolved) :
    ∃ kind, env.kind? resolved = some kind := by
  obtain ⟨e, he, -⟩ := declared_of_resolve h
  exact ⟨e.kind, kind?_eq_some_iff.2 ⟨e, he, rfl⟩⟩

theorem filter_referenceFindings (nesting : Nesting) (r : Reference) :
    (env.referenceFindings nesting r).filter Diagnostic.isReferential =
      env.issuesOf nesting .plain r := by
  cases r with
  | named t =>
    rw [referenceFindings, issuesOf]
    cases hresolve : env.resolve t.name nesting .asType with
    | ok resolved =>
      obtain ⟨kind, hkind⟩ := exists_kind_of_resolve hresolve
      dsimp only
      rw [hkind]
      exact filter_arityFindings resolved t
    | error missing => rfl
  | singleton t =>
    rw [referenceFindings, issuesOf]
    cases env.resolve t.name nesting .asNamespace <;> rfl

theorem filter_referencesFindings (nesting : Nesting) (references : List Reference) :
    (env.referencesFindings nesting references).filter Diagnostic.isReferential =
      env.issues nesting (plainly references) := by
  rw [referencesFindings, issues, plainly, List.filter_flatMap, List.flatMap_map]
  exact List.flatMap_congr fun r _ => filter_referenceFindings nesting r

theorem filter_superClassFindings (name : TypeName) (nesting : Nesting) (s : NamedType) :
    (env.superClassFindings name nesting s).filter Diagnostic.isReferential =
      env.issues nesting (s.mentions .superClass) := by
  rw [superClassFindings, List.filter_append, filter_referencesFindings, NamedType.mentions,
    issues_cons, issuesOf]
  refine congrArg (· ++ _) ?_
  cases hresolve : env.resolve s.name nesting .asType with
  | ok resolved =>
    obtain ⟨kind, hkind⟩ := exists_kind_of_resolve hresolve
    dsimp only
    rw [isClass, hkind]
    by_cases hclass : kind = .klass
    · subst hclass
      exact filter_arityFindings resolved s
    · have hnot : (some kind == some EntityKind.klass) = false := by simp [hclass]
      rw [hnot]
      simp [Role.allows, hclass]
      rfl
  | error missing => rfl

theorem filter_mixinFindings (owner : Entry) (nesting : Nesting) (m : Mixin) :
    (env.mixinFindings owner nesting m).filter Diagnostic.isReferential =
      env.issues nesting (m.target.mentions (.mixinTarget owner.kind m.kind)) := by
  rw [mixinFindings, List.filter_append, filter_referencesFindings, NamedType.mentions,
    issues_cons, issuesOf]
  refine congrArg (· ++ _) ?_
  cases hresolve : env.resolve m.target.name nesting .asType with
  | ok resolved =>
    obtain ⟨kind, hkind⟩ := exists_kind_of_resolve hresolve
    dsimp only
    rw [hkind, Option.map_some, Option.getD_some, Option.any_some, Role.allows]
    split
    · exact filter_arityFindings resolved m.target
    · rfl
  | error missing => rfl

/-! ## Headers and members -/

theorem filter_headerFindings (e : Entry) (f : Fragment EntityDecl) :
    (env.headerFindings e f).filter Diagnostic.isReferential =
      env.issues f.nesting f.decl.headerMentions := by
  obtain ⟨decl, nesting, source⟩ := f
  cases decl with
  | klass d =>
    rw [headerFindings, EntityDecl.headerMentions, List.filter_append, issues_append,
      filter_referencesFindings]
    refine congrArg (_ ++ ·) ?_
    dsimp only
    cases d.superClass with
    | none => rfl
    | some s => exact filter_superClassFindings e.name nesting s
  | module _ | typeAlias _ | constant _ =>
    rw [headerFindings, EntityDecl.headerMentions, List.filter_append, issues_append,
      filter_referencesFindings, filter_referencesFindings]
  | interface _ =>
    rw [headerFindings, EntityDecl.headerMentions, List.filter_append, issues_append,
      filter_referencesFindings]
    rfl

theorem filter_memberFindings (owner : Entry) (nesting : Nesting) (m : Member) :
    (env.memberFindings owner nesting m).filter Diagnostic.isReferential =
      env.issues nesting (m.mentions owner.kind) := by
  cases m with
  | mixin m => exact filter_mixinFindings owner nesting m
  | method _ | attr _ | typedVar _ => exact filter_referencesFindings nesting _
  | methodAlias _ | marker _ | nested _ => rfl

end Environment

/-! ## Bodies -/

/-- All fragments of an entity are of its kind. -/
def Entry.Uniform (e : Entry) : Prop := ∀ f ∈ e.fragments, f.decl.kind = e.kind

theorem Placement.keeps_uniform (p : Placement) : p.Keeps Entry.Uniform := by
  cases p with
  | entity name f =>
    refine ⟨List.forall_mem_singleton.2 rfl, fun e _ he hfits => ?_⟩
    refine List.forall_mem_append.2 ⟨he, List.forall_mem_singleton.2 ?_⟩
    rw [Merge.clash?] at hfits
    split at hfits
    · cases hfits
    · rename_i hkind
      rw [bne_iff_ne, not_not] at hkind
      exact hkind.symm
  | global _ => trivial

theorem kind_adoptDecl (params : List String) (d : EntityDecl) :
    (adoptDecl params d).kind = d.kind := by
  cases d with
  | klass d | module d => rw [adoptDecl]; split <;> rfl
  | interface _ | typeAlias _ | constant _ => rfl

theorem kind_adoptEntry (e : Entry) : (adoptEntry e).kind = e.kind := by
  rw [adoptEntry]
  split
  · rfl
  · exact kind_adoptDecl _ _

theorem Entry.Uniform.adopt {e : Entry} (h : e.Uniform) : (adoptEntry e).Uniform := by
  intro f hf
  rw [kind_adoptEntry]
  rw [fragments_adoptEntry] at hf
  split at hf
  · exact h f hf
  · obtain ⟨g, hg, rfl⟩ := List.mem_map.1 hf
    exact (kind_adoptDecl _ _).trans (h g hg)

theorem mergeSources_uniform {sources : List (SourceId × List Declaration)} {e : Entry}
    (h : e ∈ (mergeSources sources).1.entities) : e.Uniform := by
  obtain ⟨original, -, horiginal, rfl⟩ := exists_original_of_mergeSources
    (fun _ _ p _ => p.keeps_uniform) (Environment.get?_of_mem_entities h)
  exact horiginal.adopt

/-- An entity whose bodies are not read has no members. -/
theorem Entry.Uniform.members_eq_nil {e : Entry} (h : e.Uniform) (hbodies : e.hasBodies = false)
    {f : Fragment EntityDecl} (hf : f ∈ e.fragments) : f.decl.members = [] := by
  have hkind := h f hf
  obtain ⟨decl, nesting, source⟩ := f
  rw [hasBodies, ← hkind] at hbodies
  cases decl with
  | typeAlias _ | constant _ => rfl
  | klass _ | module _ | interface _ => cases hbodies

namespace Environment

variable {env : Environment}

theorem filter_bodyFindings {e : Entry} (h : e.Uniform) :
    (env.bodyFindings e).filter Diagnostic.isReferential =
      e.fragments.flatMap fun f => env.issues (f.nesting.enter e.name.toNamespace)
        (f.decl.members.flatMap (Member.mentions e.kind)) := by
  have hsingletons : ∀ m,
      (singletonMethodFindings e.name m).filter Diagnostic.isReferential = [] := by
    intro m
    cases m with
    | method m => rw [singletonMethodFindings]; split <;> rfl
    | attr _ | methodAlias _ | mixin _ | marker _ | typedVar _ | nested _ => rfl
  have hmember : ∀ (nesting : Nesting) (m : Member),
      ((if e.kind = .interface then singletonMethodFindings e.name m else []) ++
        env.memberFindings e nesting m).filter Diagnostic.isReferential =
          env.issues nesting (m.mentions e.kind) := by
    intro nesting m
    rw [List.filter_append, filter_memberFindings]
    split
    · rw [hsingletons, List.nil_append]
    · rfl
  have hmembers : ∀ (nesting : Nesting) (ms : List Member),
      (ms.flatMap fun m => (if e.kind = .interface then singletonMethodFindings e.name m else []) ++
        env.memberFindings e nesting m).filter Diagnostic.isReferential =
          env.issues nesting (ms.flatMap (Member.mentions e.kind)) := by
    intro nesting ms
    rw [List.filter_flatMap, issues, List.flatMap_assoc]
    exact List.flatMap_congr fun m _ => hmember nesting m
  rw [bodyFindings, List.filter_flatMap, Entry.bodies]
  cases hbodies : e.hasBodies with
  | true =>
    rw [if_pos rfl, List.flatMap_map]
    exact List.flatMap_congr fun f _ => hmembers _ f.decl.members
  | false =>
    refine (List.flatMap_eq_nil_iff.2 fun f hf => ?_).symm
    rw [h.members_eq_nil hbodies hf]
    rfl

/-! ## Everything else -/

theorem filter_duplicateFindings (e : Entry) :
    (duplicateFindings e).filter Diagnostic.isReferential = [] := by
  rw [duplicateFindings, List.filter_map, List.map_eq_nil_iff]
  exact List.filter_eq_nil_iff.2 fun _ _ => by
    simp [Diagnostic.isReferential, Diagnostic.kind, Issue.kind]

/-- Chains that cannot be built are cyclic, and missing aliases are an issue of their own. -/
theorem filter_ancestryFindings {e : Entry} (he : e ∈ env.entities)
    (hget : env.get? e.name = some e) :
    (env.ancestryFindings env.sideChains e).filter Diagnostic.isReferential = [] := by
  rw [ancestryFindings, List.filter_flatMap]
  refine List.flatMap_eq_nil_iff.2 fun context hside => ?_
  rw [get?_sideChains (mem_sideKeys he hside), Option.map_some, Option.getD_some]
  cases hchain : env.chain [] ⟨e.name, context⟩ with
  | ok chain =>
    rw [sideFindings, List.filter_map, List.map_eq_nil_iff]
    exact List.filter_eq_nil_iff.2 fun _ _ => by
      simp [Diagnostic.isReferential, Diagnostic.kind, Issue.kind]
  | error failure =>
    obtain ⟨d, rfl, hkind⟩ := diagnostic_of_chain_error ⟨e, hget, hside⟩ hchain
    rw [sideFindings]
    simp [Diagnostic.isReferential, hkind]

/-- All findings, before those of one kind at one place are joined. -/
def rawFindings (env : Environment) : List Diagnostic :=
  env.entities.flatMap (env.entryFindings env.sideChains) ++
    env.globals.values.flatMap env.globalFindings

theorem filter_namespaceFindings (e : Entry) :
    (env.namespaceFindings e).filter Diagnostic.isReferential = env.namespaceFindings e := by
  rw [namespaceFindings]
  split <;> rfl

theorem filter_entryFindings {e : Entry} (he : e ∈ env.entities) (hget : env.get? e.name = some e)
    (h : e.Uniform) :
    (env.entryFindings env.sideChains e).filter Diagnostic.isReferential =
      env.namespaceFindings e ++
        (e.fragments.flatMap fun f => env.issues f.nesting f.decl.headerMentions) ++
        e.fragments.flatMap fun f => env.issues (f.nesting.enter e.name.toNamespace)
          (f.decl.members.flatMap (Member.mentions e.kind)) := by
  have hheaders : (e.fragments.flatMap (env.headerFindings e)).filter Diagnostic.isReferential =
      e.fragments.flatMap fun f => env.issues f.nesting f.decl.headerMentions := by
    rw [List.filter_flatMap]
    exact List.flatMap_congr fun f _ => filter_headerFindings e f
  rw [entryFindings, List.filter_append, List.filter_append, List.filter_append, List.filter_append,
    filter_namespaceFindings, hheaders, filter_bodyFindings h, filter_duplicateFindings,
    filter_ancestryFindings he hget, List.append_nil, List.append_nil]

theorem mem_issues_iff {d : Diagnostic} {nesting : Nesting} {mentions : List (Role × Reference)} :
    d ∈ env.issues nesting mentions ↔
      ∃ o ∈ occurrencesIn nesting mentions, d ∈ env.issuesOf o.nesting o.role o.reference := by
  rw [issues, occurrencesIn, List.mem_flatMap]
  constructor
  · rintro ⟨m, hm, h⟩
    exact ⟨_, List.mem_map_of_mem hm, h⟩
  · rintro ⟨o, ho, h⟩
    obtain ⟨m, hm, rfl⟩ := List.mem_map.1 ho
    exact ⟨m, hm, h⟩

/-- What is wrong with the references of an environment is found, and otherwise only what is wrong
with the names that are declared. -/
theorem mem_rawFindings_iff {sources : List (SourceId × List Declaration)} {d : Diagnostic}
    (henv : env = (mergeSources sources).1) (hd : d.isReferential) :
    d ∈ env.rawFindings ↔
      (∃ e ∈ env.entities, d ∈ env.namespaceFindings e) ∨
        ∃ o ∈ env.occurrences, d ∈ env.issuesOf o.nesting o.role o.reference := by
  have hfilter : ∀ ds : List Diagnostic, d ∈ ds ↔ d ∈ ds.filter Diagnostic.isReferential :=
    fun ds => by rw [List.mem_filter, and_iff_left hd]
  have hentry : ∀ e ∈ env.entities, d ∈ env.entryFindings env.sideChains e ↔
      d ∈ env.namespaceFindings e ∨
        ∃ o ∈ e.occurrences, d ∈ env.issuesOf o.nesting o.role o.reference := by
    intro e he
    have hget : env.get? e.name = some e := henv ▸ get?_of_mem_entities (henv ▸ he)
    have huniform : e.Uniform := mergeSources_uniform (henv ▸ he)
    rw [hfilter, filter_entryFindings he hget huniform]
    simp only [List.mem_append, List.mem_flatMap, mem_issues_iff, Entry.occurrences,
      Fragment.headerOccurrences, Entry.bodyOccurrences]
    constructor
    · rintro ((h | ⟨f, hf, o, ho, h⟩) | ⟨f, hf, o, ho, h⟩)
      · exact Or.inl h
      · exact Or.inr ⟨o, ⟨f, hf, Or.inl ho⟩, h⟩
      · exact Or.inr ⟨o, ⟨f, hf, Or.inr ho⟩, h⟩
    · rintro (h | ⟨o, ⟨f, hf, ho | ho⟩, h⟩)
      · exact Or.inl (Or.inl h)
      · exact Or.inl (Or.inr ⟨f, hf, o, ho, h⟩)
      · exact Or.inr ⟨f, hf, o, ho, h⟩
  have hglobal : ∀ f : Fragment GlobalDecl, d ∈ env.globalFindings f ↔
      ∃ o ∈ occurrencesIn f.nesting (plainly f.decl.type.references),
        d ∈ env.issuesOf o.nesting o.role o.reference := by
    intro f
    rw [hfilter, globalFindings, filter_referencesFindings, mem_issues_iff]
  rw [rawFindings, occurrences, List.mem_append, List.mem_flatMap, List.mem_flatMap]
  simp only [List.mem_append, List.mem_flatMap, hglobal]
  constructor
  · rintro (⟨e, he, h⟩ | ⟨f, hf, o, ho, h⟩)
    · rcases (hentry e he).1 h with h | ⟨o, ho, h⟩
      · exact Or.inl ⟨e, he, h⟩
      · exact Or.inr ⟨o, Or.inl ⟨e, he, ho⟩, h⟩
    · exact Or.inr ⟨o, Or.inr ⟨f, hf, ho⟩, h⟩
  · rintro (⟨e, he, h⟩ | ⟨o, ⟨e, he, ho⟩ | ⟨f, hf, ho⟩, h⟩)
    · exact Or.inl ⟨e, he, (hentry e he).2 (Or.inl h)⟩
    · exact Or.inl ⟨e, he, (hentry e he).2 (Or.inr ⟨o, ho, h⟩)⟩
    · exact Or.inr ⟨f, hf, o, ho, h⟩

end Environment

end RubySig
