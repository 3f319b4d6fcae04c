import RubySig.Proofs.Environment.MemberSpans
import RubySig.Proofs.Validation.Exact

/-!
# Issues of one kind in a batch

Each check finds issues of its own kinds: those of references, those of members, and those of
ancestors.  So what is reported of a kind comes from one check.  Joining the diagnostics of one kind
at one place keeps the first of them.

* `Diagnostic.filter_dedupe`, `Diagnostic.dedupe_flatMap`, `Diagnostic.mem_dedupe_of_unique`: what
  is left when diagnostics are joined.
* `IssueKind.ofReferences`, `Environment.kind_of_mem_headerFindings`,
  `Environment.kind_of_mem_memberFindings`: what the checks of references find.
* `Environment.filter_rawFindings_duplicated`, `Environment.mem_rawFindings_interface`,
  `Environment.mem_rawFindings_alias`: redefinitions, singleton methods of interfaces and aliases
  that stand for nothing.
* `Session.mem_validate_iff`, `Session.reports_iff_rawFindings`: sessions.
-/

namespace RubySig

/-! ## Joining -/

namespace Diagnostic

/-- What is joined depends on what is seen of the batch alone. -/
theorem dedupeFrom_congr {batch : List Diagnostic} {seen seen' : List (IssueKind × Span)}
    (h : ∀ d ∈ batch, (d.kind, d.span) ∈ seen ↔ (d.kind, d.span) ∈ seen') :
    dedupeFrom seen batch = dedupeFrom seen' batch := by
  induction batch generalizing seen seen' with
  | nil => rfl
  | cons d rest ih =>
    obtain ⟨hd, hrest⟩ := List.forall_mem_cons.1 h
    rw [dedupeFrom, dedupeFrom]
    by_cases hold : (d.kind, d.span) ∈ seen
    · rw [if_pos hold, if_pos (hd.1 hold)]
      exact ih hrest
    · rw [if_neg hold, if_neg fun hold' => hold (hd.2 hold')]
      refine congrArg (d :: ·) (ih ?_)
      intro d' hd'
      rw [List.mem_cons, List.mem_cons, hrest d' hd']

/-- Diagnostics of a kind are joined among themselves. -/
theorem filter_dedupe (kind : IssueKind) (batch : List Diagnostic) :
    (dedupe batch).filter (·.kind = kind) = dedupe (batch.filter (·.kind = kind)) := by
  have hseen : ∀ seen, (dedupeFrom seen batch).filter (·.kind = kind) =
      dedupeFrom seen (batch.filter (·.kind = kind)) := by
    induction batch with
    | nil => exact fun _ => rfl
    | cons d rest ih =>
      intro seen
      rw [dedupeFrom]
      by_cases hkind : d.kind = kind
      · rw [List.filter_cons_of_pos (by simpa using hkind), dedupeFrom]
        split
        · exact ih seen
        · rw [List.filter_cons_of_pos (by simpa using hkind), ih]
      · rw [List.filter_cons_of_neg (by simpa using hkind)]
        split
        · exact ih seen
        · rw [List.filter_cons_of_neg (by simpa using hkind), ih]
          refine dedupeFrom_congr ?_
          -- a diagnostic of another kind hides none of this one
          intro d' hd'
          have hkind' : d'.kind = kind := by simpa using (List.mem_filter.1 hd').2
          rw [List.mem_cons, or_iff_right]
          intro heq
          exact hkind ((Prod.mk.inj heq).1.symm.trans hkind')
  exact hseen []

theorem dedupeFrom_append_of_seen {seen : List (IssueKind × Span)} {old : List Diagnostic}
    (h : ∀ d ∈ old, (d.kind, d.span) ∈ seen) (rest : List Diagnostic) :
    dedupeFrom seen (old ++ rest) = dedupeFrom seen rest := by
  induction old with
  | nil => rfl
  | cons d old ih =>
    obtain ⟨hd, hold⟩ := List.forall_mem_cons.1 h
    rw [List.cons_append, dedupeFrom, if_pos hd, ih hold]

/-- If the diagnostics come in groups, one kind and one place for each group, then the first one of
each group is kept. -/
theorem dedupe_flatMap {ι : Type} {group : ι → List Diagnostic} {kind : IssueKind}
    {place : ι → Span} {is : List ι}
    (hgroup : ∀ i ∈ is, ∀ d ∈ group i, d.kind = kind ∧ d.span = place i)
    (hapart : is.Pairwise fun i j => group i ≠ [] → group j ≠ [] → place i ≠ place j) :
    dedupe (is.flatMap group) = is.filterMap fun i => (group i).head? := by
  have hseen : ∀ seen, (∀ i ∈ is, group i ≠ [] → (kind, place i) ∉ seen) →
      dedupeFrom seen (is.flatMap group) = is.filterMap fun i => (group i).head? := by
    induction hapart with
    | nil => exact fun _ _ => rfl
    | @cons i rest hi _ ih =>
      intro seen hfresh
      obtain ⟨hgi, hgrest⟩ := List.forall_mem_cons.1 hgroup
      obtain ⟨hfi, hfrest⟩ := List.forall_mem_cons.1 hfresh
      rw [List.flatMap_cons]
      cases hg : group i with
      | nil =>
        rw [List.nil_append, List.filterMap_cons_none (by rw [hg]; rfl)]
        exact ih hgrest seen hfrest
      | cons d old =>
        rw [hg] at hgi hi hfi
        obtain ⟨⟨hkind, hplace⟩, hold⟩ := List.forall_mem_cons.1 hgi
        have hnew : (d.kind, d.span) ∉ seen := by
          rw [hkind, hplace]
          exact hfi (List.cons_ne_nil _ _)
        rw [List.cons_append, dedupeFrom, if_neg hnew, hkind, hplace, dedupeFrom_append_of_seen,
          ih hgrest, List.filterMap_cons_some (by rw [hg]; rfl)]
        · intro j hj hne hmem
          rcases List.mem_cons.1 hmem with heq | hmem
          · exact hi j hj (List.cons_ne_nil _ _) hne (Prod.mk.inj heq).2.symm
          · exact hfrest j hj hne hmem
        · intro d' hd'
          obtain ⟨hkind', hplace'⟩ := hold d' hd'
          rw [hkind', hplace']
          exact List.mem_cons_self
  exact hseen [] fun _ _ _ => List.not_mem_nil

theorem mem_of_mem_dedupe {batch : List Diagnostic} {d : Diagnostic} (h : d ∈ dedupe batch) :
    d ∈ batch := by
  have hseen : ∀ (batch : List Diagnostic) seen, d ∈ dedupeFrom seen batch → d ∈ batch := by
    intro batch
    induction batch with
    | nil => exact fun _ hd => hd
    | cons d' rest ih =>
      intro seen hd
      rw [dedupeFrom] at hd
      split at hd
      · exact List.mem_cons_of_mem _ (ih seen hd)
      · exact List.mem_cons.2 ((List.mem_cons.1 hd).imp_right (ih _))
  exact hseen batch [] h

/-- A diagnostic that is alone of its kind at its place is kept. -/
theorem mem_dedupe_of_unique {batch : List Diagnostic} {d : Diagnostic} (hd : d ∈ batch)
    (hunique : ∀ d' ∈ batch, d'.kind = d.kind → d'.span = d.span → d' = d) : d ∈ dedupe batch := by
  obtain ⟨d', hd', hkind, hspan⟩ := exists_mem_dedupe_iff.2 ⟨d, hd, rfl, rfl⟩
  rwa [← hunique d' (mem_of_mem_dedupe hd') hkind hspan]

end Diagnostic

/-! ## Kinds of issues -/

/-- The issues that are found at references. -/
def IssueKind.ofReferences : List IssueKind :=
  [.noTypeFound, .arityMismatch, .invalidSuperclass, .invalidMixinTarget]

namespace Environment

variable {env : Environment} {d : Diagnostic}

theorem kind_of_mem_unresolved {missing : TypeName} {span : Span}
    (h : d ∈ unresolved missing span) : d.kind ∈ IssueKind.ofReferences := by
  rw [List.mem_singleton.1 h]
  simp [Diagnostic.kind, Issue.kind, IssueKind.ofReferences]

theorem kind_of_mem_arityFindings {resolved : TypeName} {t : NamedType}
    (h : d ∈ env.arityFindings resolved t) : d.kind ∈ IssueKind.ofReferences := by
  rw [arityFindings] at h
  split at h
  · cases h
  · rw [List.mem_singleton.1 h]
    simp [Diagnostic.kind, Issue.kind, IssueKind.ofReferences]

theorem kind_of_mem_referencesFindings {nesting : Nesting} {references : List Reference}
    (h : d ∈ env.referencesFindings nesting references) : d.kind ∈ IssueKind.ofReferences := by
  obtain ⟨r, -, h⟩ := List.mem_flatMap.1 h
  cases r with
  | named t =>
    rw [referenceFindings] at h
    split at h
    · exact kind_of_mem_arityFindings h
    · exact kind_of_mem_unresolved h
  | singleton t =>
    rw [referenceFindings] at h
    split at h
    · cases h
    · exact kind_of_mem_unresolved h

theorem kind_of_mem_superClassFindings {name : TypeName} {nesting : Nesting} {t : NamedType}
    (h : d ∈ env.superClassFindings name nesting t) : d.kind ∈ IssueKind.ofReferences := by
  rcases List.mem_append.1 h with h | h
  · split at h
    · exact kind_of_mem_unresolved h
    · split at h
      · exact kind_of_mem_arityFindings h
      · rw [List.mem_singleton.1 h]
        simp [Diagnostic.kind, Issue.kind, IssueKind.ofReferences]
  · exact kind_of_mem_referencesFindings h

theorem kind_of_mem_mixinFindings {owner : Entry} {nesting : Nesting} {m : Mixin}
    (h : d ∈ env.mixinFindings owner nesting m) : d.kind ∈ IssueKind.ofReferences := by
  rcases List.mem_append.1 h with h | h
  · split at h
    · exact kind_of_mem_unresolved h
    · split at h
      · exact kind_of_mem_arityFindings h
      · rw [List.mem_singleton.1 h]
        simp [Diagnostic.kind, Issue.kind, IssueKind.ofReferences]
  · exact kind_of_mem_referencesFindings h

theorem kind_of_mem_namespaceFindings {e : Entry} (h : d ∈ env.namespaceFindings e) :
    d.kind ∈ IssueKind.ofReferences := by
  rw [namespaceFindings] at h
  split at h
  · cases h
  · exact kind_of_mem_unresolved h

theorem kind_of_mem_headerFindings {e : Entry} {f : Fragment EntityDecl}
    (h : d ∈ env.headerFindings e f) : d.kind ∈ IssueKind.ofReferences := by
  rcases List.mem_append.1 h with h | h
  · exact kind_of_mem_referencesFindings h
  · split at h
    · rename_i k _
      cases hsuper : k.superClass with
      | none => rw [hsuper] at h; cases h
      | some t => rw [hsuper] at h; exact kind_of_mem_superClassFindings h
    · exact kind_of_mem_referencesFindings h
    · cases h
    · exact kind_of_mem_referencesFindings h
    · exact kind_of_mem_referencesFindings h

theorem kind_of_mem_memberFindings {owner : Entry} {nesting : Nesting} {m : Member}
    (h : d ∈ env.memberFindings owner nesting m) : d.kind ∈ IssueKind.ofReferences := by
  cases m with
  | method _ | attr _ | typedVar _ => exact kind_of_mem_referencesFindings h
  | mixin _ => exact kind_of_mem_mixinFindings h
  | methodAlias _ | marker _ | nested _ => cases h

theorem kind_of_mem_duplicateFindings {e : Entry} (h : d ∈ duplicateFindings e) :
    d.kind = .duplicatedMethodDefinition := by
  obtain ⟨site, -, rfl⟩ := List.mem_map.1 h
  rfl

theorem kind_of_mem_singletonMethodFindings {name : TypeName} {m : Member}
    (h : d ∈ singletonMethodFindings name m) : d.kind = .interfaceSingletonMethod := by
  cases m with
  | method m =>
    rw [singletonMethodFindings] at h
    split at h
    · rw [List.mem_singleton.1 h]
      rfl
    · cases h
  | attr _ | methodAlias _ | mixin _ | marker _ | typedVar _ | nested _ => cases h

theorem kind_of_mem_bodyFindings {e : Entry} (h : d ∈ env.bodyFindings e) :
    d.kind ∈ IssueKind.interfaceSingletonMethod :: IssueKind.ofReferences := by
  obtain ⟨b, -, h⟩ := List.mem_flatMap.1 h
  obtain ⟨m, -, h⟩ := List.mem_flatMap.1 h
  rcases List.mem_append.1 h with h | h
  · split at h
    · rw [kind_of_mem_singletonMethodFindings h]
      exact List.mem_cons_self
    · cases h
  · exact List.mem_cons_of_mem _ (kind_of_mem_memberFindings h)

/-- A side of an entity has an alias that stands for nothing, or no chain. -/
theorem kind_of_mem_ancestryFindings {e : Entry} (he : env.get? e.name = some e)
    (h : d ∈ env.ancestryFindings env.sideChains e) :
    d.kind ∈ [IssueKind.unknownMethodAlias, .cyclicAncestor] := by
  obtain ⟨context, hside, h⟩ := List.mem_flatMap.1 h
  rw [get?_sideChains (mem_sideKeys (mem_entities_of_get? he) hside), Option.map_some,
    Option.getD_some] at h
  cases hchain : env.chain [] ⟨e.name, context⟩ with
  | ok chain =>
    rw [hchain, sideFindings] at h
    obtain ⟨a, -, rfl⟩ := List.mem_map.1 h
    exact List.mem_cons_self
  | error failure =>
    obtain ⟨d', rfl, hkind⟩ := diagnostic_of_chain_error ⟨e, he, hside⟩ hchain
    rw [hchain, sideFindings] at h
    rw [List.mem_singleton.1 h, hkind]
    exact List.mem_cons_of_mem _ List.mem_cons_self

/-! ## What is found of a kind -/

/-- Nothing is found of a kind that is none of those that a check finds. -/
theorem filter_kind_eq_nil {kind : IssueKind} {kinds : List IssueKind} (hkind : kind ∉ kinds)
    {ds : List Diagnostic} (h : ∀ d ∈ ds, d.kind ∈ kinds) :
    ds.filter (·.kind = kind) = [] := by
  refine List.filter_eq_nil_iff.2 fun d hd => ?_
  rw [decide_eq_true_eq]
  exact fun heq => hkind (heq ▸ h d hd)

/-- A finding about the members or ancestors of an entity comes from one of the checks of these. -/
theorem mem_rawFindings_of_kind (hd : d.kind ∉ IssueKind.ofReferences) :
    d ∈ env.rawFindings ↔ ∃ e ∈ env.entities,
      (e.kind = .interface ∧ ∃ m ∈ e.members, d ∈ singletonMethodFindings e.name m) ∨
        d ∈ duplicateFindings e ∨ d ∈ env.ancestryFindings env.sideChains e := by
  rw [rawFindings, List.mem_append, List.mem_flatMap, or_iff_left]
  · refine exists_congr fun e => and_congr_right fun _ => ?_
    have hnamespace : d ∉ env.namespaceFindings e :=
      fun h => hd (kind_of_mem_namespaceFindings h)
    have hheaders : d ∉ e.fragments.flatMap (env.headerFindings e) := by
      intro h
      obtain ⟨f, -, h⟩ := List.mem_flatMap.1 h
      exact hd (kind_of_mem_headerFindings h)
    have hbodies : d ∈ env.bodyFindings e ↔
        e.kind = .interface ∧ ∃ m ∈ e.members, d ∈ singletonMethodFindings e.name m := by
      have hmember : ∀ nesting m, d ∉ env.memberFindings e nesting m :=
        fun _ _ h => hd (kind_of_mem_memberFindings h)
      simp only [bodyFindings, Entry.members, List.mem_flatMap, List.mem_append, hmember, or_false]
      by_cases hkind : e.kind = .interface
      · simp only [hkind, true_and]
        constructor
        · rintro ⟨b, hb, m, hm, h⟩
          exact ⟨m, ⟨b, hb, hm⟩, h⟩
        · rintro ⟨m, ⟨b, hb, hm⟩, h⟩
          exact ⟨b, hb, m, hm, h⟩
      · simp [hkind]
    simp only [entryFindings, List.mem_append, hnamespace, hheaders, hbodies, false_or, or_assoc]
  · intro h
    obtain ⟨f, -, h⟩ := List.mem_flatMap.1 h
    exact hd (kind_of_mem_referencesFindings h)

/-- Aliases that stand for nothing are found on the sides of their entities. -/
theorem mem_rawFindings_alias (hd : d.kind = .unknownMethodAlias) :
    d ∈ env.rawFindings ↔
      ∃ e ∈ env.entities, d ∈ env.ancestryFindings env.sideChains e := by
  rw [mem_rawFindings_of_kind (by rw [hd]; decide)]
  refine exists_congr fun e => and_congr_right fun he => ?_
  rw [or_iff_right, or_iff_right]
  · intro h
    have hkind := kind_of_mem_duplicateFindings h
    rw [hd] at hkind
    cases hkind
  · rintro ⟨-, m, -, h⟩
    have hkind := kind_of_mem_singletonMethodFindings h
    rw [hd] at hkind
    cases hkind

section Keyed

variable (hkeyed : ∀ e ∈ env.entities, env.get? e.name = some e)

include hkeyed

/-- Singleton methods of interfaces are found among the members of interfaces. -/
theorem mem_rawFindings_interface (hd : d.kind = .interfaceSingletonMethod) :
    d ∈ env.rawFindings ↔ ∃ e ∈ env.entities, e.kind = .interface ∧
      ∃ m ∈ e.members, d ∈ singletonMethodFindings e.name m := by
  rw [mem_rawFindings_of_kind (by rw [hd]; decide)]
  refine exists_congr fun e => and_congr_right fun he => or_iff_left ?_
  rintro (h | h)
  · have hkind := kind_of_mem_duplicateFindings h
    rw [hd] at hkind
    cases hkind
  · have hkind := kind_of_mem_ancestryFindings (hkeyed e he) h
    rw [hd] at hkind
    simp at hkind

/-- Of the findings of an entity, redefinitions are those of its methods and accessors. -/
theorem filter_entryFindings_duplicated {e : Entry} (he : e ∈ env.entities) :
    (env.entryFindings env.sideChains e).filter (·.kind = .duplicatedMethodDefinition) =
      duplicateFindings e := by
  have hheaders : ∀ d ∈ e.fragments.flatMap (env.headerFindings e),
      d.kind ∈ IssueKind.ofReferences := by
    intro d hd
    obtain ⟨f, -, hd⟩ := List.mem_flatMap.1 hd
    exact kind_of_mem_headerFindings hd
  have hown : (duplicateFindings e).filter (·.kind = .duplicatedMethodDefinition) =
      duplicateFindings e :=
    List.filter_eq_self.2 fun d hd => by simpa using kind_of_mem_duplicateFindings hd
  rw [entryFindings, List.filter_append, List.filter_append, List.filter_append,
    List.filter_append,
    filter_kind_eq_nil (by decide) fun _ hd => kind_of_mem_namespaceFindings hd,
    filter_kind_eq_nil (by decide) hheaders,
    filter_kind_eq_nil (by decide) fun _ hd => kind_of_mem_bodyFindings hd, hown,
    filter_kind_eq_nil (by decide) fun _ hd => kind_of_mem_ancestryFindings (hkeyed e he) hd]
  simp

/-- Redefinitions are found entity by entity. -/
theorem filter_rawFindings_duplicated :
    env.rawFindings.filter (·.kind = .duplicatedMethodDefinition) =
      env.entities.flatMap duplicateFindings := by
  have hnone : IssueKind.duplicatedMethodDefinition ∉ IssueKind.ofReferences := by decide
  rw [rawFindings, List.filter_append, List.filter_flatMap,
    List.flatMap_congr fun e he => filter_entryFindings_duplicated hkeyed he,
    filter_kind_eq_nil hnone, List.append_nil]
  intro d hd
  obtain ⟨f, -, hd⟩ := List.mem_flatMap.1 hd
  exact kind_of_mem_referencesFindings hd

end Keyed

end Environment

/-! ## Sessions -/

/-- The entities of a session are found under their names. -/
theorem SessionSetup.get?_of_mem_entities {setup : SessionSetup} {s : Session}
    (h : setup.build = .ok s) : ∀ e ∈ s.env.entities, s.env.get? e.name = some e := by
  obtain ⟨parsed, henv⟩ := env_of_build h
  intro e he
  rw [henv] at he ⊢
  exact Environment.get?_of_mem_entities he

namespace Session

variable {setup : SessionSetup} {s : Session}

/-- What is reported is found in the environment or a conflict between declarations. -/
theorem mem_validate_iff (hbuild : setup.build = .ok s) {d : Diagnostic}
    (hd : d.kind ≠ .declarationConflict) :
    d ∈ s.validate ↔ d ∈ Diagnostic.dedupe s.env.rawFindings := by
  obtain ⟨-, -, -, hconflicts⟩ := SessionSetup.parsed_of_build hbuild
  rw [validate, Diagnostic.mem_sort, List.mem_append, or_iff_right]
  · rfl
  · rw [hconflicts, Diagnostic.mem_sort]
    exact fun h => hd (kind_of_mem_mergeSources _ d h)

/-- An issue is reported at a place exactly if it is found there. -/
theorem reports_iff_rawFindings (hbuild : setup.build = .ok s) {kind : IssueKind} {span : Span}
    (hkind : kind ≠ .declarationConflict) :
    s.Reports kind span ↔ ∃ d ∈ s.env.rawFindings, d.kind = kind ∧ d.span = span := by
  rw [← Diagnostic.exists_mem_dedupe_iff]
  constructor
  · rintro ⟨d, hd, rfl, hspan⟩
    exact ⟨d, (mem_validate_iff hbuild hkind).1 hd, rfl, hspan⟩
  · rintro ⟨d, hd, rfl, hspan⟩
    exact ⟨d, (mem_validate_iff hbuild hkind).2 hd, rfl, hspan⟩

end Session

end RubySig
