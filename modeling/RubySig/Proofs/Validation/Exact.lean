import RubySig.Proofs.Validation.References

/-!
# References are checked exactly

That the name of a reference is not found, or that it has the wrong number of arguments, is reported
at the place of the reference exactly if it is so: although the batch is sorted, and although each
kind is reported only once at each place.

* `Environment.mem_rawFindings_of_span`: at the place of a reference nothing is found but what is
  wrong with it.
* `Diagnostic.exists_mem_dedupe_iff`: joining diagnostics loses no kind at any place.
* `kind_of_mem_mergeSources`: conflicts are another issue.
* `Session.Reports`, `Session.reports_iff_of_writes`: all of it, for sessions.
-/

namespace RubySig

/-! ## Places of issues -/

namespace Environment

variable {env : Environment}

theorem span_of_mem_issuesOf {nesting : Nesting} {role : Role} {r : Reference} {d : Diagnostic}
    (h : d ∈ env.issuesOf nesting role r) : d.span = r.span := by
  cases r with
  | named t =>
    rw [issuesOf] at h
    split at h
    · split at h
      · rw [arityFindings] at h
        split at h
        · cases h
        · rw [List.mem_singleton.1 h]
          rfl
      · cases h
    · rw [List.mem_singleton.1 h]
      rfl
  | singleton t =>
    rw [issuesOf] at h
    split at h
    · cases h
    · rw [List.mem_singleton.1 h]
      rfl

theorem span_of_mem_namespaceFindings {e : Entry} {d : Diagnostic}
    (h : d ∈ env.namespaceFindings e) : d.span = e.nameSpan := by
  rw [namespaceFindings] at h
  split at h
  · cases h
  · rw [List.mem_singleton.1 h]

/-- At the place of a reference nothing is found but what is wrong with this reference. -/
theorem mem_rawFindings_of_span {sources : List (SourceId × List Declaration)} {d : Diagnostic}
    (henv : env = (mergeSources sources).1) (hnodup : env.sites.Nodup) (hd : d.isReferential)
    {o : Occurrence} (ho : o ∈ env.occurrences) (hspan : d.span = o.reference.span) :
    d ∈ env.rawFindings ↔ d ∈ env.issuesOf o.nesting o.role o.reference := by
  rw [mem_rawFindings_iff henv hd]
  constructor
  · rintro (⟨e, he, h⟩ | ⟨o', ho', h⟩)
    · -- where a name is declared no reference is written
      have hsame : o.reference.span = e.nameSpan :=
        hspan.symm.trans (span_of_mem_namespaceFindings h)
      exact absurd (congrArg Span.site hsame) (site_ne_of_mem_occurrences hnodup ho he)
    · have hsame : o.reference.span = o'.reference.span := hspan.symm.trans (span_of_mem_issuesOf h)
      obtain rfl := occurrence_eq_of_site hnodup ho ho' (congrArg Span.site hsame)
      exact h
  · exact fun h => Or.inr ⟨o, ho, h⟩

end Environment

/-! ## Batches -/

namespace Diagnostic

/-- Joining diagnostics of one kind at one place loses no kind at any place. -/
theorem exists_mem_dedupe_iff {batch : List Diagnostic} {kind : IssueKind} {span : Span} :
    (∃ d ∈ dedupe batch, d.kind = kind ∧ d.span = span) ↔
      ∃ d ∈ batch, d.kind = kind ∧ d.span = span := by
  have hseen : ∀ (batch : List Diagnostic) (seen : List (IssueKind × Span)), (kind, span) ∉ seen →
      ((∃ d ∈ dedupeFrom seen batch, d.kind = kind ∧ d.span = span) ↔
        ∃ d ∈ batch, d.kind = kind ∧ d.span = span) := by
    intro batch
    induction batch with
    | nil => exact fun _ _ => Iff.rfl
    | cons d rest ih =>
      intro seen hfresh
      rw [dedupeFrom]
      split
      · rename_i hold
        have hother : ¬ (d.kind = kind ∧ d.span = span) := by
          rintro ⟨rfl, rfl⟩
          exact hfresh hold
        rw [ih seen hfresh, List.exists_mem_cons_iff, or_iff_right hother]
      · rw [List.exists_mem_cons_iff, List.exists_mem_cons_iff]
        by_cases hthis : d.kind = kind ∧ d.span = span
        · exact iff_of_true (Or.inl hthis) (Or.inl hthis)
        · rw [or_iff_right hthis, or_iff_right hthis, ih]
          refine List.not_mem_cons_of_ne_of_not_mem (fun heq => hthis ?_) hfresh
          obtain ⟨rfl, rfl⟩ := Prod.mk.inj heq
          exact ⟨rfl, rfl⟩
  exact hseen batch [] List.not_mem_nil

theorem mem_sort {sources : SourceMap} {batch : List Diagnostic} {d : Diagnostic} :
    d ∈ sort sources batch ↔ d ∈ batch := by
  rw [sort, List.mem_mergeSort]

end Diagnostic

/-! ## Conflicts -/

theorem kind_of_mem_superClassConflicts {env : Environment} {name : TypeName}
    {fragments : List (Fragment EntityDecl)} :
    ∀ {first : Option TypeName}, ∀ d ∈ superClassConflicts env name first fragments,
      d.kind = .declarationConflict := by
  induction fragments with
  | nil => exact fun _ hd => absurd hd List.not_mem_nil
  | cons f rest ih =>
    intro first
    unfold superClassConflicts
    dsimp only
    split
    · exact ih
    · exact ih
    · split
      · exact ih
      · exact List.forall_mem_cons.2 ⟨rfl, ih⟩

theorem Merge.kind_of_mem_conflicts {m : Merge}
    (h : ∀ d ∈ m.conflicts, d.kind = .declarationConflict) (ps : List Placement) :
    ∀ d ∈ (m.insertAll ps).conflicts, d.kind = .declarationConflict := by
  induction ps generalizing m with
  | nil => exact h
  | cons p rest ih =>
    refine ih ?_
    have hconflict : ∀ name reason span,
        ∀ d ∈ (m.conflict name reason span).conflicts, d.kind = .declarationConflict :=
      fun name reason span => List.forall_mem_append.2 ⟨h, List.forall_mem_singleton.2 rfl⟩
    cases p with
    | entity name f =>
      rw [insert, insertEntity]
      split
      · exact h
      · split
        · exact hconflict _ _ _
        · exact h
    | global f =>
      rw [insert, insertGlobal]
      split
      · exact hconflict _ _ _
      · exact h

theorem kind_of_mem_mergeSources (sources : List (SourceId × List Declaration)) :
    ∀ d ∈ (mergeSources sources).2, d.kind = .declarationConflict := by
  refine List.forall_mem_append.2 ⟨Merge.kind_of_mem_conflicts
    (fun _ hd => absurd hd List.not_mem_nil) _, fun d hd => ?_⟩
  obtain ⟨e, -, hd⟩ := List.mem_flatMap.1 hd
  split at hd
  · exact kind_of_mem_superClassConflicts d hd
  · exact absurd hd List.not_mem_nil

/-! ## Sessions -/

/-- An issue of some kind is reported at some place. -/
def Session.Reports (s : Session) (kind : IssueKind) (span : Span) : Prop :=
  ∃ d ∈ s.validate, d.kind = kind ∧ d.span = span

theorem SessionSetup.nodup_sites_of_build {setup : SessionSetup} {s : Session}
    (h : setup.build = .ok s) : s.env.sites.Nodup := by
  obtain ⟨errors, hparsed, henv, -⟩ := parsed_of_build h
  rw [henv]
  refine Environment.nodup_sites_of_read (parseSources_read hparsed) ?_
  rw [ids_of_parseSources hparsed]
  exact s.sources.nodup_numbered

/-- What is reported at a reference of a session is what is wrong with it. -/
theorem Session.reports_iff_of_mem_occurrences {setup : SessionSetup} {s : Session}
    (hbuild : setup.build = .ok s) {o : Occurrence} (ho : o ∈ s.env.occurrences) {kind : IssueKind}
    (hkind : kind = .noTypeFound ∨ kind = .arityMismatch) :
    s.Reports kind o.reference.span ↔
      ∃ d ∈ s.env.issuesOf o.nesting o.role o.reference, d.kind = kind := by
  obtain ⟨-, -, henv, hconflicts⟩ := SessionSetup.parsed_of_build hbuild
  have hnodup := SessionSetup.nodup_sites_of_build hbuild
  have hreferential : ∀ d : Diagnostic, d.kind = kind → d.isReferential := by
    rintro d rfl
    rcases hkind with hkind | hkind <;> simp [Diagnostic.isReferential, hkind]
  have hvalidate : s.Reports kind o.reference.span ↔
      ∃ d ∈ s.env.findings, d.kind = kind ∧ d.span = o.reference.span := by
    constructor
    · rintro ⟨d, hd, hissue⟩
      rcases List.mem_append.1 (Diagnostic.mem_sort.1 hd) with hd | hd
      · rw [hconflicts] at hd
        have hconflict := kind_of_mem_mergeSources _ d (Diagnostic.mem_sort.1 hd)
        rw [hissue.1] at hconflict
        rcases hkind with rfl | rfl <;> cases hconflict
      · exact ⟨d, hd, hissue⟩
    · rintro ⟨d, hd, hissue⟩
      exact ⟨d, Diagnostic.mem_sort.2 (List.mem_append_right _ hd), hissue⟩
  rw [hvalidate]
  change (∃ d ∈ Diagnostic.dedupe s.env.rawFindings, _) ↔ _
  rw [Diagnostic.exists_mem_dedupe_iff]
  have hmem : ∀ d : Diagnostic, d.kind = kind → d.span = o.reference.span →
      (d ∈ s.env.rawFindings ↔ d ∈ s.env.issuesOf o.nesting o.role o.reference) := fun d hissue =>
    Environment.mem_rawFindings_of_span henv hnodup (hreferential d hissue) ho
  constructor
  · rintro ⟨d, hd, hissue, hspan⟩
    exact ⟨d, (hmem d hissue hspan).1 hd, hissue⟩
  · rintro ⟨d, hd, hissue⟩
    have hspan := Environment.span_of_mem_issuesOf hd
    exact ⟨d, (hmem d hissue hspan).2 hd, hissue, hspan⟩

namespace Environment

variable {env : Environment} {nesting : Nesting}

theorem missing_of_issuesOf_named {role : Role} {t : NamedType} :
    (∃ d ∈ env.issuesOf nesting role (.named t), d.kind = .noTypeFound) ↔
      env.resolve? t.name nesting .asType = none := by
  rw [issuesOf, resolve?]
  cases env.resolve t.name nesting .asType with
  | error missing => exact iff_of_true ⟨_, List.mem_singleton_self _, rfl⟩ rfl
  | ok resolved =>
    refine iff_of_false ?_ (Option.some_ne_none _)
    rintro ⟨d, hd, hkind⟩
    dsimp only at hd
    split at hd
    · rw [arityFindings] at hd
      split at hd
      · cases hd
      · rw [List.mem_singleton.1 hd] at hkind
        cases hkind
    · cases hd

theorem arity_of_arityFindings {resolved : TypeName} {e : Entry} {t : NamedType}
    (he : env.get? resolved = some e) :
    (∃ d ∈ env.arityFindings resolved t, d.kind = .arityMismatch) ↔
      t.args.length ≠ e.typeParams.length := by
  have hparams : env.paramsOf resolved = e.typeParams := by
    rw [paramsOf, he]
    rfl
  rw [arityFindings, hparams]
  split
  · rename_i hlength
    refine iff_of_false ?_ (not_not.2 hlength.symm)
    rintro ⟨d, hd, -⟩
    cases hd
  · rename_i hlength
    exact iff_of_true ⟨_, List.mem_singleton_self _, rfl⟩ (Ne.symm hlength)

theorem arity_of_issuesOf_named {role : Role} {t : NamedType} :
    (∃ d ∈ env.issuesOf nesting role (.named t), d.kind = .arityMismatch) ↔
      ∃ name e, env.resolve? t.name nesting .asType = some name ∧ env.get? name = some e ∧
        role.allows e.kind ∧ t.args.length ≠ e.typeParams.length := by
  rw [issuesOf, resolve?]
  cases hresolve : env.resolve t.name nesting .asType with
  | error missing =>
    refine iff_of_false ?_ ?_
    · rintro ⟨d, hd, hkind⟩
      rw [List.mem_singleton.1 hd] at hkind
      cases hkind
    · rintro ⟨name, e, hname, -⟩
      cases hname
  | ok resolved =>
    obtain ⟨e, he, -⟩ := declared_of_resolve hresolve
    have hkind : (env.kind? resolved).any role.allows = role.allows e.kind := by
      rw [kind?, he]
      rfl
    dsimp only
    rw [hkind]
    constructor
    · intro h
      split at h
      · rename_i hallowed
        exact ⟨resolved, e, rfl, he, hallowed, (arity_of_arityFindings he).1 h⟩
      · obtain ⟨d, hd, -⟩ := h
        cases hd
    · rintro ⟨name, e', hname, he', hallowed, hlength⟩
      obtain rfl : resolved = name := Option.some.inj hname
      obtain rfl : e = e' := Option.some.inj (he.symm.trans he')
      rw [if_pos hallowed]
      exact (arity_of_arityFindings he).2 hlength

theorem missing_of_issuesOf_singleton {role : Role} {t : SingletonType} :
    (∃ d ∈ env.issuesOf nesting role (.singleton t), d.kind = .noTypeFound) ↔
      ¬ ∃ name e, env.resolve? t.name nesting .asNamespace = some name ∧ env.get? name = some e ∧
        e.kind.isNamespace := by
  rw [issuesOf, resolve?]
  cases hresolve : env.resolve t.name nesting .asNamespace with
  | error missing =>
    refine iff_of_true ⟨_, List.mem_singleton_self _, rfl⟩ ?_
    rintro ⟨name, e, hname, -⟩
    cases hname
  | ok resolved =>
    obtain ⟨e, he, hkind⟩ := declared_of_resolve hresolve
    refine iff_of_false ?_ (not_not.2 ⟨resolved, e, rfl, he, hkind⟩)
    rintro ⟨d, hd, -⟩
    cases hd

end Environment

/-- In a session a name that is written in a fragment or global variable is reported as missing at
its place exactly if it does not resolve in the scopes in which it is written, and as having the
wrong number of arguments exactly if it resolves to an entity that is allowed there and has another
number of type parameters.  The operand of `singleton` is reported as missing exactly if it does not
resolve to a class or module. -/
theorem Session.reports_iff_of_writes {setup : SessionSetup} {s : Session}
    (hbuild : setup.build = .ok s) (role : Role) (nesting : Nesting) :
    (∀ t : NamedType, s.env.Writes role nesting (.named t) →
      (s.Reports .noTypeFound t.span ↔ s.env.resolve? t.name nesting .asType = none) ∧
      (s.Reports .arityMismatch t.span ↔
        ∃ name e, s.env.resolve? t.name nesting .asType = some name ∧ s.env.get? name = some e ∧
          role.allows e.kind ∧ t.args.length ≠ e.typeParams.length)) ∧
    ∀ t : SingletonType, s.env.Writes role nesting (.singleton t) →
      (s.Reports .noTypeFound t.span ↔
        ¬ ∃ name e, s.env.resolve? t.name nesting .asNamespace = some name ∧
          s.env.get? name = some e ∧ e.kind.isNamespace) := by
  refine ⟨fun t ht => ?_, fun t ht => ?_⟩
  · have hoccurs := ht.mem_occurrences rfl
    exact ⟨(reports_iff_of_mem_occurrences hbuild hoccurs (Or.inl rfl)).trans
        Environment.missing_of_issuesOf_named,
      (reports_iff_of_mem_occurrences hbuild hoccurs (Or.inr rfl)).trans
        Environment.arity_of_issuesOf_named⟩
  · exact (reports_iff_of_mem_occurrences hbuild (ht.mem_occurrences rfl) (Or.inl rfl)).trans
      Environment.missing_of_issuesOf_singleton

/-- A generic class that is used with two arguments, a name and an operand of `singleton`, neither
of which is declared. -/
def misusedSetup : SessionSetup :=
  .ofFile "a.rbs" "class Box[T]\nend\n\ntype pair = Box[Gone, singleton(Lost)]\n"

/-- The name that an alias stands for, if its arguments are a name and an operand of `singleton`. -/
def Environment.aliasedNames? (env : Environment) (name : TypeName) :
    Option (Nesting × NamedType × NamedType × SingletonType) :=
  match env.get? name with
  | some ⟨_, ⟨.typeAlias d, nesting, _⟩, _⟩ =>
    match d.type with
    | .named ⟨target, [.named first, .singleton second], span⟩ =>
      some (nesting, ⟨target, [.named first, .singleton second], span⟩, first, second)
    | _ => none
  | _ => none

theorem Environment.writes_of_aliasedNames {env : Environment} {name : TypeName} {nesting : Nesting}
    {t u : NamedType} {v : SingletonType} (h : env.aliasedNames? name = some (nesting, t, u, v)) :
    env.Writes .plain nesting (.named t) ∧ env.Writes .plain nesting (.named u) ∧
      env.Writes .plain nesting (.singleton v) := by
  rw [aliasedNames?] at h
  split at h
  · rename_i placed d around source reopenings hget
    split at h
    · rename_i target first second span htype
      obtain ⟨rfl, rfl, rfl, rfl⟩ := by simpa only [Option.some.injEq, Prod.mk.injEq] using h
      have he := mem_entities_of_get? hget
      have hwrites : ∀ node ∈ d.type.nodes, env.Writes .plain around node := fun node hnode =>
        .header he List.mem_cons_self (.aliased hnode)
      rw [htype] at hwrites
      refine ⟨hwrites _ ?_, hwrites _ ?_, hwrites _ ?_⟩ <;>
        simp [TypeExpr.nodes, NamedType.argNodes, nodesOfTypes]
    · cases h
  · cases h

set_option maxRecDepth 100000 in
/-- The class is reported for the number of its arguments, and the arguments as missing. -/
theorem misused_reports : ∃ s t u v, misusedSetup.build = .ok s ∧
    s.env.aliasedNames? (.topLevel "pair") = some (.topLevel, t, u, v) ∧
    s.Reports .arityMismatch t.span ∧ ¬ s.Reports .noTypeFound t.span ∧
    s.Reports .noTypeFound u.span ∧ ¬ s.Reports .arityMismatch u.span ∧
    s.Reports .noTypeFound v.span := by
  obtain ⟨s, hbuild, hs⟩ := exists_ok_of_any misusedSetup.build
    (fun s => (s.env.aliasedNames? (.topLevel "pair")).any fun p => p.1 = .topLevel &&
      s.env.resolve? p.2.1.name p.1 .asType = some (.topLevel "Box") && p.2.1.args.length = 2 &&
      s.env.resolve? p.2.2.1.name p.1 .asType = none &&
      s.env.resolve? p.2.2.2.name p.1 .asNamespace = none &&
      (s.env.get? (.topLevel "Box")).any fun e => e.typeParams.length = 1) (by decide +kernel)
  obtain ⟨⟨nesting, t, u, v⟩, hnames, hs⟩ := (Option.any_eq_true _ _).1 hs
  simp only [Bool.and_eq_true, decide_eq_true_eq] at hs
  obtain ⟨⟨⟨⟨⟨rfl, ht⟩, hargs⟩, hu⟩, hv⟩, hbox⟩ := hs
  obtain ⟨e, he, hparams⟩ := (Option.any_eq_true _ _).1 hbox
  obtain ⟨hwt, hwu, hwv⟩ := Environment.writes_of_aliasedNames hnames
  obtain ⟨hnamed, hsingleton⟩ := Session.reports_iff_of_writes hbuild .plain .topLevel
  refine ⟨s, t, u, v, hbuild, hnames, ?_, ?_, ?_, ?_, ?_⟩
  · refine (hnamed t hwt).2.2 ⟨_, e, ht, he, rfl, ?_⟩
    rw [hargs, of_decide_eq_true hparams]
    decide
  · rw [(hnamed t hwt).1, ht]
    exact Option.some_ne_none _
  · exact (hnamed u hwu).1.2 hu
  · rw [(hnamed u hwu).2, hu]
    rintro ⟨name, e, hname, -⟩
    cases hname
  · rw [hsingleton v hwv, hv]
    rintro ⟨name, e, hname, -⟩
    cases hname

end RubySig
