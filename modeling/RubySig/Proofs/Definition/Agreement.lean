import RubySig.Proofs.Ancestry.Reading
import RubySig.Proofs.Definition.Table

/-!
# Environments with the same definitions

Environments whose fragments read the same have the same method tables as well as the same chains,
and if the fragments read the same up to a change of spans, the same up to that change.

* `MethodDefinition.mapSpans`, `MethodTable.mapSpans`, `Definition.mapSpans`: methods, tables and
  definitions with other spans.
* `AttributeMember.readingMethod_accessors`: the accessors of an attribute, read in terms of the
  parameters of an entity.
* `Environment.SameReading.contributed`, `Environment.SameReading.contributedAliases`: what an
  ancestor adds.
* `Environment.SameReading.ofEntries`: the tables of a chain.
* `Environment.SameReading.definition`: the result.
-/

namespace RubySig

section Spans

variable (σ : Span → Span)

/-! ## Other spans -/

/-- A method with other spans. -/
def MethodDefinition.mapSpans (d : MethodDefinition) : MethodDefinition :=
  { d with overloads := d.overloads.map (MethodType.mapSpans σ), span := σ d.span }

/-- A missing alias at another place. -/
def MissingAlias.mapSpan (a : MissingAlias) : MissingAlias := { a with span := σ a.span }

/-- An alias at another place. -/
def AliasMember.mapSpan (a : AliasMember) : AliasMember := { a with span := σ a.span }

/-- A method table with other spans. -/
def MethodTable.mapSpans (t : MethodTable) : MethodTable :=
  ⟨t.methods.mapValues (MethodDefinition.mapSpans σ), t.missing.map (MissingAlias.mapSpan σ)⟩

/-- A definition with other spans. -/
def Definition.mapSpans (d : Definition) : Definition :=
  ⟨d.name, d.context, d.ancestors.mapSpans σ, d.methods.map (MethodDefinition.mapSpans σ),
    d.missingAliases.map (MissingAlias.mapSpan σ)⟩

namespace MethodTable

theorem mapSpans_define (t : MethodTable) (d : MethodDefinition) :
    (t.define d).mapSpans σ = (t.mapSpans σ).define (d.mapSpans σ) :=
  congrArg (fun methods => MethodTable.mk methods _) (OrderedMap.mapValues_insert _ _ _ _)

theorem mapSpans_foldl_define (ds : List MethodDefinition) (t : MethodTable) :
    (ds.foldl define t).mapSpans σ =
      (ds.map (MethodDefinition.mapSpans σ)).foldl define (t.mapSpans σ) := by
  induction ds generalizing t with
  | nil => rfl
  | cons d rest ih => rw [List.foldl_cons, ih, mapSpans_define, List.map_cons, List.foldl_cons]

theorem mapSpans_addAlias (owner : TypeName) (t : MethodTable) (a : AliasMember) :
    (addAlias owner t a).mapSpans σ = addAlias owner (t.mapSpans σ) (a.mapSpan σ) := by
  have hget : (t.mapSpans σ).methods.get? (a.mapSpan σ).oldName =
      (t.methods.get? a.oldName).map (MethodDefinition.mapSpans σ) :=
    OrderedMap.get?_mapValues _ _ _
  rw [addAlias, addAlias, hget]
  cases t.methods.get? a.oldName with
  | none => exact congrArg (MethodTable.mk _) List.map_append
  | some target => exact mapSpans_define σ t _

theorem mapSpans_foldl_addAlias (owner : TypeName) (as : List AliasMember) (t : MethodTable) :
    (as.foldl (addAlias owner) t).mapSpans σ =
      (as.map (AliasMember.mapSpan σ)).foldl (addAlias owner) (t.mapSpans σ) := by
  induction as generalizing t with
  | nil => rfl
  | cons a rest ih => rw [List.foldl_cons, ih, mapSpans_addAlias, List.map_cons, List.foldl_cons]

theorem mapSpans_sorted (t : MethodTable) :
    (t.mapSpans σ).sorted = t.sorted.map (MethodDefinition.mapSpans σ) := by
  have hvalues : (t.mapSpans σ).methods.values =
      t.methods.values.map (MethodDefinition.mapSpans σ) := by
    show (t.methods.pairs.map _).map _ = (t.methods.pairs.map _).map _
    rw [List.map_map, List.map_map]
    rfl
  rw [sorted, sorted, hvalues]
  refine (List.map_mergeSort (f := MethodDefinition.mapSpans σ) fun _ _ _ _ => ?_).symm
  rfl

end MethodTable

/-! ## Accessors -/

theorem Substitution.without_nil (s : Substitution) : s.without [] = s := by
  obtain ⟨⟨pairs⟩⟩ := s
  exact congrArg (fun ps => Substitution.mk ⟨ps⟩) (List.filter_eq_self.2 fun _ _ => rfl)

section Readings

variable (env : Environment) (canonical : List String) (params : List TypeParam)
  (nesting : Nesting)

theorem Environment.mapSpans_reading (t : TypeExpr) :
    (env.reading canonical params nesting t).mapSpans σ =
      ((t.map (env.absolutizeNode nesting)).map (renameParams canonical params).applyNode).map
        (TypeExpr.spanNode σ) := by
  rw [reading, absolutize, Substitution.apply_eq, TypeExpr.mapSpans]

/-- An overload without type parameters of its own is read like a type. -/
theorem Environment.mapSpans_readingMethod {m : MethodType} (hm : m.typeParams = []) :
    (env.readingMethod canonical params nesting m).mapSpans σ =
      (((m.map (env.absolutizeNode nesting)).map (renameParams canonical params).applyNode).map
        (TypeExpr.spanNode σ)).respan σ := by
  have hown : typeParamNames (m.map (env.absolutizeNode nesting)).typeParams = [] := by
    rw [MethodType.typeParamNames_map, hm]
    rfl
  rw [readingMethod, absolutizeMethod, Substitution.applyMethod_eq, hown, Substitution.without_nil,
    MethodType.mapSpans]

namespace AttributeMember

/-- An attribute with another type, written at another place. -/
def retyped (a : AttributeMember) (type : TypeExpr) (span : Span) : AttributeMember :=
  { a with type := type, span := span }

/-- Reading an accessor is reading the type of the attribute. -/
theorem readingMethod_accessors (a : AttributeMember) :
    a.accessors.map (fun p => (p.1, (env.readingMethod canonical params nesting p.2).mapSpans σ)) =
      (a.retyped ((env.reading canonical params nesting a.type).mapSpans σ) (σ a.span)).accessors :=
    by
  have hreader : (env.readingMethod canonical params nesting a.readerType).mapSpans σ =
      (a.retyped ((env.reading canonical params nesting a.type).mapSpans σ)
        (σ a.span)).readerType := by
    rw [Environment.mapSpans_readingMethod _ _ _ _ _ rfl, readerType, readerType,
      Environment.mapSpans_reading]
    simp only [MethodType.map_eq]
    rfl
  have hwriter : (env.readingMethod canonical params nesting a.writerType).mapSpans σ =
      (a.retyped ((env.reading canonical params nesting a.type).mapSpans σ)
        (σ a.span)).writerType := by
    rw [Environment.mapSpans_readingMethod _ _ _ _ _ rfl, writerType, writerType,
      Environment.mapSpans_reading]
    simp only [MethodType.map_eq]
    rfl
  rw [accessors, accessors, List.map_append]
  refine congrArg₂ _ ?_ ?_
  · show List.map _ (if a.kind.hasReader then _ else _) = if a.kind.hasReader then _ else _
    split
    · exact congrArg (fun m => [(a.name, m)]) hreader
    · rfl
  · show List.map _ (if a.kind.hasWriter then _ else _) = if a.kind.hasWriter then _ else _
    split
    · exact congrArg (fun m => [(a.writerName, m)]) hwriter
    · rfl

end AttributeMember

end Readings

/-! ## What ancestors add -/

/-- A way to read types and overloads reads the accessors of an attribute as it reads its type. -/
def ReadsAccessors (read : TypeExpr → TypeExpr) (readMethod : MethodType → MethodType) : Prop :=
  ∀ a : AttributeMember, a.accessors.map (fun p => (p.1, (readMethod p.2).mapSpans σ)) =
    (a.retyped ((read a.type).mapSpans σ) (σ a.span)).accessors

section Members

variable {σ} {read read' : TypeExpr → TypeExpr} {readMethod readMethod' : MethodType → MethodType}
  {prepare prepare' change : MethodType → MethodType} {p p' : AncestorEntry}

/-- Attributes that mean the same have the same accessors, also after a further change. -/
theorem accessors_sameReading (hreads : ReadsAccessors σ read readMethod)
    (hreads' : ReadsAccessors σ read' readMethod')
    (hprepare : ∀ m, (prepare m).mapSpans σ = change ((readMethod m).mapSpans σ))
    (hprepare' : ∀ m, (prepare' m).mapSpans σ = change ((readMethod' m).mapSpans σ))
    {a a' : AttributeMember}
    (h : Member.SameReading σ read read' readMethod readMethod' (.attr a) (.attr a')) :
    a.accessors.map (fun q => (q.1, (prepare q.2).mapSpans σ)) =
      a'.accessors.map fun q => (q.1, (prepare' q.2).mapSpans σ) := by
  have hsplit : ∀ (prepare readMethod : MethodType → MethodType) (qs : List (String × MethodType)),
      (∀ m, (prepare m).mapSpans σ = change ((readMethod m).mapSpans σ)) →
      qs.map (fun q => (q.1, (prepare q.2).mapSpans σ)) =
        (qs.map fun q => (q.1, (readMethod q.2).mapSpans σ)).map fun q => (q.1, change q.2) := by
    intro prepare readMethod qs hprepare
    rw [List.map_map]
    exact List.map_congr_left fun q _ => congrArg (Prod.mk q.1) (hprepare q.2)
  cases h with
  | attr kind name side visibility span type =>
    have hretyped : (a.retyped ((read a.type).mapSpans σ) (σ a.span)).accessors =
        (a'.retyped ((read' a'.type).mapSpans σ) (σ a'.span)).accessors := by
      rw [AttributeMember.retyped, AttributeMember.retyped, kind, name, side, visibility, span,
        type]
    rw [hsplit _ _ _ hprepare, hsplit _ _ _ hprepare', hreads a, hreads' a', hretyped]

/-- The accessors that an ancestor adds depend on their prepared types up to spans. -/
theorem mapSpans_accessorMethods (p : AncestorEntry) (prepare : MethodType → MethodType)
    (sect : Visibility) (a : AttributeMember) :
    (a.accessors.map fun q => (⟨q.1, p.name, p.name, a.visibility.getD sect, [prepare q.2],
        a.span⟩ : MethodDefinition)).map (MethodDefinition.mapSpans σ) =
      (a.accessors.map fun q => (q.1, (prepare q.2).mapSpans σ)).map fun q =>
        ⟨q.1, p.name, p.name, a.visibility.getD sect, [q.2], σ a.span⟩ := by
  rw [List.map_map, List.map_map]
  rfl

/-- Members that mean the same add the same methods and accessors, up to spans, if their overloads
are prepared in the same way once they are read. -/
theorem mapSpans_contributedFrom (hname : p.name = p'.name) (hcontext : p.context = p'.context)
    (hreads : ReadsAccessors σ read readMethod) (hreads' : ReadsAccessors σ read' readMethod')
    (hprepare : ∀ m, (prepare m).mapSpans σ = change ((readMethod m).mapSpans σ))
    (hprepare' : ∀ m, (prepare' m).mapSpans σ = change ((readMethod' m).mapSpans σ))
    (sect : Visibility) {members members' : List Member}
    (h : List.Forall₂ (Member.SameReading σ read read' readMethod readMethod') members members') :
    (contributedFrom p prepare sect members).map (MethodDefinition.mapSpans σ) =
      (contributedFrom p' prepare' sect members').map (MethodDefinition.mapSpans σ) := by
  induction h generalizing sect with
  | nil => rfl
  | @cons m m' rest rest' hm _ ih =>
    cases hm with
    | @method m m' name kind visibility span overloads =>
      have haccess : m.accessibility? p.context sect = m'.accessibility? p'.context sect := by
        unfold MethodMember.accessibility?
        rw [kind, visibility, hcontext]
      have hoverloads : (m.overloads.map prepare).map (MethodType.mapSpans σ) =
          (m'.overloads.map prepare').map (MethodType.mapSpans σ) := by
        have hchange := congrArg (List.map change) overloads
        rw [List.map_map, List.map_map] at hchange ⊢
        simpa only [Function.comp_def, hprepare, hprepare'] using hchange
      rw [contributedFrom, contributedFrom, haccess]
      cases m'.accessibility? p'.context sect with
      | none => exact ih sect
      | some accessibility =>
        rw [List.map_cons, List.map_cons, ih sect, MethodDefinition.mapSpans,
          MethodDefinition.mapSpans, hoverloads, name, hname, span]
    | @attr a a' kind name side visibility span type =>
      have haccessors := accessors_sameReading hreads hreads' hprepare hprepare'
        (.attr kind name side visibility span type)
      rw [contributedFrom, contributedFrom, List.map_append, List.map_append, ih sect, hcontext,
        side]
      refine congrArg (· ++ _) ?_
      split
      · rw [mapSpans_accessorMethods, mapSpans_accessorMethods, haccessors, hname, visibility, span]
      · rfl
    | marker visibility =>
      rw [contributedFrom, contributedFrom, visibility]
      exact ih _
    | methodAlias _ _ _ _ | mixin _ _ _ | typedVar _ _ | nested _ _ =>
      rw [contributedFrom, contributedFrom]
      exact ih sect

end Members

variable {σ} {env env' : Environment} {e e' : Entry} {p p' : AncestorEntry}

theorem Environment.readsAccessors (env : Environment) (canonical : List String)
    (params : List TypeParam) (nesting : Nesting) :
    ReadsAccessors σ (env.reading canonical params nesting)
      (env.readingMethod canonical params nesting) :=
  AttributeMember.readingMethod_accessors σ env canonical params nesting

/-- Entities that mean the same add the same methods and accessors, up to spans. -/
theorem Entry.SameReading.contributed (h : e.SameReading σ env env' e')
    (hp : p.mapSpans σ = p'.mapSpans σ) :
    (RubySig.contributed env p e).map (MethodDefinition.mapSpans σ) =
      (RubySig.contributed env' p' e').map (MethodDefinition.mapSpans σ) := by
  obtain ⟨hname, hcontext, hsubst, -⟩ := AncestorEntry.mk.inj hp
  rw [RubySig.contributed, RubySig.contributed, List.map_flatMap, List.map_flatMap]
  refine flatMap_eq_of_forall₂ ?_ h.bodies
  rintro b b' ⟨f, f', rfl, rfl, hf⟩
  refine mapSpans_contributedFrom hname hcontext (env.readsAccessors _ _ _)
    (env'.readsAccessors _ _ _) (fun m => Substitution.mapSpans_applyMethod σ p.substitution _)
    (fun m => ?_) .publicAccess hf.members
  have hnesting : (e'.bodyOf f').nesting = f'.nesting.enter e.name.toNamespace := by
    rw [h.name]
    rfl
  rw [prepareOverload, ← h.params, hnesting, Substitution.mapSpans_applyMethod, ← hsubst]
  rfl

/-- Entities that mean the same add the same aliases, up to spans. -/
theorem Entry.SameReading.contributedAliases (h : e.SameReading σ env env' e')
    (hcontext : p.context = p'.context) :
    (RubySig.contributedAliases p e).map (AliasMember.mapSpan σ) =
      (RubySig.contributedAliases p' e').map (AliasMember.mapSpan σ) := by
  rw [RubySig.contributedAliases, RubySig.contributedAliases, List.map_flatMap, List.map_flatMap]
  refine flatMap_eq_of_forall₂ ?_ h.bodies
  rintro b b' ⟨f, f', rfl, rfl, hf⟩
  rw [List.map_filterMap, List.map_filterMap]
  refine filterMap_eq_of_forall₂ (fun m m' hm => ?_) hf.members
  cases hm with
  | methodAlias newName oldName side span =>
    dsimp only
    rw [side, hcontext]
    split
    · rw [Option.map_some, Option.map_some, AliasMember.mapSpan, AliasMember.mapSpan, newName,
        oldName, side, span]
    · rfl
  | _ => rfl

/-! ## Definitions -/

namespace Environment.SameReading

variable (h : env.SameReading σ env')
include h

theorem overlay {t t' : MethodTable} (ht : t.mapSpans σ = t'.mapSpans σ)
    (hp : p.mapSpans σ = p'.mapSpans σ) :
    (MethodTable.overlay env t p).mapSpans σ = (MethodTable.overlay env' t' p').mapSpans σ := by
  obtain ⟨hname, hcontext, -, -⟩ := AncestorEntry.mk.inj hp
  rw [MethodTable.overlay, MethodTable.overlay, ← hname]
  rcases rel_cases (h p.name) with ⟨hget, hget'⟩ | ⟨e, e', hget, hget', hsame⟩
  · rw [hget, hget']
    exact ht
  · rw [hget, hget']
    dsimp only
    rw [MethodTable.mapSpans_foldl_addAlias, MethodTable.mapSpans_foldl_addAlias,
      MethodTable.mapSpans_foldl_define, MethodTable.mapSpans_foldl_define, ht,
      hsame.contributed hp, hsame.contributedAliases hcontext]

/-- Chains that are the same up to spans have tables that are the same up to spans. -/
theorem ofEntries {entries entries' : List AncestorEntry}
    (hentries : entries.map (AncestorEntry.mapSpans σ) = entries'.map (AncestorEntry.mapSpans σ)) :
    (MethodTable.ofEntries env entries).mapSpans σ =
      (MethodTable.ofEntries env' entries').mapSpans σ := by
  have hfold : ∀ (ps ps' : List AncestorEntry) (t t' : MethodTable),
      t.mapSpans σ = t'.mapSpans σ →
      ps.map (AncestorEntry.mapSpans σ) = ps'.map (AncestorEntry.mapSpans σ) →
      (ps.foldl (MethodTable.overlay env) t).mapSpans σ =
        (ps'.foldl (MethodTable.overlay env') t').mapSpans σ := by
    intro ps
    induction ps with
    | nil =>
      intro ps' t t' ht hps
      rw [List.map_eq_nil_iff.1 hps.symm]
      exact ht
    | cons p rest ih =>
      intro ps' t t' ht hps
      obtain ⟨p', rest', rfl, hp, hrest⟩ := List.map_eq_cons_iff.1 hps.symm
      exact ih rest' _ _ (h.overlay ht hp.symm) hrest.symm
  rw [MethodTable.ofEntries, MethodTable.ofEntries]
  refine hfold _ _ _ _ rfl ?_
  rw [List.map_reverse, List.map_reverse, hentries]

theorem definitionOf {chain chain' : Chain} (hchain : chain.mapSpans σ = chain'.mapSpans σ) :
    (env.definitionOf chain).mapSpans σ = (env'.definitionOf chain').mapSpans σ := by
  have htable := h.ofEntries (congrArg Chain.entries hchain)
  have hmethods := congrArg MethodTable.sorted htable
  have hmissing := congrArg MethodTable.missing htable
  obtain ⟨hname, hcontext, -⟩ := Chain.mk.inj hchain
  rw [MethodTable.mapSpans_sorted, MethodTable.mapSpans_sorted] at hmethods
  rw [Environment.definitionOf, Environment.definitionOf, Definition.mapSpans, Definition.mapSpans]
  dsimp only
  rw [hname, hcontext, hchain, hmethods]
  exact congrArg (Definition.mk _ _ _ _) hmissing

/-- In environments whose entities mean the same, every definition is the same, up to spans. -/
theorem definition (key : ChainKey) :
    mapAnswer σ (Definition.mapSpans σ) (env.definition key) =
      mapAnswer σ (Definition.mapSpans σ) (env'.definition key) := by
  have hchain := h.sameSites.ancestors key
  rw [Environment.definition, Environment.definition]
  cases hc : env.ancestors key with
  | error failure =>
    cases hc' : env'.ancestors key with
    | error failure' =>
      rw [hc, hc'] at hchain
      exact congrArg Except.error (Except.error.inj hchain)
    | ok chain' => rw [hc, hc'] at hchain; cases hchain
  | ok chain =>
    cases hc' : env'.ancestors key with
    | error failure' => rw [hc, hc'] at hchain; cases hchain
    | ok chain' =>
      rw [hc, hc'] at hchain
      exact congrArg Except.ok (h.definitionOf (Except.ok.inj hchain))

end Environment.SameReading

end Spans

/-! ## The same spans -/

theorem Definition.mapSpans_id (d : Definition) : d.mapSpans id = d := by
  have hmethod : MethodDefinition.mapSpans id = id := funext fun m => by
    rw [MethodDefinition.mapSpans, funext MethodType.mapSpans_id, List.map_id']
    rfl
  rw [mapSpans, Chain.mapSpans_id, hmethod, List.map_id]
  exact congrArg (Definition.mk _ _ _ _) (List.map_id d.missingAliases)

namespace Environment.SameReading

variable {env env' : Environment} (h : env.SameReading id env')
include h

theorem ancestors_eq (key : ChainKey) : env.ancestors key = env'.ancestors key := by
  have hsame := h.sameSites.ancestors key
  rwa [mapAnswer_id Chain.mapSpans_id, mapAnswer_id Chain.mapSpans_id] at hsame

theorem definition_eq (key : ChainKey) : env.definition key = env'.definition key := by
  have hsame := h.definition key
  rwa [mapAnswer_id Definition.mapSpans_id, mapAnswer_id Definition.mapSpans_id] at hsame

end Environment.SameReading

end RubySig
