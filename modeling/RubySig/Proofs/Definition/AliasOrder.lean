import Mathlib.Data.String.Basic
import RubySig.Proofs.Definition.Lookup
import RubySig.Proofs.Definition.WithoutAliases

/-!
# The order of aliases

The aliases of an entity are applied one after the other to the table as it stands, so their order
counts: an alias for the new name of another one finds it only if it comes later.  This is the only
way in which the order counts.  If the aliases of an entity are written in another order, and any
two of which one stands for the other's new name keep theirs, every definition stays the same.

* `MethodTable.Alike`: tables with the same methods and the same missing aliases.
* `MethodTable.addAlias_comm`: two aliases that do not name each other can be exchanged.
* `MethodTable.Alike.foldl_addAlias`: an order of aliases that keeps those that name each other.
* `Environment.AliasesPermuted`, `Environment.AliasesReordered`: environments that differ in the
  order of an entity's aliases, and in which aliases that name each other keep theirs.
* `Environment.AliasesReordered.definition_alike`: the result.
* `alias_order_matters`: other orders can give other definitions.
-/

namespace RubySig

/-! ## Tables with the same methods -/

namespace MethodTable

/-- Two tables give the same method to every name, and the same aliases are missing. -/
structure Alike (t t' : MethodTable) : Prop where
  methods : ∀ n, t.methods.get? n = t'.methods.get? n
  missing : t.missing.Perm t'.missing

namespace Alike

variable {t t' t'' : MethodTable} {owner : TypeName}

@[refl] theorem refl (t : MethodTable) : t.Alike t := ⟨fun _ => rfl, .refl _⟩

theorem trans (h : t.Alike t') (h' : t'.Alike t'') : t.Alike t'' :=
  ⟨fun n => (h.methods n).trans (h'.methods n), h.missing.trans h'.missing⟩

theorem define (h : t.Alike t') (d : MethodDefinition) : (t.define d).Alike (t'.define d) := by
  refine ⟨fun n => ?_, h.missing⟩
  simp [get?_define, h.methods n]

theorem addAlias (h : t.Alike t') (a : AliasMember) :
    (MethodTable.addAlias owner t a).Alike (MethodTable.addAlias owner t' a) := by
  have hold := h.methods a.oldName
  cases htarget : t'.methods.get? a.oldName with
  | none =>
    simp only [MethodTable.addAlias, hold, htarget]
    exact ⟨h.methods, h.missing.append_right _⟩
  | some target =>
    simp only [MethodTable.addAlias, hold, htarget]
    exact h.define _

theorem foldl_define (h : t.Alike t') (ds : List MethodDefinition) :
    (ds.foldl MethodTable.define t).Alike (ds.foldl MethodTable.define t') := by
  induction ds generalizing t t' with
  | nil => exact h
  | cons d rest ih => exact ih (h.define d)

theorem foldl_addAlias_same (h : t.Alike t') (as : List AliasMember) :
    (as.foldl (MethodTable.addAlias owner) t).Alike (as.foldl (MethodTable.addAlias owner) t') := by
  induction as generalizing t t' with
  | nil => exact h
  | cons a rest ih => exact ih (h.addAlias a)

end Alike

end MethodTable

/-! ## Exchanging aliases -/

/-- An alias stands for the new name of another one of its side. -/
def AliasMember.Names (a b : AliasMember) : Prop :=
  a.singleton = b.singleton ∧ a.oldName = b.newName

/-- Neither of two aliases stands for the other's new name, and the new names differ. -/
structure AliasMember.Apart (a b : AliasMember) : Prop where
  left : a.oldName ≠ b.newName
  right : b.oldName ≠ a.newName
  newName : a.newName ≠ b.newName

namespace MethodTable

variable {t t' : MethodTable} {owner : TypeName} {a b : AliasMember}

/-- What an alias looks up is not changed by another one for a different name. -/
theorem get?_addAlias_of_ne {n : String} (h : n ≠ a.newName) :
    (addAlias owner t a).methods.get? n = t.methods.get? n :=
  get?_addAlias_of_not fun hn => absurd hn.symm h

/-- Two aliases that do not name each other can be exchanged. -/
theorem addAlias_comm (h : a.Apart b) (t : MethodTable) :
    (addAlias owner (addAlias owner t a) b).Alike (addAlias owner (addAlias owner t b) a) := by
  have hb : (addAlias owner t a).methods.get? b.oldName = t.methods.get? b.oldName :=
    get?_addAlias_of_ne h.right
  have ha : (addAlias owner t b).methods.get? a.oldName = t.methods.get? a.oldName :=
    get?_addAlias_of_ne h.left
  rw [addAlias.eq_def owner (addAlias owner t a), addAlias.eq_def owner (addAlias owner t b), ha,
    hb]
  cases hold : t.methods.get? a.oldName with
  | none =>
    cases hold' : t.methods.get? b.oldName with
    | none =>
      simp only [addAlias, hold, hold']
      refine ⟨fun _ => rfl, ?_⟩
      simpa using (List.Perm.swap _ _ []).append_left t.missing
    | some target' =>
      simp only [addAlias, hold, hold']
      exact .refl _
  | some target =>
    cases hold' : t.methods.get? b.oldName with
    | none =>
      simp only [addAlias, hold, hold']
      exact .refl _
    | some target' =>
      simp only [addAlias, hold, hold']
      refine ⟨fun n => ?_, .refl _⟩
      simp only [get?_define]
      by_cases hna : n = a.newName
      · simp [hna, h.newName]
      · simp [hna]

/-- An alias can be moved in front of others that it is apart from. -/
theorem foldl_addAlias_to_front {front : List AliasMember} (h : ∀ b ∈ front, b.Apart a)
    (back : List AliasMember) (t : MethodTable) :
    ((front ++ a :: back).foldl (addAlias owner) t).Alike
      ((a :: (front ++ back)).foldl (addAlias owner) t) := by
  induction front generalizing t with
  | nil => exact .refl _
  | cons b rest ih =>
    obtain ⟨hb, hrest⟩ := List.forall_mem_cons.1 h
    refine (ih hrest (addAlias owner t b)).trans ?_
    exact (addAlias_comm hb t).foldl_addAlias_same (rest ++ back)

end MethodTable

/-! ## Orders that keep aliases that name each other -/

/-- Any two aliases of which one stands for the other's new name come in the same order. -/
def AliasMember.KeepsOrder (as as' : List AliasMember) : Prop :=
  ∀ a b, a.Names b ∨ b.Names a → [a, b].Sublist as → [a, b].Sublist as'

section Lists

variable {as front back : List AliasMember} {a b : AliasMember}

/-- In a list without repetition nothing stands both in front of an element and behind it. -/
theorem not_sublist_of_mem_front (hnodup : (front ++ a :: back).Nodup) (hb : b ∈ front) :
    ¬ [a, b].Sublist (front ++ a :: back) := by
  obtain ⟨-, -, hdisjoint⟩ := List.nodup_append.1 hnodup
  intro hsub
  obtain ⟨left, right, hsplit, hleft, hright⟩ := List.sublist_append_iff.1 hsub
  cases left with
  | nil =>
    rw [List.nil_append] at hsplit
    subst hsplit
    exact hdisjoint b hb b (hright.subset (by simp)) rfl
  | cons x rest =>
    obtain ⟨rfl, -⟩ := List.cons.inj hsplit
    exact hdisjoint a (hleft.subset List.mem_cons_self) a List.mem_cons_self rfl

/-- A sublist without an element is a sublist of the rest. -/
theorem sublist_of_not_mem (ha : a ∉ as) (h : as.Sublist (front ++ a :: back)) :
    as.Sublist (front ++ back) := by
  obtain ⟨left, right, rfl, hleft, hright⟩ := List.sublist_append_iff.1 h
  refine hleft.append ?_
  cases hright with
  | cons _ hright => exact hright
  | cons_cons _ _ => exact absurd (List.mem_append_right left List.mem_cons_self) ha

end Lists

/-- Aliases of one side with different new names give the same table in any order that keeps those
that name each other. -/
theorem MethodTable.Alike.foldl_addAlias {owner : TypeName} {side : Bool}
    {as as' : List AliasMember} (hperm : as.Perm as') (hside : ∀ a ∈ as, a.singleton = side)
    (hdistinct : (as.map (·.newName)).Nodup)
    (hkept : AliasMember.KeepsOrder as as') {t t' : MethodTable} (h : t.Alike t') :
    (as.foldl (MethodTable.addAlias owner) t).Alike
      (as'.foldl (MethodTable.addAlias owner) t') := by
  -- The first alias is moved to the front of the other order, in which only aliases that it is
  -- apart from can come before it.
  induction as generalizing as' t t' with
  | nil =>
    rw [← hperm.nil_eq]
    exact h
  | cons a rest ih =>
    obtain ⟨front, back, rfl⟩ := List.append_of_mem (hperm.subset List.mem_cons_self)
    have hnodup : (a :: rest).Nodup :=
      List.Pairwise.of_map _ (fun _ _ hne heq => hne (congrArg _ heq)) hdistinct
    have hnodup' : (front ++ a :: back).Nodup := hperm.nodup hnodup
    have hrest : rest.Perm (front ++ back) :=
      (hperm.trans List.perm_middle).cons_inv
    obtain ⟨ha, hdistinctRest⟩ := List.nodup_cons.1 hdistinct
    have hfront : ∀ b ∈ front, b.Apart a := by
      intro b hb
      have hmem : b ∈ rest := hrest.symm.subset (List.mem_append_left back hb)
      have hsub : [a, b].Sublist (a :: rest) := (List.singleton_sublist.2 hmem).cons_cons a
      have hnames : ¬ (a.Names b ∨ b.Names a) := fun hnames =>
        not_sublist_of_mem_front hnodup' hb (hkept a b hnames hsub)
      have hsides : a.singleton = b.singleton :=
        (hside a List.mem_cons_self).trans (hside b (List.mem_cons_of_mem a hmem)).symm
      refine ⟨fun hba => hnames (Or.inr ⟨hsides.symm, hba⟩),
        fun hab => hnames (Or.inl ⟨hsides, hab⟩), fun heq => ?_⟩
      exact ha (List.mem_map.2 ⟨b, hmem, heq⟩)
    have hkeptRest : AliasMember.KeepsOrder rest (front ++ back) := by
      intro x y hnames hsub
      refine sublist_of_not_mem ?_ (hkept x y hnames (hsub.cons a))
      intro hmem
      exact (List.nodup_cons.1 hnodup).1 (hsub.subset hmem)
    have hfirst : (MethodTable.addAlias owner t a).Alike (MethodTable.addAlias owner t' a) :=
      h.addAlias a
    have htail := ih hrest (fun b hb => hside b (List.mem_cons_of_mem a hb)) hdistinctRest
      hkeptRest hfirst
    exact htail.trans
      { methods := fun n => ((foldl_addAlias_to_front hfront back t').methods n).symm
        missing := (foldl_addAlias_to_front hfront back t').missing.symm }

/-! ## Sorted tables -/

namespace MethodTable

/-- No name is repeated in a table, and each method is found under its own name. -/
structure Keyed (t : MethodTable) : Prop where
  nodup : t.methods.keys.Nodup
  name : ∀ {n : String} {m : MethodDefinition}, t.methods.get? n = some m → m.name = n

theorem ofEntries_nil (env : Environment) : ofEntries env [] = empty := rfl

theorem keyed_ofEntries (env : Environment) (entries : List AncestorEntry) :
    (ofEntries env entries).Keyed :=
  ⟨nodup_keys_ofEntries env entries, name_of_get?⟩

variable {t t' : MethodTable}

theorem Keyed.mapSpans (h : t.Keyed) (σ : Span → Span) : (t.mapSpans σ).Keyed := by
  refine ⟨(OrderedMap.keys_mapValues _ _).symm ▸ h.nodup, fun {n m} hm => ?_⟩
  rw [MethodTable.mapSpans, OrderedMap.get?_mapValues] at hm
  obtain ⟨m', hm', rfl⟩ := Option.map_eq_some_iff.1 hm
  show m'.name = n
  exact h.name hm'

theorem Keyed.nodup_pairs (h : t.Keyed) : t.methods.pairs.Nodup :=
  List.Pairwise.of_map _ (fun _ _ hne heq => hne (congrArg _ heq)) h.nodup

theorem Keyed.mem_pairs_iff (h : t.Keyed) (p : String × MethodDefinition) :
    p ∈ t.methods.pairs ↔ t.methods.get? p.1 = some p.2 :=
  ⟨OrderedMap.get?_of_mem_pairs h.nodup, OrderedMap.mem_pairs_of_get?⟩

theorem Keyed.mem_values_iff (h : t.Keyed) (m : MethodDefinition) :
    m ∈ t.methods.values ↔ t.methods.get? m.name = some m := by
  refine ⟨fun hm => ?_, OrderedMap.mem_values_of_get?⟩
  obtain ⟨p, hp, rfl⟩ := List.mem_map.1 hm
  have hget := (h.mem_pairs_iff p).1 hp
  rwa [h.name hget]

/-- The methods of a table, sorted by name, do not depend on the order in which they are written. -/
theorem Alike.sorted_eq (h : t.Alike t') (ht : t.Keyed) (ht' : t'.Keyed) :
    t.sorted = t'.sorted := by
  have hpairs : t.methods.pairs.Perm t'.methods.pairs := by
    refine (List.perm_ext_iff_of_nodup ht.nodup_pairs ht'.nodup_pairs).2 fun p => ?_
    rw [ht.mem_pairs_iff, ht'.mem_pairs_iff, h.methods]
  have hperm : t.sorted.Perm t'.sorted :=
    (List.mergeSort_perm _ _).trans ((hpairs.map _).trans (List.mergeSort_perm _ _).symm)
  have hsorted : ∀ t : MethodTable, t.sorted.Pairwise fun a b => a.name ≤ b.name := by
    intro t
    have hpairwise : t.sorted.Pairwise fun a b => decide (a.name ≤ b.name) = true := by
      refine List.pairwise_mergeSort (fun a b c hab hbc => ?_) (fun a b => ?_) t.methods.values
      · have htrans : a.name ≤ c.name := (of_decide_eq_true hab).trans (of_decide_eq_true hbc)
        exact decide_eq_true htrans
      · simpa using le_total a.name b.name
    simpa using hpairwise
  refine hperm.eq_of_pairwise (fun a b ha hb hab hba => ?_) (hsorted t) (hsorted t')
  have hname : a.name = b.name := le_antisymm hab hba
  have hgeta := (ht.mem_values_iff a).1 ((List.mergeSort_perm _ _).subset ha)
  have hgetb := (ht'.mem_values_iff b).1 ((List.mergeSort_perm _ _).subset hb)
  rw [← hname, ← h.methods, hgeta] at hgetb
  exact Option.some.inj hgetb

end MethodTable

/-! ## Environments with other orders -/

section Spans

variable (σ : Span → Span)

/-- The aliases of two entities are the same up to their order and spans, and the new names of a
side differ. -/
structure Entry.AliasesPermuted (e e' : Entry) : Prop where
  perm : (e.aliases.map (AliasMember.mapSpan σ)).Perm (e'.aliases.map (AliasMember.mapSpan σ))
  distinct : ∀ side, ((e.aliases.filter fun a => a.singleton = side).map (·.newName)).Nodup

/-- Two environments are the same up to spans, except for the order of the aliases of one entity. -/
structure Environment.AliasesPermuted (name : TypeName) (env env' : Environment) : Prop where
  rest : env.withoutAliases.SameReading σ env'.withoutAliases
  others : ∀ {other e e'}, other ≠ name → env.get? other = some e → env'.get? other = some e' →
    e.aliases.map (AliasMember.mapSpan σ) = e'.aliases.map (AliasMember.mapSpan σ)
  permuted : ∀ {e e'}, env.get? name = some e → env'.get? name = some e' →
    e.AliasesPermuted σ e'

/-- Two environments are the same up to spans, except for the order of the aliases of one entity,
and there aliases that name each other keep their order. -/
structure Environment.AliasesReordered (name : TypeName) (env env' : Environment) : Prop extends
    Environment.AliasesPermuted σ name env env' where
  kept : ∀ {e e'}, env.get? name = some e → env'.get? name = some e' →
    AliasMember.KeepsOrder (e.aliases.map (AliasMember.mapSpan σ))
      (e'.aliases.map (AliasMember.mapSpan σ))

/-- Two definitions are the same up to spans, and the same aliases are missing. -/
structure Definition.Alike (d d' : Definition) : Prop where
  name : d.name = d'.name
  context : d.context = d'.context
  ancestors : d.ancestors.mapSpans σ = d'.ancestors.mapSpans σ
  methods : d.methods.map (MethodDefinition.mapSpans σ) =
    d'.methods.map (MethodDefinition.mapSpans σ)
  missing : (d.missingAliases.map (MissingAlias.mapSpan σ)).Perm
    (d'.missingAliases.map (MissingAlias.mapSpan σ))

variable {σ} {name : TypeName} {env env' : Environment}

theorem Definition.Alike.names_eq {d d' : Definition} (h : d.Alike σ d') : d.names = d'.names := by
  have hnames := congrArg (List.map (·.name)) h.methods
  simpa [Function.comp_def, MethodDefinition.mapSpans, Definition.names] using hnames

theorem contributedAliases_mapSpan (p : AncestorEntry) (e : Entry) :
    (contributedAliases p e).map (AliasMember.mapSpan σ) =
      (e.aliases.map (AliasMember.mapSpan σ)).filter fun a =>
        a.singleton = p.context.isSingleton := by
  rw [contributedAliases_eq, List.filter_map]
  rfl

namespace Environment.AliasesReordered

variable (h : env.AliasesReordered σ name env')
include h

theorem get?_rel (other : TypeName) :
    (env.get? other = none ∧ env'.get? other = none) ∨
      ∃ e e', env.get? other = some e ∧ env'.get? other = some e' ∧
        e.withoutAliases.SameReading σ env.withoutAliases env'.withoutAliases
          e'.withoutAliases := by
  have hrest := rel_cases (h.rest other)
  rw [get?_withoutAliases, get?_withoutAliases] at hrest
  rcases hrest with ⟨hnone, hnone'⟩ | ⟨f, f', hf, hf', hsame⟩
  · exact Or.inl ⟨Option.map_eq_none_iff.1 hnone, Option.map_eq_none_iff.1 hnone'⟩
  · obtain ⟨e, he, rfl⟩ := Option.map_eq_some_iff.1 hf
    obtain ⟨e', he', rfl⟩ := Option.map_eq_some_iff.1 hf'
    exact Or.inr ⟨e, e', he, he', hsame⟩

/-- The aliases of an ancestor give the same table in both orders. -/
theorem foldl_addAlias {p p' : AncestorEntry} {e e' : Entry} (hcontext : p.context = p'.context)
    (he : env.get? p.name = some e) (he' : env'.get? p.name = some e') {t t' : MethodTable}
    (ht : t.Alike t') :
    (((contributedAliases p e).map (AliasMember.mapSpan σ)).foldl
        (MethodTable.addAlias p.name) t).Alike
      (((contributedAliases p' e').map (AliasMember.mapSpan σ)).foldl
        (MethodTable.addAlias p.name) t') := by
  rw [contributedAliases_mapSpan, contributedAliases_mapSpan, ← hcontext]
  by_cases hname : p.name = name
  · obtain ⟨hperm, hdistinct⟩ := h.permuted (hname ▸ he) (hname ▸ he')
    have hkept := h.kept (hname ▸ he) (hname ▸ he')
    have hsides : ∀ a ∈ (e.aliases.map (AliasMember.mapSpan σ)).filter
        fun a => decide (a.singleton = p.context.isSingleton),
          a.singleton = p.context.isSingleton := by simp
    refine ht.foldl_addAlias (hperm.filter _) hsides ?_ ?_
    · have hside := hdistinct p.context.isSingleton
      rw [List.filter_map, List.map_map]
      exact hside
    · intro a b hnames hsub
      have hmem : ∀ x ∈ [a, b], decide (x.singleton = p.context.isSingleton) = true :=
        fun x hx => (List.mem_filter.1 (hsub.subset hx)).2
      have hfilter := (hkept a b hnames (hsub.trans (List.filter_sublist))).filter
        fun x => decide (x.singleton = p.context.isSingleton)
      rwa [List.filter_eq_self.2 hmem] at hfilter
  · rw [h.others hname he he']
    exact ht.foldl_addAlias_same _

theorem overlay {p p' : AncestorEntry} (hp : p.mapSpans σ = p'.mapSpans σ) {t t' : MethodTable}
    (ht : (t.mapSpans σ).Alike (t'.mapSpans σ)) :
    ((MethodTable.overlay env t p).mapSpans σ).Alike
      ((MethodTable.overlay env' t' p').mapSpans σ) := by
  obtain ⟨hname, hcontext, -, -⟩ := AncestorEntry.mk.inj hp
  rw [MethodTable.overlay, MethodTable.overlay, ← hname]
  rcases h.get?_rel p.name with ⟨hget, hget'⟩ | ⟨e, e', hget, hget', hsame⟩
  · rw [hget, hget']
    exact ht
  · have hcontributed := hsame.contributed hp
    rw [contributed_withoutAliases, contributed_withoutAliases] at hcontributed
    rw [hget, hget']
    dsimp only
    rw [MethodTable.mapSpans_foldl_addAlias, MethodTable.mapSpans_foldl_addAlias,
      MethodTable.mapSpans_foldl_define, MethodTable.mapSpans_foldl_define, hcontributed]
    exact h.foldl_addAlias hcontext hget hget' (ht.foldl_define _)

theorem ofEntries {entries entries' : List AncestorEntry}
    (hentries : entries.map (AncestorEntry.mapSpans σ) = entries'.map (AncestorEntry.mapSpans σ)) :
    ((MethodTable.ofEntries env entries).mapSpans σ).Alike
      ((MethodTable.ofEntries env' entries').mapSpans σ) := by
  induction entries generalizing entries' with
  | nil =>
    rw [List.map_eq_nil_iff.1 hentries.symm, MethodTable.ofEntries_nil, MethodTable.ofEntries_nil]
  | cons p rest ih =>
    obtain ⟨p', rest', rfl, hp, hrest⟩ := List.map_eq_cons_iff.1 hentries.symm
    rw [MethodTable.ofEntries_cons, MethodTable.ofEntries_cons]
    exact h.overlay hp.symm (ih hrest.symm)

theorem definitionOf {chain chain' : Chain} (hchain : chain.mapSpans σ = chain'.mapSpans σ) :
    (env.definitionOf chain).Alike σ (env'.definitionOf chain') := by
  have htable := h.ofEntries (congrArg Chain.entries hchain)
  have hmethods := htable.sorted_eq ((MethodTable.keyed_ofEntries env _).mapSpans σ)
    ((MethodTable.keyed_ofEntries env' _).mapSpans σ)
  rw [MethodTable.mapSpans_sorted, MethodTable.mapSpans_sorted] at hmethods
  obtain ⟨hname, hcontext, -⟩ := Chain.mk.inj hchain
  exact ⟨hname, hcontext, hchain, hmethods, htable.missing⟩

/-- The definitions of all entities stay the same when the aliases of an entity are written in
another order that keeps those that name each other. -/
theorem definition_alike (key : ChainKey) :
    (∃ d d', env.definition key = .ok d ∧ env'.definition key = .ok d' ∧ d.Alike σ d') ∨
      ∃ failure failure', env.definition key = .error failure ∧
        env'.definition key = .error failure' ∧ failure.mapSpans σ = failure'.mapSpans σ := by
  have hchain := h.rest.sameSites.ancestors key
  rw [ancestors_withoutAliases, ancestors_withoutAliases] at hchain
  rw [Environment.definition, Environment.definition]
  cases hc : env.ancestors key with
  | error failure =>
    cases hc' : env'.ancestors key with
    | error failure' =>
      rw [hc, hc'] at hchain
      exact Or.inr ⟨failure, failure', rfl, rfl, Except.error.inj hchain⟩
    | ok chain' => rw [hc, hc'] at hchain; cases hchain
  | ok chain =>
    cases hc' : env'.ancestors key with
    | error failure' => rw [hc, hc'] at hchain; cases hchain
    | ok chain' =>
      rw [hc, hc'] at hchain
      exact Or.inl ⟨_, _, rfl, rfl, h.definitionOf (Except.ok.inj hchain)⟩

end Environment.AliasesReordered

end Spans

/-! ## A class with aliases -/

/-- The instance alias of a method. -/
def aliasTo (new old : String) : AliasMember := ⟨new, old, false, default⟩

/-- The class `::A`, which has a method `a` and then some aliases. -/
def aliasedEntry (aliases : List AliasMember) : Entry :=
  ⟨.topLevel "A", ⟨.klass ⟨.bare "A", [], none,
    .method ⟨"a", .onInstance, [⟨[], .returning (.special .void), none, default⟩], none,
      default⟩ :: aliases.map .methodAlias, default, default⟩, .topLevel, default⟩, []⟩

/-- The environment that has this class only. -/
def aliasedEnv (aliases : List AliasMember) : Environment :=
  ⟨⟨[(.topLevel "A", aliasedEntry aliases)]⟩, .empty⟩

theorem get?_aliasedEnv {aliases : List AliasMember} {name : TypeName} {e : Entry}
    (h : (aliasedEnv aliases).get? name = some e) :
    name = .topLevel "A" ∧ e = aliasedEntry aliases := by
  obtain ⟨hname, he⟩ := Prod.mk.inj (List.mem_singleton.1 (OrderedMap.mem_pairs_of_get? h))
  exact ⟨hname, he⟩

theorem withoutAliases_aliasedEnv (aliases : List AliasMember) :
    (aliasedEnv aliases).withoutAliases = aliasedEnv [] := by
  simp [Environment.withoutAliases, OrderedMap.mapValues, aliasedEnv, aliasedEntry,
    Entry.withoutAliases, Fragment.withoutAliases, EntityDecl.withoutAliases, Member.isAlias]

theorem aliases_aliasedEntry (aliases : List AliasMember) :
    (aliasedEntry aliases).aliases = aliases := by
  have hmap : (aliases.map Member.methodAlias).filterMap Member.alias? = aliases := by
    simp [List.filterMap_map, Function.comp_def, Member.alias?]
  show List.flatMap (fun b => b.members.filterMap Member.alias?)
    [(aliasedEntry aliases).bodyOf (aliasedEntry aliases).primary] = aliases
  rw [List.flatMap_singleton]
  exact (List.filterMap_cons_none rfl).trans hmap

/-- Other orders of the same aliases. -/
theorem aliasesPermuted_aliasedEnv {aliases aliases' : List AliasMember}
    (hperm : aliases.Perm aliases')
    (hdistinct : ∀ side, ((aliases.filter fun a => a.singleton = side).map (·.newName)).Nodup) :
    (aliasedEnv aliases).AliasesPermuted id (.topLevel "A") (aliasedEnv aliases') := by
  refine ⟨?_, fun {other e e'} hother he he' => ?_, fun {e e'} he he' => ?_⟩
  · rw [withoutAliases_aliasedEnv, withoutAliases_aliasedEnv]
    intro name
    cases (aliasedEnv []).get? name with
    | none => exact .none
    | some e => exact .some (.refl id (fun _ => rfl) e)
  · exact absurd (get?_aliasedEnv he).1 hother
  · obtain ⟨-, rfl⟩ := get?_aliasedEnv he
    obtain ⟨-, rfl⟩ := get?_aliasedEnv he'
    rw [← aliases_aliasedEntry aliases] at hdistinct
    refine ⟨?_, hdistinct⟩
    rw [aliases_aliasedEntry, aliases_aliasedEntry]
    exact hperm.map _

/-- An alias for the new name of another one stands for nothing if it comes first, although the new
names differ from each other and from the method. -/
theorem alias_order_matters : ∃ (e e' : Entry) (env env' : Environment) (d d' : Definition),
    env.AliasesPermuted id (.topLevel "A") env' ∧
    env.get? (.topLevel "A") = some e ∧ env'.get? (.topLevel "A") = some e' ∧
    (∀ context, ∀ a ∈ contributedAliases (ownEntry e context) e,
      ∀ m ∈ contributed env (ownEntry e context) e, m.name ≠ a.newName) ∧
    env.definition (instanceSide "A") = .ok d ∧ env'.definition (instanceSide "A") = .ok d' ∧
    ¬ d.Alike id d' := by
  let ordered := [aliasTo "b" "a", aliasTo "c" "b"]
  let swapped := [aliasTo "c" "b", aliasTo "b" "a"]
  have hordered : (aliasedEnv ordered).outline (instanceSide "A") =
      some ([instanceSide "A"], ["a", "b", "c"]) := by decide +kernel
  have hswapped : (aliasedEnv swapped).outline (instanceSide "A") =
      some ([instanceSide "A"], ["a", "b"]) := by decide +kernel
  obtain ⟨d, hd, -, hnames⟩ := (aliasedEnv ordered).definition_of_outline hordered
  obtain ⟨d', hd', -, hfound⟩ := (aliasedEnv swapped).definition_of_outline hswapped
  refine ⟨aliasedEntry ordered, aliasedEntry swapped, aliasedEnv ordered, aliasedEnv swapped, d, d',
    aliasesPermuted_aliasedEnv (.swap _ _ []) (by decide), rfl, rfl, ?_, hd, hd', fun halike => ?_⟩
  · intro context
    cases context <;> decide +kernel
  · have hmem : "c" ∈ d'.names := halike.names_eq ▸ (hnames "c").2 (by decide)
    exact absurd ((hfound "c").1 hmem) (by decide)

/-- An alias for the method can be moved in front of two others of which one names the other. -/
theorem alias_moved_to_front : ∃ (env env' : Environment) (d d' : Definition),
    env.AliasesReordered id (.topLevel "A") env' ∧
    env.definition (instanceSide "A") = .ok d ∧ env'.definition (instanceSide "A") = .ok d' ∧
    d.Alike id d' ∧ "c" ∈ d.names ∧ "d" ∈ d.names := by
  let first := [aliasTo "b" "a", aliasTo "c" "b", aliasTo "d" "a"]
  let second := [aliasTo "d" "a", aliasTo "b" "a", aliasTo "c" "b"]
  have hperm : first.Perm second := List.perm_append_singleton (aliasTo "d" "a") [_, _]
  have hreordered : (aliasedEnv first).AliasesReordered id (.topLevel "A") (aliasedEnv second) := by
    refine { aliasesPermuted_aliasedEnv hperm (by decide) with kept := fun {e e'} he he' => ?_ }
    obtain ⟨-, rfl⟩ := get?_aliasedEnv he
    obtain ⟨-, rfl⟩ := get?_aliasedEnv he'
    rw [aliases_aliasedEntry, aliases_aliasedEntry]
    intro a b hnames hsub
    have hpairs : a = aliasTo "c" "b" ∧ b = aliasTo "d" "a" ∨
        a = aliasTo "b" "a" ∧ (b = aliasTo "d" "a" ∨ b = aliasTo "c" "b") := by
      simpa [first, AliasMember.mapSpan, List.sublist_cons_iff] using hsub
    rcases hpairs with ⟨rfl, rfl⟩ | ⟨rfl, rfl | rfl⟩
    · simp [AliasMember.Names, aliasTo] at hnames
    · simp [AliasMember.Names, aliasTo] at hnames
    · exact List.sublist_cons_self _ _
  have hfirst : (aliasedEnv first).outline (instanceSide "A") =
      some ([instanceSide "A"], ["a", "b", "c", "d"]) := by decide +kernel
  obtain ⟨d, hd, -, hnames⟩ := (aliasedEnv first).definition_of_outline hfirst
  rcases hreordered.definition_alike (instanceSide "A") with
    ⟨c, c', hc, hc', halike⟩ | ⟨failure, failure', hfailure, -⟩
  · obtain rfl := Except.ok.inj (hd.symm.trans hc)
    exact ⟨_, _, d, c', hreordered, hd, hc', halike, (hnames "c").2 (by decide),
      (hnames "d").2 (by decide)⟩
  · rw [hd] at hfailure
    cases hfailure

end RubySig
