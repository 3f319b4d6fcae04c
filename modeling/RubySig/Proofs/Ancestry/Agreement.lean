import RubySig.Proofs.Ancestry.Memo
import RubySig.Proofs.TypeExpr.Spans

/-!
# Environments with the same chains

The chains of an environment depend on the names, kinds and type parameters of its entities, on what
their directives mix in and on their superclasses, and on nothing else.  Two environments that agree
in this have the same chains, and if they agree up to a change of spans, the same chains up to that
change.

* `Chain.mapSpans`, `Failure.mapSpans`, `mapAnswer`: chains, failures and answers with other spans.
* `Entry.SameSites`, `Environment.SameSites`: what two environments have to agree in.
* `Blueprint.mapSpans_assemble`: a change of spans before and after a chain is put together.
* `Environment.SameSites.chain`, `Environment.SameSites.ancestors`: the result.
-/

namespace RubySig

section Spans

variable (σ : Span → Span)

/-! ## Other spans -/

/-- An ancestor whose substitution has other spans. -/
def AncestorEntry.mapSpans (e : AncestorEntry) : AncestorEntry :=
  { e with substitution := e.substitution.mapSpans σ }

/-- A splice whose binding has other spans. -/
def Splice.mapSpans (s : Splice) : Splice := { s with binding := s.binding.mapSpans σ }

/-- A chain with other spans. -/
def Chain.mapSpans (c : Chain) : Chain :=
  { c with entries := c.entries.map (AncestorEntry.mapSpans σ) }

/-- The pieces of a chain with other spans. -/
def Blueprint.mapSpans (b : Blueprint) : Blueprint :=
  ⟨b.front.map (Splice.mapSpans σ), b.own.mapSpans σ, b.behind.map (Splice.mapSpans σ),
    b.tail.map (Splice.mapSpans σ)⟩

/-- A failure with other spans. -/
def Failure.mapSpans : Failure → Failure
  | diagnostic d => diagnostic (d.mapSpan σ)
  | parseFailed batch => parseFailed (batch.map (Diagnostic.mapSpan σ))
  | failure => failure

/-- An answer with other spans in its result or in its failure. -/
def mapAnswer {α : Type} (change : α → α) : Except Failure α → Except Failure α
  | .ok a => .ok (change a)
  | .error failure => .error (failure.mapSpans σ)

/-- A change of spans before and after a function on results. -/
theorem mapAnswer_map {α β : Type} {change : α → α} {change' : β → β} {f : α → β}
    (hf : ∀ a, change' (f a) = f (change a)) (r : Except Failure α) :
    mapAnswer σ change' (r.map f) = (mapAnswer σ change r).map f := by
  cases r with
  | error failure => rfl
  | ok a => exact congrArg Except.ok (hf a)

/-! ## Putting chains together -/

theorem Splice.mapSpans_expand (s : Splice) (c : Chain) :
    (s.expand c).map (AncestorEntry.mapSpans σ) = (s.mapSpans σ).expand (c.mapSpans σ) := by
  rw [expand, expand, Chain.mapSpans, List.map_map, List.map_map]
  refine List.map_congr_left fun e _ => ?_
  exact congrArg (fun substitution => AncestorEntry.mk e.name e.context substitution _)
    (Substitution.mapSpans_compose σ s.binding e.substitution)

theorem mapSpans_dedupeEntries (seen : List ChainKey) (entries : List AncestorEntry) :
    (dedupeEntries seen entries).map (AncestorEntry.mapSpans σ) =
      dedupeEntries seen (entries.map (AncestorEntry.mapSpans σ)) := by
  induction entries generalizing seen with
  | nil => rfl
  | cons e rest ih =>
    have hkey : (e.mapSpans σ).key = e.key := rfl
    rw [List.map_cons, dedupeEntries, dedupeEntries, hkey]
    split
    · exact ih seen
    · rw [List.map_cons, ih]

namespace Blueprint

theorem mapSpans_expandAll (ask : ChainKey → Except Failure Chain) (splices : List Splice) :
    mapAnswer σ (List.map (List.map (AncestorEntry.mapSpans σ))) (expandAll ask splices) =
      expandAll (fun k => mapAnswer σ (Chain.mapSpans σ) (ask k))
        (splices.map (Splice.mapSpans σ)) := by
  induction splices with
  | nil => rfl
  | cons s rest ih =>
    have hkey : (s.mapSpans σ).key = s.key := rfl
    rw [List.map_cons, expandAll, expandAll, ← ih, hkey]
    cases ask s.key with
    | error failure => rfl
    | ok c =>
      cases expandAll ask rest with
      | error failure => rfl
      | ok parts =>
        show Except.ok ((s.expand c).map _ :: _) = Except.ok (_ :: _)
        rw [Splice.mapSpans_expand]

/-- A change of spans before and after a chain is put together. -/
theorem mapSpans_assemble (b : Blueprint) (ask : ChainKey → Except Failure Chain) :
    mapAnswer σ (List.map (AncestorEntry.mapSpans σ)) (b.assemble ask) =
      (b.mapSpans σ).assemble fun k => mapAnswer σ (Chain.mapSpans σ) (ask k) := by
  rw [assemble, assemble, mapSpans, ← mapSpans_expandAll, ← mapSpans_expandAll,
    ← mapSpans_expandAll]
  cases expandAll ask b.front with
  | error failure => rfl
  | ok front =>
    cases expandAll ask b.behind with
    | error failure => rfl
    | ok behind =>
      cases expandAll ask b.tail with
      | error failure => rfl
      | ok tail =>
        refine congrArg Except.ok ((mapSpans_dedupeEntries σ _ _).trans ?_)
        simp only [List.map_append, List.map_cons, List.map_flatten, List.map_reverse]

theorem expandAll_congr {ask ask' : ChainKey → Except Failure Chain} {splices : List Splice}
    (h : ∀ s ∈ splices, ask s.key = ask' s.key) :
    expandAll ask splices = expandAll ask' splices := by
  induction splices with
  | nil => rfl
  | cons s rest ih =>
    obtain ⟨hs, hrest⟩ := List.forall_mem_cons.1 h
    rw [expandAll, expandAll, hs, ih hrest]

/-- Only the chains of the parts are asked for. -/
theorem assemble_congr {b : Blueprint} {ask ask' : ChainKey → Except Failure Chain}
    (h : ∀ k ∈ b.keys, ask k = ask' k) : b.assemble ask = b.assemble ask' := by
  have hpart : ∀ s ∈ b.front ++ b.behind ++ b.tail, ask s.key = ask' s.key :=
    fun s hs => h s.key (List.mem_map_of_mem hs)
  simp only [List.mem_append] at hpart
  rw [assemble, assemble, expandAll_congr fun s hs => hpart s (Or.inl (Or.inl hs)),
    expandAll_congr fun s hs => hpart s (Or.inl (Or.inr hs)),
    expandAll_congr fun s hs => hpart s (Or.inr hs)]

theorem keys_mapSpans (b : Blueprint) : (b.mapSpans σ).keys = b.keys := by
  rw [keys, mapSpans, ← List.map_append, ← List.map_append, List.map_map]
  rfl

end Blueprint

/-! ## What environments agree in -/

/-- The superclass of a class with other spans in its arguments. -/
def mapSuperClass (s : TypeName × List TypeExpr) : TypeName × List TypeExpr :=
  (s.1, s.2.map (TypeExpr.mapSpans σ))

/-- An entity of one environment and an entity of another agree in all that their chains depend on,
up to spans. -/
structure Entry.SameSites (env env' : Environment) (e e' : Entry) : Prop where
  name : e.name = e'.name
  kind : e.kind = e'.kind
  nameSpan : σ e.nameSpan = σ e'.nameSpan
  params : e.paramNames = e'.paramNames
  mixins : ∀ directive, (env.mixinSplices e directive).map (Splice.mapSpans σ) =
    (env'.mixinSplices e' directive).map (Splice.mapSpans σ)
  superClass : (env.superClass? e).map (mapSuperClass σ) =
    (env'.superClass? e').map (mapSuperClass σ)

namespace Entry.SameSites

variable {σ} {env env' : Environment} {e e' : Entry} (h : e.SameSites σ env env' e')
include h

theorem superClass_cases :
    (env.superClass? e = none ∧ env'.superClass? e' = none) ∨
      ∃ name args args', env.superClass? e = some (name, args) ∧
        env'.superClass? e' = some (name, args') ∧
        args.map (TypeExpr.mapSpans σ) = args'.map (TypeExpr.mapSpans σ) := by
  have hsuper := h.superClass
  cases hs : env.superClass? e with
  | none =>
    rw [hs] at hsuper
    exact Or.inl ⟨rfl, Option.map_eq_none_iff.1 hsuper.symm⟩
  | some p =>
    rw [hs] at hsuper
    obtain ⟨p', hs', hp⟩ := Option.map_eq_some_iff.1 hsuper.symm
    obtain ⟨name, args⟩ := p
    obtain ⟨name', args'⟩ := p'
    obtain ⟨rfl, hargs⟩ := Prod.mk.inj hp
    exact Or.inr ⟨name', args, args', rfl, hs', hargs.symm⟩

theorem ownEntry (context : Context) :
    RubySig.ownEntry e context = RubySig.ownEntry e' context := by
  cases context with
  | onInstance => rw [RubySig.ownEntry, RubySig.ownEntry, h.name, h.params]
  | onSingleton => rw [RubySig.ownEntry, RubySig.ownEntry, h.name]

end Entry.SameSites

/-- The entities of two environments agree in all that chains depend on, up to spans. -/
def Environment.SameSites (env env' : Environment) : Prop :=
  ∀ name, Option.Rel (Entry.SameSites σ env env') (env.get? name) (env'.get? name)

/-- What is related is there on both sides or on none. -/
theorem rel_cases {α β : Type} {R : α → β → Prop} {a? : Option α} {b? : Option β}
    (h : Option.Rel R a? b?) :
    (a? = none ∧ b? = none) ∨ ∃ a b, a? = some a ∧ b? = some b ∧ R a b := by
  cases h with
  | none => exact Or.inl ⟨rfl, rfl⟩
  | some hab => exact Or.inr ⟨_, _, rfl, rfl, hab⟩

namespace Environment

variable {env env' : Environment} {R : Entry → Entry → Prop}

theorem kind?_of_rel (hkind : ∀ {e e' : Entry}, R e e' → e.kind = e'.kind)
    (h : ∀ name, Option.Rel R (env.get? name) (env'.get? name)) (name : TypeName) :
    env.kind? name = env'.kind? name := by
  rw [kind?, kind?]
  rcases rel_cases (h name) with ⟨hget, hget'⟩ | ⟨e, e', hget, hget', hsame⟩
  · rw [hget, hget']
  · rw [hget, hget', Option.map_some, Option.map_some, hkind hsame]

theorem names_paramsOf_of_rel (hparams : ∀ {e e' : Entry}, R e e' → e.paramNames = e'.paramNames)
    (h : ∀ name, Option.Rel R (env.get? name) (env'.get? name)) (name : TypeName) :
    typeParamNames (env.paramsOf name) = typeParamNames (env'.paramsOf name) := by
  rw [paramsOf, paramsOf]
  rcases rel_cases (h name) with ⟨hget, hget'⟩ | ⟨e, e', hget, hget', hsame⟩
  · rw [hget, hget']
  · rw [hget, hget']
    exact hparams hsame

/-- Arguments that are the same up to spans are bound alike. -/
theorem mapSpans_bindArgs {target : TypeName} {args args' : List TypeExpr}
    (hparams : typeParamNames (env.paramsOf target) = typeParamNames (env'.paramsOf target))
    (hargs : args.map (TypeExpr.mapSpans σ) = args'.map (TypeExpr.mapSpans σ)) :
    (env.bindArgs target args).mapSpans σ = (env'.bindArgs target args').mapSpans σ := by
  rw [bindArgs, bindArgs, Substitution.mapSpans_bind, Substitution.mapSpans_bind, hargs, hparams]

end Environment

namespace Environment.SameSites

variable {σ} {env env' : Environment} (h : env.SameSites σ env')
include h

theorem kind? (name : TypeName) : env.kind? name = env'.kind? name :=
  kind?_of_rel (fun hsame => hsame.kind) h name

theorem names_paramsOf (name : TypeName) :
    typeParamNames (env.paramsOf name) = typeParamNames (env'.paramsOf name) :=
  names_paramsOf_of_rel (fun hsame => hsame.params) h name

theorem metaclassSplices (name : String) :
    env.metaclassSplices name = env'.metaclassSplices name := by
  rw [Environment.metaclassSplices, Environment.metaclassSplices, isClass, isClass, h.kind?]

theorem superClassSplices {e e' : Entry} (he : e.SameSites σ env env' e') :
    (env.superClassSplices e).map (Splice.mapSpans σ) =
      (env'.superClassSplices e').map (Splice.mapSpans σ) := by
  rw [Environment.superClassSplices, Environment.superClassSplices]
  rcases he.superClass_cases with ⟨hs, hs'⟩ | ⟨name, args, args', hs, hs', hargs⟩
  · rw [hs, hs']
  · rw [hs, hs']
    have hbinding := mapSpans_bindArgs σ (h.names_paramsOf name) hargs
    exact congrArg (fun binding => [Splice.mk _ binding _]) hbinding

theorem singletonSuperSplices {e e' : Entry} (he : e.SameSites σ env env' e') :
    (env.singletonSuperSplices e).map (Splice.mapSpans σ) =
      (env'.singletonSuperSplices e').map (Splice.mapSpans σ) := by
  rw [Environment.singletonSuperSplices, Environment.singletonSuperSplices]
  rcases he.superClass_cases with ⟨hs, hs'⟩ | ⟨name, args, args', hs, hs', hargs⟩
  · rw [hs, hs', h.metaclassSplices]
  · rw [hs, hs']

theorem entryBlueprint {e e' : Entry} (he : e.SameSites σ env env' e') (context : Context) :
    mapAnswer σ (Blueprint.mapSpans σ) (env.entryBlueprint e context) =
      mapAnswer σ (Blueprint.mapSpans σ) (env'.entryBlueprint e' context) := by
  have hown := he.ownEntry
  have hsuper := h.superClassSplices he
  have hsingleton := h.singletonSuperSplices he
  unfold Environment.entryBlueprint
  rw [he.kind]
  cases e'.kind with
  | klass | module | interface =>
    cases context <;>
      simp only [mapAnswer, Blueprint.mapSpans, Failure.mapSpans, Diagnostic.mapSpan, hown,
        he.mixins, hsuper, hsingleton, h.metaclassSplices, he.name, he.nameSpan, List.map_nil]
  | typeAlias | constant =>
    simp only [mapAnswer, Failure.mapSpans, he.name]

theorem blueprint (key : ChainKey) :
    mapAnswer σ (Blueprint.mapSpans σ) (env.blueprint key) =
      mapAnswer σ (Blueprint.mapSpans σ) (env'.blueprint key) := by
  rw [Environment.blueprint, Environment.blueprint]
  rcases rel_cases (h key.name) with ⟨hget, hget'⟩ | ⟨e, e', hget, hget', hsame⟩
  · rw [hget, hget']
  · rw [hget, hget']
    exact h.entryBlueprint hsame key.context

theorem cycle (path : List ChainKey) (key : ChainKey) :
    (env.cycle path key).mapSpans σ = (env'.cycle path key).mapSpans σ := by
  rw [Environment.cycle, Environment.cycle]
  rcases rel_cases (h key.name) with ⟨hget, hget'⟩ | ⟨e, e', hget, hget', hsame⟩
  · rw [hget, hget']
  · rw [hget, hget']
    simp only [Failure.mapSpans, Diagnostic.mapSpan, hsame.nameSpan]

/-- Every chain, on every path, is the same up to spans. -/
theorem chain (path : List ChainKey) (key : ChainKey) :
    mapAnswer σ (Chain.mapSpans σ) (env.chain path key) =
      mapAnswer σ (Chain.mapSpans σ) (env'.chain path key) := by
  induction path, key using env.chainInduction with
  | step path key ih =>
    by_cases hpath : key ∈ path
    · rw [env.chain_of_mem hpath, env'.chain_of_mem hpath, mapAnswer, mapAnswer, h.cycle]
    have hblueprint := h.blueprint key
    cases hb : env.blueprint key with
    | error failure =>
      cases hb' : env'.blueprint key with
      | error failure' =>
        rw [hb, hb'] at hblueprint
        rw [env.chain_of_error hpath hb, env'.chain_of_error hpath hb', mapAnswer, mapAnswer,
          Except.error.inj hblueprint]
      | ok b' => rw [hb, hb'] at hblueprint; cases hblueprint
    | ok b =>
      cases hb' : env'.blueprint key with
      | error failure' => rw [hb, hb'] at hblueprint; cases hblueprint
      | ok b' =>
        rw [hb, hb'] at hblueprint
        have hsame : b.mapSpans σ = b'.mapSpans σ := Except.ok.inj hblueprint
        have hparts : (b.mapSpans σ).assemble (fun k => mapAnswer σ (Chain.mapSpans σ)
              (env.chain (path ++ [key]) k)) =
            (b.mapSpans σ).assemble fun k => mapAnswer σ (Chain.mapSpans σ)
              (env'.chain (path ++ [key]) k) := by
          refine Blueprint.assemble_congr fun k hk => ih hpath k ?_
          rw [Blueprint.keys_mapSpans] at hk
          exact (env.depends_iff_of_blueprint hb).2 hk
        rw [← Blueprint.mapSpans_assemble, hsame, ← Blueprint.mapSpans_assemble] at hparts
        have hchange : ∀ entries : List AncestorEntry,
            Chain.mapSpans σ ⟨key.name, key.context, entries⟩ =
              ⟨key.name, key.context, entries.map (AncestorEntry.mapSpans σ)⟩ := fun _ => rfl
        rw [env.chain_of_blueprint hpath hb, env'.chain_of_blueprint hpath hb',
          mapAnswer_map σ hchange, mapAnswer_map σ hchange, hparts]

theorem ancestors (key : ChainKey) :
    mapAnswer σ (Chain.mapSpans σ) (env.ancestors key) =
      mapAnswer σ (Chain.mapSpans σ) (env'.ancestors key) := by
  rw [Environment.ancestors_eq_chain, Environment.ancestors_eq_chain, h.chain]

end Environment.SameSites

end Spans

/-! ## The same spans -/

theorem Chain.mapSpans_id (c : Chain) : c.mapSpans id = c := by
  obtain ⟨name, context, entries⟩ := c
  refine congrArg (Chain.mk name context) ((List.map_congr_left fun e _ => ?_).trans
    (List.map_id entries))
  rw [AncestorEntry.mapSpans, Substitution.mapSpans_id]
  rfl

theorem Failure.mapSpans_id (failure : Failure) : failure.mapSpans id = failure := by
  cases failure with
  | parseFailed batch => exact congrArg parseFailed (List.map_id batch)
  | _ => rfl

theorem mapAnswer_id {α : Type} {change : α → α} (h : ∀ a, change a = a) (r : Except Failure α) :
    mapAnswer id change r = r := by
  cases r with
  | error failure => exact congrArg Except.error failure.mapSpans_id
  | ok a => exact congrArg Except.ok (h a)

end RubySig
