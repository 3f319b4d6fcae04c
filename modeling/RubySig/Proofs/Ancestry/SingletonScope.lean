import RubySig.Proofs.Ancestry.Closed

/-!
# The variables of singleton chains

The singleton chain of a class goes on with that of its superclass, and nothing is put in for the
type parameters of the superclass there.  So what a superclass extends keeps the arguments as the
superclass writes them: their variables are type parameters of the superclass, whatever the class
gives it for them.  They are what they should be exactly if each of these variables is given for
itself.

* `Substitution.apply_eq_self_iff`, `Substitution.compose_eq_self_iff`: when a substitution changes
  nothing.
* `Environment.Inherits`: the superclasses of a class with what their parameters stand for.
* `Environment.Extends`, `Environment.FromMetaclass`: where an entry of a singleton chain is
  written.
* `Environment.singleton_entry_cases`: every entry comes unchanged from one of these places.
* `Environment.rewritten_iff_of_mem_singleton`: the result.
-/

namespace RubySig

/-! ## Substitutions that change nothing -/

/-- A list is not changed by a function exactly if none of its elements is. -/
theorem map_eq_self_iff {α : Type} {f : α → α} {l : List α} : l.map f = l ↔ ∀ a ∈ l, f a = a := by
  have hiff : l.map f = l.map id ↔ ∀ a ∈ l, f a = id a := List.map_inj_left
  rwa [List.map_id] at hiff

namespace Substitution

variable {s t : Substitution}

/-- Types are not changed exactly if each of their variables is given for itself. -/
theorem apply_eq_self_iff {x : TypeExpr} : s.apply x = x ↔ ∀ v ∈ x.vars, s.image v = .var v := by
  constructor
  · intro h
    induction x using TypeExpr.inductionOnChildren with
    | step x ih =>
      intro v hv
      cases hx : x.varName? with
      | some w =>
        obtain rfl := TypeExpr.eq_var_of_varName? hx
        obtain rfl := List.mem_singleton.1 hv
        rwa [apply_var] at h
      | none =>
        have hchildren : x.children.map s.apply = x.children := by
          rw [← TypeExpr.children_mapChildren, ← s.apply_of_varName?_eq_none hx, h]
        rw [TypeExpr.vars_eq_of_varName?_eq_none hx] at hv
        obtain ⟨c, hc, hvc⟩ := List.mem_flatMap.1 hv
        have hself : s.apply c = c := map_eq_self_iff.1 hchildren c hc
        exact ih c hc hself v hvc
  · intro h
    have hempty : ∀ v ∈ x.vars, s.image v = (empty : Substitution).image v := h
    rw [apply_congr hempty]
    rfl

/-- The variables of the types that the parameters stand for. -/
def valueVars (s : Substitution) : List String := s.values.flatMap TypeExpr.vars

theorem scopedIn_iff_valueVars {scope : List String} :
    s.ScopedIn scope ↔ ∀ v ∈ s.valueVars, v ∈ scope := by
  simp only [ScopedIn, TypeExpr.ScopedIn, valueVars, List.mem_flatMap]
  constructor
  · rintro h v ⟨t, ht, hv⟩
    exact h t ht v hv
  · intro h t ht v hv
    exact h v ⟨t, ht, hv⟩

/-- A substitution is not changed by another one after it exactly if the variables of its values are
given for themselves. -/
theorem compose_eq_self_iff : s.compose t = t ↔ ∀ v ∈ t.valueVars, s.image v = .var v := by
  obtain ⟨⟨pairs⟩⟩ := t
  have hpairs : s.compose ⟨⟨pairs⟩⟩ = ⟨⟨pairs⟩⟩ ↔ ∀ p ∈ pairs, s.apply p.2 = p.2 := by
    rw [compose, OrderedMap.mapValues, mk.injEq, OrderedMap.mk.injEq, map_eq_self_iff]
    simp only [Prod.ext_iff, true_and]
  rw [hpairs]
  simp only [apply_eq_self_iff, valueVars, values, OrderedMap.values, List.mem_flatMap,
    List.mem_map]
  constructor
  · rintro h v ⟨_, ⟨p, hp, rfl⟩, hv⟩
    exact h p hp v hv
  · exact fun h p hp v hv => h v ⟨p.2, ⟨p, hp, rfl⟩, hv⟩

/-- Nothing is put in by the empty substitution. -/
@[simp] theorem empty_compose (t : Substitution) : empty.compose t = t :=
  compose_eq_self_iff.2 fun _ _ => rfl

theorem ScopedIn.empty (scope : List String) : (empty : Substitution).ScopedIn scope :=
  fun _ ht => absurd ht List.not_mem_nil

end Substitution

/-! ## Where the entries of singleton chains are written -/

namespace Environment

/-- A class inherits from another one, or is this class itself, and this is what the type parameters
of the other one stand for in the class. -/
inductive Inherits (env : Environment) : Entry → Entry → Substitution → Prop
  | own (e : Entry) : env.Inherits e e (.identity e.paramNames)
  | next {e f g : Entry} {name : TypeName} {args : List TypeExpr} {τ : Substitution}
      (hkind : e.kind = .klass) (hsuper : env.superClass? e = some (name, args))
      (hget : env.get? name = some f) (h : env.Inherits f g τ) :
      env.Inherits e g ((env.bindArgs name args).compose τ)

/-- An entity brings an entry into its singleton chain by itself: its object, or an entry of the
chain of something that it extends, with the arguments of the directive. -/
inductive Extends (env : Environment) (g : Entry) (p : AncestorEntry) : Prop
  | own (hkey : p.key = ⟨g.name, .onSingleton⟩) (hsubst : p.substitution = .empty)
  | directive {s : Splice} {c : Chain} {q : AncestorEntry} (hs : s ∈ env.mixinSplices g .extended)
      (hc : env.ancestors s.key = .ok c) (hq : q ∈ c.entries) (hkey : p.key = q.key)
      (hsubst : p.substitution = s.binding.compose q.substitution)

/-- The class that the object of a class or module is an instance of. -/
def metaclassOf (e : Entry) : TypeName :=
  .topLevel (if e.kind = .klass then "Class" else "Module")

/-- An entry comes from the instance chain of `::Class` or `::Module`. -/
def FromMetaclass (env : Environment) (e : Entry) (p : AncestorEntry) : Prop :=
  ∃ c, env.ancestors ⟨metaclassOf e, .onInstance⟩ = .ok c ∧
    ∃ q ∈ c.entries, p.key = q.key ∧ p.substitution = q.substitution

variable {env : Environment}

theorem Extends.congr {g : Entry} {p q : AncestorEntry} (h : env.Extends g q) (hkey : p.key = q.key)
    (hsubst : p.substitution = q.substitution) : env.Extends g p := by
  cases h with
  | own hown hempty => exact .own (hkey.trans hown) (hsubst.trans hempty)
  | directive hs hc hr hown hbound =>
    exact .directive hs hc hr (hkey.trans hown) (hsubst.trans hbound)

theorem mem_metaclassSplices {name : String} {s : Splice} (h : s ∈ env.metaclassSplices name) :
    s = ⟨⟨.topLevel name, .onInstance⟩, .empty, .metaclass⟩ := by
  rw [metaclassSplices] at h
  split at h
  · exact List.mem_singleton.1 h
  · exact absurd h List.not_mem_nil

theorem kind_of_superClass {e f : Entry} {name : TypeName} {args : List TypeExpr}
    (h : env.superClass? e = some (name, args)) (hget : env.get? name = some f) :
    f.kind = .klass := by
  obtain ⟨f', hf', hkind⟩ := isClass_iff.1 (superClass?_eq_some h).1
  obtain rfl := Option.some.inj (hget.symm.trans hf')
  exact hkind

/-- The chain of a singleton side, and every entry of it with the place where it is written: at the
entity itself or one of its superclasses, or at `::Class` or `::Module`. -/
theorem singleton_entry_cases {key : ChainKey} {c : Chain} (h : env.chain [] key = .ok c)
    (hside : key.context = .onSingleton) {e : Entry} (he : env.get? key.name = some e) :
    ∀ p ∈ c.entries,
      (∃ g τ, env.Inherits e g τ ∧ (∃ name, env.get? name = some g) ∧ env.Extends g p) ∨
        env.FromMetaclass e p := by
  induction h using chainOkInduction generalizing e with
  | step key b chainOf hb hparts _ =>
    intro p hp
    obtain ⟨e', he', hpieces⟩ := pieces_of_blueprint hb
    obtain rfl := Option.some.inj (he.symm.trans he')
    rw [hside] at hpieces
    rcases Blueprint.mem_join hp with rfl | ⟨s, hs, q, hq, hkey, hsubst⟩
    · have hown : b.own.substitution = .empty := by rw [hpieces.own, ownEntry]
      have hkey : b.own.key = ⟨e.name, .onSingleton⟩ := by rw [hpieces.own, key_ownEntry]
      exact Or.inl ⟨e, _, .own e, ⟨_, he⟩, .own hkey hown⟩
    obtain ⟨hchain, ih⟩ := hparts s.key (Blueprint.key_mem_keys hs)
    have hmeta : ∀ {name : String}, metaclassOf e = .topLevel name →
        s ∈ env.metaclassSplices name → env.FromMetaclass e p := by
      intro name hname hs
      rw [mem_metaclassSplices hs, Substitution.empty_compose] at hsubst
      rw [mem_metaclassSplices hs, ← hname, ← ancestors_eq_chain] at hchain
      rw [mem_metaclassSplices hs, ← hname] at hq
      exact ⟨_, hchain, q, hq, hkey, hsubst⟩
    rcases pieceOf_onSingleton_iff.1 ((hpieces.splices s).1 hs) with
      hs | ⟨hkind, hs⟩ | ⟨hkind, hs⟩
    · rw [← ancestors_eq_chain] at hchain
      exact Or.inl ⟨e, _, .own e, ⟨_, he⟩, .directive hs hchain hq hkey hsubst⟩
    · cases hsuper : env.superClass? e with
      | none =>
        rw [singletonSuperSplices, hsuper] at hs
        exact Or.inr (hmeta (by rw [metaclassOf, if_pos hkind]) hs)
      | some found =>
        obtain ⟨super, args⟩ := found
        rw [singletonSuperSplices, hsuper] at hs
        rw [List.mem_singleton.1 hs] at hsubst hchain hq ih
        rw [Substitution.empty_compose] at hsubst
        obtain ⟨_, hsuperBlueprint, -⟩ := parts_of_chain_ok hchain
        obtain ⟨f, hf, -⟩ := env.get?_of_blueprint hsuperBlueprint
        rcases ih rfl hf q hq with ⟨g, τ, hinherits, hg, hextends⟩ | ⟨d, hd, r, hr, hqkey, hqsubst⟩
        · exact Or.inl ⟨g, _, .next hkind hsuper hf hinherits, hg, hextends.congr hkey hsubst⟩
        · have hsame : metaclassOf f = metaclassOf e := by
            rw [metaclassOf, metaclassOf, kind_of_superClass hsuper hf, hkind]
          exact Or.inr ⟨d, hsame ▸ hd, r, hr, hkey.trans hqkey, hsubst.trans hqsubst⟩
    · have hmodule : metaclassOf e = .topLevel "Module" := by
        rw [metaclassOf, hkind]
        rfl
      exact Or.inr (hmeta hmodule hs)

/-! ## Their variables -/

/-- What the parameters of a superclass stand for is in the scope of the class, and nothing else
stands for anything. -/
theorem Inherits.scoped (henv : env.OfTexts) (hdistinct : env.DistinctParams) {e g : Entry}
    {τ : Substitution} (h : env.Inherits e g τ) (he : ∃ name, env.get? name = some e) :
    τ.names = g.paramNames ∧ τ.ScopedIn e.paramNames := by
  have hnodup : ∀ {e : Entry}, (∃ name, env.get? name = some e) → e.paramNames.Nodup :=
    fun ⟨_, he⟩ => hdistinct.nodup_paramNames (OrderedMap.mem_values_of_get? he)
  induction h with
  | own e =>
    exact ⟨Substitution.names_identity (hnodup he), Substitution.scopedIn_identity e.paramNames⟩
  | @next e f g name args τ hkind hsuper hget _ ih =>
    obtain ⟨hnames, hscoped⟩ := ih ⟨name, hget⟩
    obtain ⟨_, he'⟩ := id he
    have hargs := scopedIn_superClass (henv.scoped _ e he') (hnodup he) hsuper
    have hbound : (env.bindArgs name args).names = f.paramNames :=
      names_bindArgs hdistinct hget args
    refine ⟨(Substitution.names_compose _ _).trans hnames, ?_⟩
    exact (Substitution.scopedIn_bind hargs _).compose (hbound ▸ hscoped)

/-- What an entity brings in by itself is in its own scope. -/
theorem Extends.scoped (henv : env.OfTexts) (hdistinct : env.DistinctParams) {name : TypeName}
    {g : Entry} (hg : env.get? name = some g) {p : AncestorEntry} (h : env.Extends g p) :
    p.substitution.ScopedIn g.paramNames := by
  have hnodup := hdistinct.nodup_paramNames (OrderedMap.mem_values_of_get? hg)
  cases h with
  | own _ hempty =>
    rw [hempty]
    exact Substitution.ScopedIn.empty _
  | @directive s c q hs hc hq _ hsubst =>
    obtain ⟨args, hbinding, hinstance, hargs⟩ :=
      args_of_mem_mixinSplices (henv.scoped _ g hg) hnodup hs
    rw [ancestors_eq_chain] at hc
    obtain ⟨_, hblueprint, -⟩ := parts_of_chain_ok hc
    obtain ⟨target, htarget, -⟩ := env.get?_of_blueprint hblueprint
    have hclosed := closedIn_of_mem_entries henv hdistinct hc hinstance htarget q hq
    have hbound : s.binding.names = target.paramNames := by
      rw [hbinding, names_bindArgs hdistinct htarget]
    have hscope : s.binding.ScopedIn g.paramNames := by
      rw [hbinding]
      exact Substitution.scopedIn_bind hargs _
    rw [hsubst]
    exact hscope.compose (hbound ▸ hclosed.values)

/-- In the singleton chain of a class or module every entry is written by the entity or by one of
its superclasses, or it belongs to `::Class` or `::Module`.  Its variables are type parameters of
where it is written.  What the entity gives for these would make a type in the scope of the entity
of each of its types, but it is not put in: the entry is closed in this scope and has these types
exactly if each of the variables is given for itself. -/
theorem rewritten_iff_of_mem_singleton (henv : env.OfTexts) (hdistinct : env.DistinctParams)
    {name : TypeName} {e : Entry} (he : env.get? name = some e) {c : Chain}
    (h : env.ancestors ⟨name, .onSingleton⟩ = .ok c) : ∀ p ∈ c.entries,
    (∃ g τ, env.Inherits e g τ ∧ env.Extends g p ∧ p.substitution.ScopedIn g.paramNames ∧
      (τ.compose p.substitution).ScopedIn e.paramNames ∧
      (p.substitution.ScopedIn e.paramNames ∧ τ.compose p.substitution = p.substitution ↔
        ∀ v ∈ p.substitution.valueVars, τ.image v = .var v)) ∨
    env.FromMetaclass e p ∧
      ∃ m, env.get? (metaclassOf e) = some m ∧ p.substitution.ScopedIn m.paramNames := by
  rw [ancestors_eq_chain] at h
  intro p hp
  rcases singleton_entry_cases h rfl he p hp with
    ⟨g, τ, hinherits, ⟨_, hg⟩, hextends⟩ | hmeta
  · obtain ⟨hnames, hscoped⟩ := hinherits.scoped henv hdistinct ⟨name, he⟩
    have hwritten := hextends.scoped henv hdistinct hg
    have hclosed : (τ.compose p.substitution).ScopedIn e.paramNames :=
      hscoped.compose (hnames ▸ hwritten)
    refine Or.inl ⟨g, τ, hinherits, hextends, hwritten, hclosed, ?_⟩
    rw [← Substitution.compose_eq_self_iff]
    exact ⟨And.right, fun hsame => ⟨hsame ▸ hclosed, hsame⟩⟩
  · refine Or.inr ⟨hmeta, ?_⟩
    obtain ⟨d, hd, q, hq, -, hsubst⟩ := hmeta
    rw [ancestors_eq_chain] at hd
    obtain ⟨_, hblueprint, -⟩ := parts_of_chain_ok hd
    obtain ⟨m, hm, -⟩ := env.get?_of_blueprint hblueprint
    exact ⟨m, hm, hsubst ▸ (closedIn_of_mem_entries henv hdistinct hd rfl hm q hq).values⟩

end Environment

/-- A class that extends a module with its own type parameter, a class that inherits from it under
the same parameter, and one that inherits from it under another. -/
def storedSetup : SessionSetup :=
  .ofFile "a.rbs" ("module Store[T]\nend\n\nclass Base[V]\n  extend Store[V?]\nend\n\n" ++
    "class Same[V] < Base[V]\nend\n\nclass Other[U] < Base[U]\nend\n")

/-- The object of a top-level class or module. -/
def singletonSide (name : String) : ChainKey := ⟨.topLevel name, .onSingleton⟩

set_option maxRecDepth 100000 in
/-- The module that the superclass extends has the superclass's own parameter in the chain of the
class that has another one. -/
theorem other_keeps_variable : ∃ s e c p, storedSetup.build = .ok s ∧ s.validate = [] ∧
    s.env.OfTexts ∧ s.env.DistinctParams ∧ s.env.get? (.topLevel "Other") = some e ∧
    s.env.ancestors (singletonSide "Other") = .ok c ∧ p ∈ c.entries ∧
    p.key = instanceSide "Store" ∧ ¬ p.substitution.ScopedIn e.paramNames := by
  obtain ⟨s, hbuild, hs⟩ := exists_ok_of_any storedSetup.build
    (fun s => decide (s.validate = []) && decide s.env.DistinctParams &&
      ((s.env.get? (.topLevel "Other")).any fun e => e.paramNames = ["U"]) &&
      (s.env.chain [] (singletonSide "Other")).toOption.any fun c =>
        c.entries.any fun p =>
          p.key = instanceSide "Store" && p.substitution.valueVars = ["V"])
    (by decide +kernel)
  simp only [Bool.and_eq_true, decide_eq_true_eq] at hs
  obtain ⟨⟨⟨hvalid, hdistinct⟩, hentry⟩, hchain⟩ := hs
  obtain ⟨e, he, hparams⟩ := (Option.any_eq_true _ _).1 hentry
  have hparams : e.paramNames = ["U"] := of_decide_eq_true hparams
  obtain ⟨c, hc, hentries⟩ := exists_ok_of_any _ _ hchain
  obtain ⟨p, hp, hvars⟩ := List.any_eq_true.1 hentries
  simp only [Bool.and_eq_true, decide_eq_true_eq] at hvars
  obtain ⟨hkey, hvars⟩ := hvars
  obtain ⟨errors, hparsed, henv, -⟩ := SessionSetup.parsed_of_build hbuild
  rw [← Environment.ancestors_eq_chain] at hc
  refine ⟨s, e, c, p, hbuild, hvalid, ⟨_, parseSources_read hparsed, henv⟩, hdistinct, he, hc, hp,
    hkey, ?_⟩
  rw [Substitution.scopedIn_iff_valueVars, hvars, hparams]
  decide

set_option maxRecDepth 100000 in
/-- In the chain of the class that has the same parameter all entries are closed. -/
theorem same_is_rewritten : ∃ s e c, storedSetup.build = .ok s ∧
    s.env.get? (.topLevel "Same") = some e ∧ e.paramNames = ["V"] ∧
    s.env.ancestors (singletonSide "Same") = .ok c ∧
    c.entries.map AncestorEntry.render = ["singleton(::Same)", "singleton(::Base)", "::Store[V?]"] ∧
    ∀ p ∈ c.entries, ∃ g τ, s.env.Inherits e g τ ∧ s.env.Extends g p ∧
      (p.substitution.ScopedIn ["V"] ∧ τ.compose p.substitution = p.substitution ↔
        ∀ v ∈ p.substitution.valueVars, τ.image v = .var v) := by
  obtain ⟨s, hbuild, hs⟩ := exists_ok_of_any storedSetup.build
    (fun s => decide s.env.DistinctParams && decide ((s.env.get? (.topLevel "Class")).isNone) &&
      ((s.env.get? (.topLevel "Same")).any fun e => e.paramNames = ["V"] && e.kind = .klass) &&
      (s.env.chain [] (singletonSide "Same")).toOption.any fun c =>
        c.entries.map AncestorEntry.render =
          ["singleton(::Same)", "singleton(::Base)", "::Store[V?]"])
    (by decide +kernel)
  simp only [Bool.and_eq_true, decide_eq_true_eq] at hs
  obtain ⟨⟨⟨hdistinct, hclass⟩, hentry⟩, hchain⟩ := hs
  obtain ⟨e, he, hsame⟩ := (Option.any_eq_true _ _).1 hentry
  simp only [Bool.and_eq_true, decide_eq_true_eq] at hsame
  obtain ⟨hparams, hkind⟩ := hsame
  obtain ⟨c, hc, hrender⟩ := exists_ok_of_any _ _ hchain
  obtain ⟨errors, hparsed, henv, -⟩ := SessionSetup.parsed_of_build hbuild
  rw [← Environment.ancestors_eq_chain] at hc
  refine ⟨s, e, c, hbuild, he, hparams, hc, of_decide_eq_true hrender, fun p hp => ?_⟩
  rcases Environment.rewritten_iff_of_mem_singleton ⟨_, parseSources_read hparsed, henv⟩ hdistinct
    he hc p hp with ⟨g, τ, hinherits, hextends, -, -, hiff⟩ | ⟨-, m, hm, -⟩
  · exact ⟨g, τ, hinherits, hextends, hparams ▸ hiff⟩
  · -- nothing declares `::Class` here
    have hmeta : Environment.metaclassOf e = .topLevel "Class" := by
      rw [Environment.metaclassOf, if_pos hkind]
    rw [← hmeta, hm] at hclass
    cases hclass

end RubySig
