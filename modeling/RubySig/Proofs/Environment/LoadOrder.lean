import RubySig.Proofs.Environment.Partition
import RubySig.Proofs.Resolution

/-!
# Conflicts do not depend on the load order

Insertion is first-come, but whether there is a conflict is a matter of pairs of declarations, and a
pair fits or does not fit in either order.  Hence sources merge without a conflict in every order or
in none.

* `EntityDecl.SameShape`, `Placement.Fits`: declarations that can stand side by side.
* `Merge.Stores`: without a conflict everything that was inserted is stored.
* `Merge.conflicts_insertAll_eq_nil_iff`: placements merge without a conflict if every two of them
  fit.
* `allSuperClassConflicts_eq_nil_iff`: reopened classes have no conflict if all fragments that write
  a superclass mean the same class.
* `mergeSources_loadOrder`: the result for permutations of sources.
-/

namespace RubySig

/-! ## Declarations side by side -/

/-- Two declarations are of one kind, and their parameter lists, if both have one, of one length. -/
def EntityDecl.SameShape (d d' : EntityDecl) : Prop :=
  d.kind = d'.kind ∧
    (d.typeParams ≠ [] → d'.typeParams ≠ [] → d.typeParams.length = d'.typeParams.length)

theorem EntityDecl.SameShape.refl (d : EntityDecl) : d.SameShape d := ⟨rfl, fun _ _ => rfl⟩

theorem EntityDecl.SameShape.symm {d d' : EntityDecl} (h : d.SameShape d') : d'.SameShape d :=
  ⟨h.1.symm, fun hd' hd => (h.2 hd hd').symm⟩

/-- Fragments of one shape. -/
def Fragment.SameShape (f g : Fragment EntityDecl) : Prop := f.decl.SameShape g.decl

/-- Two placements can stand in one environment, the one behind the other. -/
def Placement.Fits : Placement → Placement → Prop
  | .entity name f, .entity name' g =>
    name = name' → f.SameShape g ∧ Merge.canReopen g.decl.kind
  | .global f, .global g => f.decl.name ≠ g.decl.name
  | .entity _ _, .global _ => True
  | .global _, .entity _ _ => True

/-- Whether two placements fit does not depend on which one is inserted first. -/
theorem Placement.Fits.symm {p q : Placement} (h : p.Fits q) : q.Fits p := by
  cases p with
  | entity name f =>
    cases q with
    | entity name' g =>
      intro hname
      obtain ⟨hshape, hreopen⟩ := h hname.symm
      refine ⟨EntityDecl.SameShape.symm hshape, ?_⟩
      rw [hshape.1]
      exact hreopen
    | global g => trivial
  | global f =>
    cases q with
    | entity name' g => trivial
    | global g => exact Ne.symm h

namespace Entry

variable {e : Entry}

/-- In an entity of fragments of one shape the parameter list is as long as any. -/
theorem length_typeParams_of_mem (h : ∀ f ∈ e.fragments, ∀ g ∈ e.fragments, f.SameShape g)
    {f : Fragment EntityDecl} (hf : f ∈ e.fragments) (hlist : f.decl.typeParams ≠ []) :
    e.typeParams.length = f.decl.typeParams.length := by
  rcases e.exists_fragment_of_typeParams with hnone | ⟨g, hg, hparams⟩
  · exact absurd (Entry.typeParams_eq_nil_iff.1 hnone f hf) hlist
  · rw [hparams]
    refine (h g hg f hf).2 (fun hnil => hlist ?_) hlist
    rw [hnil] at hparams
    exact Entry.typeParams_eq_nil_iff.1 hparams f hf

/-- A declaration fits to an entity of fragments of one shape if it fits to each of them. -/
theorem clash?_eq_none_iff_forall (h : ∀ f ∈ e.fragments, ∀ g ∈ e.fragments, f.SameShape g)
    {d : EntityDecl} : Merge.clash? e d = none ↔
      ∀ f ∈ e.fragments, f.decl.SameShape d ∧ Merge.canReopen d.kind := by
  have hprimary : e.primary ∈ e.fragments := List.mem_cons_self
  rw [Merge.clash?_eq_none_iff]
  constructor
  · rintro ⟨hkind, hreopen, hlength⟩ f hf
    refine ⟨⟨(h f hf _ hprimary).1.trans hkind, fun hlist hd => ?_⟩, hreopen⟩
    have hsame := length_typeParams_of_mem h hf hlist
    rw [← hsame]
    refine hlength (fun hnone => hlist ?_) hd
    exact typeParams_eq_nil_iff.1 hnone f hf
  · intro hall
    refine ⟨(hall _ hprimary).1.1, (hall _ hprimary).2, fun hlist hd => ?_⟩
    obtain ⟨f, hf, hparams⟩ := e.exists_fragment_of_typeParams.resolve_left hlist
    rw [hparams] at hlist ⊢
    exact (hall f hf).1.2 hlist hd

end Entry

/-! ## Insertion without conflicts -/

/-- Exactly these placements are stored, each name with its fragments in order. -/
structure Merge.Stores (m : Merge) (ps : List Placement) : Prop where
  named : m.Holds fun _ => True
  fragments : ∀ name, m.env.fragmentsOf name = ps.flatMap (Placement.fragmentsAt name)
  globals : ∀ name, m.env.globalsOf name = ps.flatMap (Placement.globalsAt name)

theorem Placement.mem_fragmentsAt {name : TypeName} {f : Fragment EntityDecl} {p : Placement} :
    f ∈ p.fragmentsAt name ↔ p = .entity name f := by
  cases p with
  | entity placed g =>
    rw [fragmentsAt]
    split
    · rename_i hname
      rw [List.mem_singleton, entity.injEq, hname, eq_comm]
      simp
    · rename_i hname
      exact ⟨fun h => absurd h List.not_mem_nil, fun h => absurd (entity.inj h).1 hname⟩
  | global g => exact ⟨fun h => absurd h List.not_mem_nil, fun h => by cases h⟩

theorem Placement.mem_globalsAt {name : String} {f : Fragment GlobalDecl} {p : Placement} :
    f ∈ p.globalsAt name ↔ p = .global f ∧ f.decl.name = name := by
  cases p with
  | entity placed g => exact ⟨fun h => absurd h List.not_mem_nil, fun h => by cases h.1⟩
  | global g =>
    rw [globalsAt]
    split
    · rename_i hname
      rw [List.mem_singleton, global.injEq]
      exact ⟨fun h => ⟨h.symm, h ▸ hname⟩, fun h => h.1.symm⟩
    · rename_i hname
      refine ⟨fun h => absurd h List.not_mem_nil, fun h => absurd ?_ hname⟩
      rw [global.inj h.1]
      exact h.2

namespace Merge

variable {m : Merge} {ps : List Placement}

theorem stores_empty : empty.Stores [] := ⟨holds_empty, fun _ => rfl, fun _ => rfl⟩

/-- A placement that is accepted is stored behind the others. -/
theorem Stores.insert (h : m.Stores ps) {p : Placement} (hp : m.conflict? p = none) :
    (m.insert p).Stores (ps ++ [p]) := by
  refine ⟨h.named.insert_trivial p, fun name => ?_, fun name => ?_⟩
  · rw [fragmentsOf_insert h.named, if_pos hp, h.fragments, List.flatMap_append,
      List.flatMap_singleton]
  · rw [globalsOf_insert, if_pos hp, h.globals, List.flatMap_append, List.flatMap_singleton]

theorem Stores.mem_fragmentsOf (h : m.Stores ps) {name : TypeName} {f : Fragment EntityDecl} :
    f ∈ m.env.fragmentsOf name ↔ .entity name f ∈ ps := by
  rw [h.fragments, List.mem_flatMap]
  refine ⟨fun ⟨p, hp, hf⟩ => ?_, fun hp => ⟨_, hp, Placement.mem_fragmentsAt.2 rfl⟩⟩
  rwa [← Placement.mem_fragmentsAt.1 hf]

theorem Stores.mem_globalsOf (h : m.Stores ps) {name : String} {f : Fragment GlobalDecl} :
    f ∈ m.env.globalsOf name ↔ .global f ∈ ps ∧ f.decl.name = name := by
  rw [h.globals, List.mem_flatMap]
  constructor
  · rintro ⟨p, hp, hf⟩
    obtain ⟨rfl, hname⟩ := Placement.mem_globalsAt.1 hf
    exact ⟨hp, hname⟩
  · rintro ⟨hp, hname⟩
    exact ⟨_, hp, Placement.mem_globalsAt.2 ⟨rfl, hname⟩⟩

/-- If every two stored placements fit, all fragments of an entity are of one shape. -/
theorem Stores.sameShape (h : m.Stores ps) (hfit : ps.Pairwise Placement.Fits) {name : TypeName} :
    ∀ f ∈ m.env.fragmentsOf name, ∀ g ∈ m.env.fragmentsOf name, f.SameShape g := by
  -- the two fragments can be one and the same, so fitting is weakened to a reflexive relation
  let Agree : Placement → Placement → Prop := fun p q =>
    ∀ f g, p = .entity name f → q = .entity name g → f.SameShape g
  have hsymm : Std.Symm Agree := ⟨fun p q hpq f g hf hg => (hpq g f hg hf).symm⟩
  have hagree : ps.Pairwise Agree := hfit.imp fun {p q} hpq f g hf hg => by
    subst hf hg
    exact (hpq rfl).1
  have hself : ∀ p ∈ ps, Agree p p := fun p _ f g hf hg => by
    subst hf
    obtain ⟨-, rfl⟩ := Placement.entity.inj hg
    exact EntityDecl.SameShape.refl _
  intro f hf g hg
  have hpair := List.Pairwise.forall_of_forall hself hagree
  exact hpair (h.mem_fragmentsOf.1 hf) (h.mem_fragmentsOf.1 hg) f g rfl rfl

theorem Stores.forall_fits_entity_iff (h : m.Stores ps) {name : TypeName}
    {f : Fragment EntityDecl} : (∀ q ∈ ps, q.Fits (.entity name f)) ↔
      ∀ g ∈ m.env.fragmentsOf name, g.decl.SameShape f.decl ∧ canReopen f.decl.kind := by
  refine ⟨fun hall g hg => hall _ (h.mem_fragmentsOf.1 hg) rfl, fun hall q hq => ?_⟩
  cases q with
  | entity name' g =>
    intro hname
    subst hname
    exact hall g (h.mem_fragmentsOf.2 hq)
  | global g => trivial

theorem Stores.forall_fits_global_iff (h : m.Stores ps) {f : Fragment GlobalDecl} :
    (∀ q ∈ ps, q.Fits (.global f)) ↔ m.env.globalsOf f.decl.name = [] := by
  rw [List.eq_nil_iff_forall_not_mem]
  constructor
  · intro hall g hg
    obtain ⟨hmem, hname⟩ := h.mem_globalsOf.1 hg
    exact hall _ hmem hname
  · intro hall q hq
    cases q with
    | entity name g => trivial
    | global g => exact fun hname => hall g (h.mem_globalsOf.2 ⟨hq, hname⟩)

/-- A placement is accepted if all that are stored fit to it. -/
theorem Stores.conflict?_eq_none_iff (h : m.Stores ps) (hfit : ps.Pairwise Placement.Fits)
    (p : Placement) : m.conflict? p = none ↔ ∀ q ∈ ps, q.Fits p := by
  cases p with
  | entity name f =>
    rw [h.forall_fits_entity_iff, conflict?]
    cases hget : m.env.get? name with
    | none =>
      rw [Environment.fragmentsOf_of_get?_eq_none hget]
      exact ⟨fun _ _ hg => absurd hg List.not_mem_nil, fun _ => rfl⟩
    | some e =>
      have hshape : ∀ f ∈ m.env.fragmentsOf name, ∀ g ∈ m.env.fragmentsOf name, f.SameShape g :=
        h.sameShape hfit
      rw [Environment.fragmentsOf_of_get? hget] at hshape ⊢
      rw [Option.bind_some, Option.map_eq_none_iff]
      exact Entry.clash?_eq_none_iff_forall hshape
  | global f =>
    rw [h.forall_fits_global_iff, conflict?, OrderedMap.contains, Environment.globalsOf]
    cases m.env.globals.get? f.decl.name with
    | none => exact ⟨fun _ => rfl, fun _ => rfl⟩
    | some g => exact ⟨fun hnone => (by cases hnone), fun hnil => (by cases hnil)⟩

theorem conflicts_prefix_insertAll (m : Merge) (ps : List Placement) :
    m.conflicts <+: (m.insertAll ps).conflicts := by
  induction ps generalizing m with
  | nil => exact List.prefix_refl _
  | cons p rest ih =>
    have hfirst : m.conflicts <+: (m.insert p).conflicts := by
      rw [conflicts_insert]
      exact List.prefix_append _ _
    exact hfirst.trans (ih (m.insert p))

/-- Placements merge without a conflict if every two of them fit, and then all of them are
stored. -/
theorem Stores.insertAll {m : Merge} {done : List Placement} (h : m.Stores done)
    (hfit : done.Pairwise Placement.Fits) (hnone : m.conflicts = []) (ps : List Placement) :
    ((m.insertAll ps).conflicts = [] ↔ (done ++ ps).Pairwise Placement.Fits) ∧
      ((m.insertAll ps).conflicts = [] → (m.insertAll ps).Stores (done ++ ps)) := by
  induction ps generalizing m done with
  | nil =>
    rw [List.append_nil]
    exact ⟨⟨fun _ => hfit, fun _ => hnone⟩, fun _ => h⟩
  | cons p rest ih =>
    have haccept := h.conflict?_eq_none_iff hfit p
    cases hp : m.conflict? p with
    | none =>
      have hnext : (m.insert p).conflicts = [] := by
        rw [conflicts_insert, hp, hnone]
        rfl
      have hfit' : (done ++ [p]).Pairwise Placement.Fits :=
        List.pairwise_append.2 ⟨hfit, List.pairwise_singleton _ p,
          fun q hq _ hq' => List.mem_singleton.1 hq' ▸ haccept.1 hp q hq⟩
      have hrest := ih (h.insert hp) hfit' hnext
      rwa [List.append_assoc] at hrest
    | some c =>
      -- a conflict stays, and the placements before this one do not all fit to it
      have hconflict : ((m.insert p).insertAll rest).conflicts ≠ [] := by
        intro hnil
        have hprefix := conflicts_prefix_insertAll (m.insert p) rest
        rw [hnil, conflicts_insert, hp, hnone] at hprefix
        exact List.cons_ne_nil _ _ (List.prefix_nil.1 hprefix)
      refine ⟨⟨fun hnil => absurd hnil hconflict, fun hall => ?_⟩,
        fun hnil => absurd hnil hconflict⟩
      have hfits := (List.pairwise_append.1 hall).2.2
      have hnone := haccept.2 fun q hq => hfits q hq p List.mem_cons_self
      rw [hp] at hnone
      cases hnone

end Merge

/-! ## Superclasses of reopened classes -/

/-- The class that a fragment writes as its superclass, if it resolves. -/
def Environment.resolvedSuper? (env : Environment) (f : Fragment EntityDecl) : Option TypeName :=
  f.decl.superClass?.bind fun s => env.resolve? s.name f.nesting .asType

/-- No fragment contradicts the first superclass if all mean the same class. -/
theorem superClassConflicts_eq_nil_iff (env : Environment) (name : TypeName)
    (first : Option TypeName) (fs : List (Fragment EntityDecl)) :
    superClassConflicts env name first fs = [] ↔
      (first.toList ++ fs.filterMap env.resolvedSuper?).Pairwise (· = ·) := by
  induction fs generalizing first with
  | nil => cases first <;> simp [superClassConflicts]
  | cons f rest ih =>
    have hwritten : env.resolvedSuper? f = (f.decl.superClass?.bind fun s =>
        (env.resolve? s.name f.nesting .asType).map fun resolved => (s, resolved)).map (·.2) := by
      rw [Environment.resolvedSuper?]
      cases f.decl.superClass? with
      | none => rfl
      | some s => cases h : env.resolve? s.name f.nesting .asType <;> simp [h]
    rw [List.filterMap_cons, hwritten]
    unfold superClassConflicts
    dsimp only
    cases f.decl.superClass?.bind fun s =>
        (env.resolve? s.name f.nesting .asType).map fun resolved => (s, resolved) with
    | none => exact ih first
    | some p =>
      obtain ⟨s, resolved⟩ := p
      cases first with
      | none => exact ih (some resolved)
      | some expected =>
        dsimp only [Option.map_some]
        split
        · rename_i heq
          subst heq
          rw [ih (some expected)]
          simp
        · rename_i hne
          simp [hne]

/-- No class is reopened with another superclass if all fragments of each class that write one mean
the same. -/
theorem allSuperClassConflicts_eq_nil_iff {env : Environment} (hnodup : env.names.Nodup) :
    allSuperClassConflicts env = [] ↔ ∀ name, env.kind? name = some .klass →
      ((env.fragmentsOf name).filterMap env.resolvedSuper?).Pairwise (· = ·) := by
  rw [allSuperClassConflicts, List.flatMap_eq_nil_iff]
  constructor
  · intro hall name hkind
    obtain ⟨e, hget, hklass⟩ := Environment.kind?_eq_some_iff.1 hkind
    have hnone := hall e (OrderedMap.mem_values_of_get? hget)
    rw [if_pos hklass, superClassConflicts_eq_nil_iff] at hnone
    rw [Environment.fragmentsOf_of_get? hget]
    exact hnone
  · intro hall e he
    obtain ⟨⟨name, other⟩, hpair, rfl⟩ := List.mem_map.1 he
    have hget : env.get? name = some other := OrderedMap.get?_of_mem_pairs hnodup hpair
    dsimp only
    split
    · rename_i hklass
      rw [superClassConflicts_eq_nil_iff]
      have hsame := hall name (Environment.kind?_eq_some_iff.2 ⟨other, hget, hklass⟩)
      rw [Environment.fragmentsOf_of_get? hget] at hsame
      exact hsame
    · rfl

/-! ## Permuted placements -/

/-- Two environments have the same names, each of the same kind, with as many type parameters and
fragments, and the same global variables. -/
structure Environment.SameOutline (env env' : Environment) : Prop where
  names : ∀ name, name ∈ env.names ↔ name ∈ env'.names
  kinds : ∀ name, env.kind? name = env'.kind? name
  arity : ∀ name, (env.paramsOf name).length = (env'.paramsOf name).length
  fragments : ∀ name, (env.fragmentsOf name).length = (env'.fragmentsOf name).length
  globals : ∀ name, env.globals.get? name = env'.globals.get? name

namespace Environment

variable {env : Environment} {name : TypeName}

theorem mem_names_iff : name ∈ env.names ↔ (env.kind? name).isSome := by
  rw [kind?, Option.isSome_map, Option.isSome_iff_exists]
  exact OrderedMap.mem_keys_iff

theorem paramsOf_eq_nil_iff :
    env.paramsOf name = [] ↔ ∀ f ∈ env.fragmentsOf name, f.decl.typeParams = [] := by
  rw [paramsOf]
  cases hget : env.get? name with
  | none =>
    rw [fragmentsOf_of_get?_eq_none hget]
    exact ⟨fun _ _ hf => absurd hf List.not_mem_nil, fun _ => rfl⟩
  | some e =>
    rw [fragmentsOf_of_get? hget]
    exact Entry.typeParams_eq_nil_iff

theorem length_paramsOf_of_mem
    (h : ∀ f ∈ env.fragmentsOf name, ∀ g ∈ env.fragmentsOf name, f.SameShape g)
    {f : Fragment EntityDecl} (hf : f ∈ env.fragmentsOf name) (hlist : f.decl.typeParams ≠ []) :
    (env.paramsOf name).length = f.decl.typeParams.length := by
  obtain ⟨e, hget, hf⟩ := mem_fragmentsOf hf
  rw [fragmentsOf_of_get? hget] at h
  rw [paramsOf, hget]
  exact Entry.length_typeParams_of_mem h hf hlist

end Environment

namespace Merge.Stores

variable {m m' : Merge} {ps ps' : List Placement}

theorem kind?_eq_some_iff (h : m.Stores ps) (hfit : ps.Pairwise Placement.Fits) {name : TypeName}
    {kind : EntityKind} : m.env.kind? name = some kind ↔
      ∃ f ∈ m.env.fragmentsOf name, f.decl.kind = kind := by
  rw [Environment.kind?_eq_some_iff]
  constructor
  · rintro ⟨e, hget, hkind⟩
    rw [Environment.fragmentsOf_of_get? hget]
    exact ⟨e.primary, List.mem_cons_self, hkind⟩
  · rintro ⟨f, hf, hkind⟩
    obtain ⟨e, hget, hmem⟩ := Environment.mem_fragmentsOf hf
    have hprimary : e.primary ∈ m.env.fragmentsOf name := by
      rw [Environment.fragmentsOf_of_get? hget]
      exact List.mem_cons_self
    exact ⟨e, hget, ((h.sameShape hfit) _ hprimary f hf).1.trans hkind⟩

section Permuted

variable (h : m.Stores ps) (h' : m'.Stores ps') (hperm : ps.Perm ps')
include h h' hperm

theorem perm_fragmentsOf (name : TypeName) :
    (m.env.fragmentsOf name).Perm (m'.env.fragmentsOf name) := by
  rw [h.fragments, h'.fragments]
  exact hperm.flatMap_right _

theorem kind?_of_perm (hfit : ps.Pairwise Placement.Fits) (hfit' : ps'.Pairwise Placement.Fits)
    (name : TypeName) : m.env.kind? name = m'.env.kind? name := by
  refine Option.ext fun kind => ?_
  rw [h.kind?_eq_some_iff hfit, h'.kind?_eq_some_iff hfit']
  have hmem : ∀ f, f ∈ m.env.fragmentsOf name ↔ f ∈ m'.env.fragmentsOf name :=
    fun f => (perm_fragmentsOf h h' hperm name).mem_iff
  simp only [hmem]

theorem length_paramsOf_of_perm (hfit : ps.Pairwise Placement.Fits)
    (hfit' : ps'.Pairwise Placement.Fits) (name : TypeName) :
    (m.env.paramsOf name).length = (m'.env.paramsOf name).length := by
  have hmem : ∀ f, f ∈ m.env.fragmentsOf name ↔ f ∈ m'.env.fragmentsOf name :=
    fun f => (perm_fragmentsOf h h' hperm name).mem_iff
  by_cases hnone : ∀ f ∈ m.env.fragmentsOf name, f.decl.typeParams = []
  · have hnone' : ∀ f ∈ m'.env.fragmentsOf name, f.decl.typeParams = [] :=
      fun f hf => hnone f ((hmem f).2 hf)
    rw [Environment.paramsOf_eq_nil_iff.2 hnone, Environment.paramsOf_eq_nil_iff.2 hnone']
  · push Not at hnone
    obtain ⟨f, hf, hlist⟩ := hnone
    rw [Environment.length_paramsOf_of_mem (h.sameShape hfit) hf hlist,
      Environment.length_paramsOf_of_mem (h'.sameShape hfit') ((hmem f).1 hf) hlist]

theorem globals_of_perm (name : String) :
    m.env.globals.get? name = m'.env.globals.get? name := by
  have hglobals : (m.env.globalsOf name).Perm (m'.env.globalsOf name) := by
    rw [h.globals, h'.globals]
    exact hperm.flatMap_right _
  rw [Environment.globalsOf, Environment.globalsOf] at hglobals
  cases hget : m.env.globals.get? name with
  | none =>
    rw [hget] at hglobals
    cases hget' : m'.env.globals.get? name with
    | none => rfl
    | some g =>
      rw [hget'] at hglobals
      exact absurd hglobals.nil_eq (List.cons_ne_nil _ _).symm
  | some f =>
    rw [hget] at hglobals
    have heq := List.singleton_perm.1 hglobals
    exact (Option.mem_toList.1 (heq ▸ List.mem_singleton_self f)).symm

/-- What is stored is the same up to the order of fragments. -/
theorem sameOutline (hfit : ps.Pairwise Placement.Fits) (hfit' : ps'.Pairwise Placement.Fits) :
    m.env.SameOutline m'.env := by
  have hkind := kind?_of_perm h h' hperm hfit hfit'
  refine ⟨fun name => ?_, hkind, length_paramsOf_of_perm h h' hperm hfit hfit',
    fun name => (perm_fragmentsOf h h' hperm name).length_eq, globals_of_perm h h' hperm⟩
  rw [Environment.mem_names_iff, Environment.mem_names_iff, hkind]

/-- The superclasses of reopened classes are the same up to their order. -/
theorem superClassConflicts_of_perm (hfit : ps.Pairwise Placement.Fits)
    (hfit' : ps'.Pairwise Placement.Fits) (hnodup : m.env.names.Nodup)
    (hnodup' : m'.env.names.Nodup) (hnone : allSuperClassConflicts m.env = []) :
    allSuperClassConflicts m'.env = [] := by
  have hkind := kind?_of_perm h h' hperm hfit hfit'
  have hsuper : m.env.resolvedSuper? = m'.env.resolvedSuper? := funext fun f => by
    rw [Environment.resolvedSuper?, Environment.resolvedSuper?]
    simp only [Environment.resolve?_congr hkind]
  rw [allSuperClassConflicts_eq_nil_iff hnodup] at hnone
  rw [allSuperClassConflicts_eq_nil_iff hnodup', ← hsuper]
  intro name hklass
  have hperm' := (perm_fragmentsOf h h' hperm name).filterMap m.env.resolvedSuper?
  exact (hperm'.pairwise_iff Eq.symm).1 (hnone name ((hkind name).trans hklass))

end Permuted

end Merge.Stores

/-! ## Permuted sources -/

namespace Environment

theorem kind?_adoptTypeParams (env : Environment) (name : TypeName) :
    (adoptTypeParams env).kind? name = env.kind? name := by
  rw [kind?, get?_adoptTypeParams, kind?, Option.map_map]
  exact congrArg (fun kind => (env.get? name).map kind) (funext kind_adoptEntry)

theorem paramsOf_adoptTypeParams (env : Environment) (name : TypeName) :
    (adoptTypeParams env).paramsOf name = env.paramsOf name := by
  rw [paramsOf, get?_adoptTypeParams, paramsOf, Option.map_map]
  exact congrArg (fun params => ((env.get? name).map params).getD [])
    (funext typeParams_adoptEntry)

/-- Letting fragments see the type parameters of their entities changes no outline. -/
theorem SameOutline.adopt {env env' : Environment} (h : env.SameOutline env') :
    (adoptTypeParams env).SameOutline (adoptTypeParams env') := by
  refine ⟨fun name => ?_, fun name => ?_, fun name => ?_, fun name => ?_, h.globals⟩
  · rw [names_adoptTypeParams, names_adoptTypeParams, h.names]
  · rw [kind?_adoptTypeParams, kind?_adoptTypeParams, h.kinds]
  · rw [paramsOf_adoptTypeParams, paramsOf_adoptTypeParams, h.arity]
  · rw [fragmentsOf_adoptTypeParams, fragmentsOf_adoptTypeParams, List.length_map, List.length_map,
      h.fragments]

end Environment

theorem mergeSources_eq_nil_iff (sources : ParsedSources) : (mergeSources sources).2 = [] ↔
    (insertSources sources).conflicts = [] ∧
      allSuperClassConflicts (insertSources sources).env = [] :=
  List.append_eq_nil_iff

/-- Sources that merge without a conflict do so in every order. -/
theorem mergeSources_of_perm {sources sources' : ParsedSources} (hperm : sources.Perm sources')
    (hnone : (mergeSources sources).2 = []) : (mergeSources sources').2 = [] ∧
      (mergeSources sources).1.SameOutline (mergeSources sources').1 := by
  have hplaced : (sources.flatMap fun s => placements s.1 s.2).Perm
      (sources'.flatMap fun s => placements s.1 s.2) := hperm.flatMap_right _
  have hnodup : ∀ sources, (insertSources sources).env.names.Nodup :=
    fun sources => Merge.nodup_keys_insertAll (m := Merge.empty) List.nodup_nil _
  have hrun := fun sources : ParsedSources => Merge.stores_empty.insertAll List.Pairwise.nil rfl
    (sources.flatMap fun s => placements s.1 s.2)
  obtain ⟨hinsert, hsuper⟩ := (mergeSources_eq_nil_iff sources).1 hnone
  have hfit := (hrun sources).1.1 hinsert
  have hfit' := (hplaced.pairwise_iff Placement.Fits.symm).1 hfit
  have hinsert' : (insertSources sources').conflicts = [] := (hrun sources').1.2 hfit'
  have hstores := (hrun sources).2 hinsert
  have hstores' := (hrun sources').2 hinsert'
  have hsuper' := hstores.superClassConflicts_of_perm hstores' hplaced hfit hfit' (hnodup sources)
    (hnodup sources') hsuper
  exact ⟨(mergeSources_eq_nil_iff sources').2 ⟨hinsert', hsuper'⟩,
    (hstores.sameOutline hstores' hplaced hfit hfit').adopt⟩

/-- Conflict-freedom does not depend on the load order.  Sources merge without a conflict in every
order or in none; and without a conflict the same absolute names are declared, each with the same
kind and as many type parameters and fragments, and the same global variables. -/
theorem mergeSources_loadOrder {sources sources' : List (SourceId × List Declaration)}
    (hperm : sources.Perm sources') :
    ((mergeSources sources).2 = [] ↔ (mergeSources sources').2 = []) ∧
      ((mergeSources sources).2 = [] →
        (mergeSources sources).1.SameOutline (mergeSources sources').1) :=
  ⟨⟨fun h => (mergeSources_of_perm hperm h).1,
    fun h => (mergeSources_of_perm hperm.symm h).1⟩,
    fun h => (mergeSources_of_perm hperm h).2⟩

/-- Two texts that declare a class together, each with a parameter list and the superclass. -/
def cupTexts : List (SourceId × Source) :=
  [(0, .ofFile "a.rbs" "class Base\nend\n\nclass Cup[T] < Base\nend\n\n$count: untyped\n"),
    (1, .ofFile "b.rbs" "class Cup[S] < ::Base\n  class Lid\n  end\nend\n")]

set_option maxRecDepth 100000 in
/-- The texts merge without a conflict, and so they do the other way round. -/
theorem cup_loadOrder : ∃ parsed errors, parseSources .unlimited cupTexts = .ok (parsed, errors) ∧
    ((mergeSources parsed).1.fragmentsOf (.topLevel "Cup")).length = 2 ∧
    (mergeSources parsed).2 = [] ∧ (mergeSources parsed.reverse).2 = [] ∧
    (mergeSources parsed).1.SameOutline (mergeSources parsed.reverse).1 := by
  obtain ⟨⟨parsed, errors⟩, hparse, hmerged⟩ := exists_ok_of_any
    (parseSources .unlimited cupTexts)
    (fun p => ((mergeSources p.1).1.fragmentsOf (.topLevel "Cup")).length = 2 &&
      (mergeSources p.1).2.isEmpty) (by decide +kernel)
  simp only [Bool.and_eq_true, decide_eq_true_eq, List.isEmpty_iff] at hmerged
  obtain ⟨hfragments, hnone⟩ := hmerged
  obtain ⟨hiff, hsame⟩ := mergeSources_loadOrder (List.reverse_perm parsed).symm
  exact ⟨parsed, errors, hparse, hfragments, hnone, hiff.1 hnone, hsame hnone⟩

end RubySig
