import RubySig.Proofs.Ancestry.Recursion
import RubySig.Proofs.Resolution
import RubySig.Validation

/-!
# The pieces of a chain

What the chain of a side of an entity is put together from, told once for all kinds of entities.

* `Blueprint.splices`: the places where other chains are put in.
* `Environment.mixinSplice?_eq_some`: a directive puts in its target, if the target is one that the
  directive accepts.
* `Environment.PieceOf`: a splice on a side of an entity, by what it is put in for.
* `Environment.Pieces`: the entity's own entry, and exactly these splices around it.
* `Environment.pieces_of_blueprint`: every blueprint is made of the pieces of its side.
* `Environment.keys_tail_of_superClass`: the chain of a class ends with that of its superclass.
* `Environment.exists_entryBlueprint`: every side that has methods has a blueprint.
-/

namespace RubySig

/-- All places where another chain is put in. -/
def Blueprint.splices (b : Blueprint) : List Splice := b.front ++ b.behind ++ b.tail

theorem Blueprint.key_mem_keys {b : Blueprint} {s : Splice} (h : s ∈ b.splices) : s.key ∈ b.keys :=
  List.mem_map_of_mem h

theorem key_ownEntry (e : Entry) (context : Context) :
    (ownEntry e context).key = ⟨e.name, context⟩ := by
  cases context <;> rfl

/-! ## Directives -/

/-- The side of an entity whose chain a directive adds to. -/
def MixinKind.side : MixinKind → Context
  | included | prepended => .onInstance
  | extended => .onSingleton

theorem mem_mixins_iff {b : Body} {directive : MixinKind} {m : Mixin} :
    m ∈ b.mixins directive ↔ Member.mixin m ∈ b.members ∧ m.kind = directive := by
  rw [Body.mixins, List.mem_filterMap]
  constructor
  · rintro ⟨member, hmember, hm⟩
    cases member with
    | mixin n =>
      dsimp only at hm
      split at hm
      · obtain rfl := Option.some.inj hm
        exact ⟨hmember, ‹_›⟩
      · cases hm
    | _ => cases hm
  · rintro ⟨hmember, hkind⟩
    exact ⟨_, hmember, if_pos hkind⟩

/-- Interfaces neither prepend anything nor extend an object of their own. -/
theorem eq_included_of_mixinAllowed {directive : MixinKind} {target : EntityKind}
    (h : mixinAllowed .interface directive target) : directive = .included := by
  cases directive with
  | included => rfl
  | extended | prepended => cases h

namespace Environment

variable {env : Environment} {e : Entry} {context : Context} {b : Blueprint} {s : Splice}

theorem mixinSplice?_eq_some {b : Body} {m : Mixin} (h : env.mixinSplice? e b m = some s) :
    ∃ target kind, env.resolve m.target.name b.nesting .asType = .ok target ∧
      env.kind? target = some kind ∧ mixinAllowed e.kind m.kind kind ∧
      s = ⟨⟨target, .onInstance⟩,
        env.bindArgs target (env.siteArgs e b.typeParams b.nesting m.target.args),
        mixinOrigin m.kind kind⟩ := by
  rw [mixinSplice?] at h
  split at h
  · cases h
  · rename_i target hresolve
    split at h
    · cases h
    · rename_i kind hkind
      split at h
      · exact ⟨target, kind, resolve?_eq_some_iff.1 hresolve, hkind, ‹_›, (Option.some.inj h).symm⟩
      · cases h

/-- What a directive puts in. -/
theorem exists_of_mem_mixinSplices {directive : MixinKind} (h : s ∈ env.mixinSplices e directive) :
    ∃ b ∈ e.bodies, ∃ m, Member.mixin m ∈ b.members ∧ m.kind = directive ∧
      env.mixinSplice? e b m = some s := by
  obtain ⟨b, hb, hs⟩ := List.mem_flatMap.1 h
  obtain ⟨m, hm, hs⟩ := List.mem_filterMap.1 hs
  obtain ⟨hmember, hkind⟩ := mem_mixins_iff.1 hm
  exact ⟨b, hb, m, hmember, hkind, hs⟩

theorem mixinSplices_of_interface {directive : MixinKind} (hkind : e.kind = .interface)
    (hdirective : directive ≠ .included) : env.mixinSplices e directive = [] := by
  refine List.eq_nil_iff_forall_not_mem.2 fun s hs => ?_
  obtain ⟨b, -, m, -, rfl, hsplice⟩ := exists_of_mem_mixinSplices hs
  obtain ⟨target, kind, -, -, hallowed, -⟩ := mixinSplice?_eq_some hsplice
  exact hdirective (eq_included_of_mixinAllowed (hkind ▸ hallowed))

/-! ## Pieces of a side -/

/-- A splice in the chain of one side of an entity, by what it is put in for. -/
inductive PieceOf (env : Environment) (e : Entry) (context : Context) (s : Splice) : Prop
  /-- A directive in one of the entity's bodies. -/
  | mixin {directive : MixinKind} (hside : directive.side = context)
      (h : s ∈ env.mixinSplices e directive)
  /-- The superclass of a class. -/
  | superClass (hkind : e.kind = .klass) (hside : context = .onInstance)
      (h : s ∈ env.superClassSplices e)
  /-- The object of the superclass, or the class of which the object of a class is an instance. -/
  | singletonSuper (hkind : e.kind = .klass) (hside : context = .onSingleton)
      (h : s ∈ env.singletonSuperSplices e)
  /-- The class of which the object of a module is an instance. -/
  | moduleClass (hkind : e.kind = .module) (hside : context = .onSingleton)
      (h : s ∈ env.metaclassSplices "Module")

theorem pieceOf_onInstance_iff :
    env.PieceOf e .onInstance s ↔
      s ∈ env.mixinSplices e .prepended ∨ s ∈ env.mixinSplices e .included ∨
        e.kind = .klass ∧ s ∈ env.superClassSplices e := by
  constructor
  · intro h
    cases h with
    | @mixin directive hside h =>
      cases directive with
      | prepended => exact Or.inl h
      | included => exact Or.inr (Or.inl h)
      | extended => cases hside
    | superClass hkind _ h => exact Or.inr (Or.inr ⟨hkind, h⟩)
    | singletonSuper _ hside _ | moduleClass _ hside _ => cases hside
  · rintro (h | h | ⟨hkind, h⟩)
    · exact .mixin rfl h
    · exact .mixin rfl h
    · exact .superClass hkind rfl h

theorem pieceOf_onSingleton_iff :
    env.PieceOf e .onSingleton s ↔
      s ∈ env.mixinSplices e .extended ∨
        e.kind = .klass ∧ s ∈ env.singletonSuperSplices e ∨
        e.kind = .module ∧ s ∈ env.metaclassSplices "Module" := by
  constructor
  · intro h
    cases h with
    | @mixin directive hside h =>
      cases directive with
      | extended => exact Or.inl h
      | prepended | included => cases hside
    | superClass _ hside _ => cases hside
    | singletonSuper hkind _ h => exact Or.inr (Or.inl ⟨hkind, h⟩)
    | moduleClass hkind _ h => exact Or.inr (Or.inr ⟨hkind, h⟩)
  · rintro (h | ⟨hkind, h⟩ | ⟨hkind, h⟩)
    · exact .mixin rfl h
    · exact .singletonSuper hkind rfl h
    · exact .moduleClass hkind rfl h

/-- A blueprint is made of the pieces of a side: the entity's own entry, exactly the splices of the
side, and in front only what the entity prepends. -/
structure Pieces (env : Environment) (e : Entry) (context : Context) (b : Blueprint) : Prop where
  side : context ∈ sides e.kind
  own : b.own = ownEntry e context
  splices : ∀ s, s ∈ b.splices ↔ env.PieceOf e context s
  front : ∀ s ∈ b.front, context = .onInstance ∧ s ∈ env.mixinSplices e .prepended

theorem pieces_of_entryBlueprint (h : env.entryBlueprint e context = .ok b) :
    env.Pieces e context b := by
  have hnone : ∀ s ∈ ([] : List Splice), context = .onInstance ∧
      s ∈ env.mixinSplices e .prepended := fun _ hs => absurd hs List.not_mem_nil
  have hmixins : ∀ {directive}, e.kind = .interface → directive ≠ .included →
      env.mixinSplices e directive = [] := mixinSplices_of_interface
  unfold entryBlueprint at h
  cases hkind : e.kind <;> cases context <;> rw [hkind] at h <;> cases h
  · refine ⟨by simp [hkind, sides], rfl, fun s => ?_, fun s hs => ⟨rfl, hs⟩⟩
    simp [Blueprint.splices, pieceOf_onInstance_iff, hkind]
  · refine ⟨by simp [hkind, sides], rfl, fun s => ?_, hnone⟩
    simp [Blueprint.splices, pieceOf_onSingleton_iff, hkind]
  · refine ⟨by simp [hkind, sides], rfl, fun s => ?_, fun s hs => ⟨rfl, hs⟩⟩
    simp [Blueprint.splices, pieceOf_onInstance_iff, hkind]
  · refine ⟨by simp [hkind, sides], rfl, fun s => ?_, hnone⟩
    simp [Blueprint.splices, pieceOf_onSingleton_iff, hkind]
  · refine ⟨by simp [hkind, sides], rfl, fun s => ?_, hnone⟩
    simp [Blueprint.splices, pieceOf_onInstance_iff, hkind, hmixins]

theorem pieces_of_blueprint {key : ChainKey} (h : env.blueprint key = .ok b) :
    ∃ e, env.get? key.name = some e ∧ env.Pieces e key.context b := by
  obtain ⟨e, he, hb⟩ := env.get?_of_blueprint h
  exact ⟨e, he, pieces_of_entryBlueprint hb⟩

/-- The chain of a class ends with that of its superclass on the same side. -/
theorem keys_tail_of_superClass {super : TypeName} {args : List TypeExpr} (hkind : e.kind = .klass)
    (hsuper : env.superClass? e = some (super, args)) (h : env.entryBlueprint e context = .ok b) :
    b.tail.map (·.key) = [⟨super, context⟩] := by
  cases context <;> simp only [entryBlueprint, hkind, Except.ok.injEq] at h <;> subst h
  · simp only [superClassSplices, hsuper, List.map_cons, List.map_nil]
  · simp only [singletonSuperSplices, hsuper, List.map_cons, List.map_nil]

/-- What is put in around an entity is mixed in. -/
theorem mem_mixinSplices_of_around (h : env.entryBlueprint e context = .ok b)
    (hs : s ∈ b.front ++ b.behind) : ∃ directive, s ∈ env.mixinSplices e directive := by
  unfold entryBlueprint at h
  cases hkind : e.kind <;> cases context <;> rw [hkind] at h <;> cases h <;>
    rcases List.mem_append.1 hs with hs | hs <;> first | exact ⟨_, hs⟩ | cases hs

/-- Every side that has methods has a blueprint. -/
theorem exists_entryBlueprint (h : context ∈ sides e.kind) :
    ∃ b, env.entryBlueprint e context = .ok b := by
  unfold entryBlueprint
  generalize e.kind = kind at h ⊢
  cases kind <;> cases context <;> first | exact ⟨_, rfl⟩ | exact absurd h (by decide)

end Environment

end RubySig
