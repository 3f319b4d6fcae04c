import RubySig.Proofs.Ancestry.Reach

/-!
# The line of superclasses

The two chains of a class are built from different directives, and the singleton chain goes on with
instance chains of classes in the end. But what they inherit is the same line: the class, its
superclass, the superclass of that, and so on. On the instance side these are the classes of the
chain, since modules and interfaces never bring one in, and on the singleton side they are the
entries on that side, since instance chains have none.

* `dedupeEntries_filter`: dropping repeated keys drops none of those that are not repeated.
* `Environment.LeadsTo.kind_of_closed`: what an instance side leads to is of a kind that mixing in
  does not leave.
* `Environment.SuperLine`: a class and its successive superclasses.
* `Environment.exists_superLine_of_chain`: each chain of a class holds its line in order.
* `Environment.chains_parallel`: the two hold the same line.
-/

namespace RubySig

/-! ## Keys that are not repeated -/

/-- Dropping repeated keys drops none of those that are kept apart, if these are not repeated. -/
theorem dedupeEntries_filter {p : ChainKey → Bool} {seen : List ChainKey}
    {entries : List AncestorEntry} (hnodup : ((entries.map (·.key)).filter p).Nodup)
    (hfresh : ∀ k ∈ seen, k ∉ (entries.map (·.key)).filter p) :
    ((dedupeEntries seen entries).map (·.key)).filter p = (entries.map (·.key)).filter p := by
  induction entries generalizing seen with
  | nil => rfl
  | cons e rest ih =>
    rw [List.map_cons, List.filter_cons] at hnodup hfresh ⊢
    rw [dedupeEntries]
    by_cases hp : p e.key
    · rw [if_pos hp] at hnodup hfresh ⊢
      obtain ⟨hnot, hrest⟩ := List.nodup_cons.1 hnodup
      have hseen : e.key ∉ seen := fun hmem => hfresh _ hmem List.mem_cons_self
      rw [if_neg hseen, List.map_cons, List.filter_cons, if_pos hp]
      refine congrArg (e.key :: ·) (ih hrest ?_)
      exact List.forall_mem_cons.2
        ⟨hnot, fun k hk hmem => hfresh k hk (List.mem_cons_of_mem _ hmem)⟩
    · rw [if_neg hp] at hnodup hfresh ⊢
      split
      · exact ih hnodup hfresh
      · rw [List.map_cons, List.filter_cons, if_neg hp]
        refine ih hnodup (List.forall_mem_cons.2 ⟨fun hmem => hp ?_, hfresh⟩)
        exact (List.mem_filter.1 hmem).2

theorem keys_expand (s : Splice) (c : Chain) :
    (s.expand c).map (·.key) = c.entries.map (·.key) := by
  rw [Splice.expand, List.map_map]
  rfl

/-- If nothing around an entity brings in a key that is kept apart, these keys are those of the
entity and of the end of its chain. -/
theorem Blueprint.keys_join_filter {b : Blueprint} {chainOf : ChainKey → Chain}
    {p : ChainKey → Bool}
    (haround : ∀ s ∈ b.front ++ b.behind, ∀ k ∈ (chainOf s.key).entries.map (·.key), ¬ p k)
    (hnodup : ((b.own.key :: b.tail.flatMap fun s =>
      (chainOf s.key).entries.map (·.key)).filter p).Nodup) :
    ((b.join chainOf).map (·.key)).filter p =
      (b.own.key :: b.tail.flatMap fun s => (chainOf s.key).entries.map (·.key)).filter p := by
  have hflatten : ∀ splices : List Splice,
      ((splices.map fun s => s.expand (chainOf s.key)).flatten).map (·.key) =
        splices.flatMap fun s => (chainOf s.key).entries.map (·.key) := by
    intro splices
    rw [← List.flatMap_def, List.map_flatMap]
    exact List.flatMap_congr fun s _ => keys_expand s _
  have hnone : ∀ splices : List Splice, (∀ s ∈ splices, s ∈ b.front ++ b.behind) →
      (((splices.map fun s => s.expand (chainOf s.key)).flatten).map (·.key)).filter p = [] := by
    intro splices hsub
    rw [hflatten, List.filter_eq_nil_iff]
    intro k hk
    obtain ⟨s, hs, hk⟩ := List.mem_flatMap.1 hk
    exact haround s (hsub s hs) k hk
  have hkeys : ((((b.front.map fun s => s.expand (chainOf s.key)).flatten ++
      b.own :: ((b.behind.map fun s => s.expand (chainOf s.key)).reverse.flatten ++
        (b.tail.map fun s => s.expand (chainOf s.key)).flatten)).map (·.key)).filter p) =
      (b.own.key :: b.tail.flatMap fun s => (chainOf s.key).entries.map (·.key)).filter p := by
    rw [List.map_append, List.map_cons, List.map_append, List.filter_append, ← List.map_reverse,
      hnone _ fun s => List.mem_append_left _, List.nil_append, List.filter_cons, List.filter_cons,
      List.filter_append, hnone _ fun s hs => List.mem_append_right _ (List.mem_reverse.1 hs),
      List.nil_append, hflatten]
  rw [join, ← hkeys]
  refine dedupeEntries_filter ?_ fun k hk => absurd hk List.not_mem_nil
  rw [hkeys]
  exact hnodup

namespace Environment

variable {env : Environment}

/-! ## Kinds -/

/-- What an instance side leads to is of a kind that mixing in does not leave, unless that is the
kind of classes. -/
theorem LeadsTo.kind_of_closed (kinds : EntityKind → Prop) (hclass : ¬ kinds .klass)
    (hclosed : ∀ owner directive target, kinds owner → mixinAllowed owner directive target →
      kinds target) {key k : ChainKey} (h : env.LeadsTo key k) (hside : key.context = .onInstance)
    (hkey : ∃ kind, env.kind? key.name = some kind ∧ kinds kind) :
    ∃ kind, env.kind? k.name = some kind ∧ kinds kind := by
  induction h with
  | refl => exact hkey
  | @tail near far hpath hedge ih =>
    obtain ⟨kind, hkind, hnear⟩ := ih
    have hinstance := LeadsTo.onInstance hpath hside
    have hentry : ∀ {e}, env.get? near.name = some e → e.kind = kind := by
      intro e he
      rw [kind?, he] at hkind
      exact Option.some.inj hkind
    cases hedge with
    | mixin he hmixes =>
      obtain ⟨b, -, m, -, -, -, target, htarget, hallowed⟩ := hmixes
      exact ⟨target, htarget, hclosed _ _ _ (hentry he ▸ hnear) hallowed⟩
    | superClass he hklass _ => exact absurd (hklass ▸ hentry he ▸ hnear) hclass
    | classObject _ _ _ _ => cases hinstance
    | moduleObject _ _ _ => cases hinstance

/-- Nothing but modules and interfaces is mixed in. -/
theorem ne_klass_of_mixinAllowed {owner target : EntityKind} {directive : MixinKind}
    (h : mixinAllowed owner directive target) : target ≠ .klass := by
  rintro rfl
  revert h
  cases owner <;> cases directive <;> decide

/-- Nothing but interfaces is mixed into an interface. -/
theorem eq_interface_of_mixinAllowed {target : EntityKind} {directive : MixinKind}
    (h : mixinAllowed .interface directive target) : target = .interface := by
  revert h
  cases directive <;> cases target <;> decide

/-- The instance side of a module or interface leads to no class. -/
theorem LeadsTo.not_isClass {key k : ChainKey} (h : env.LeadsTo key k)
    (hside : key.context = .onInstance) {kind : EntityKind} (hkind : env.kind? key.name = some kind)
    (hne : kind ≠ .klass) : ¬ env.isClass k.name := by
  obtain ⟨far, hfar, hother⟩ := h.kind_of_closed (· ≠ .klass) (fun h => h rfl)
    (fun _ _ _ _ => ne_klass_of_mixinAllowed) hside ⟨kind, hkind, hne⟩
  rw [isClass, hfar, beq_iff_eq]
  exact fun heq => hother (Option.some.inj heq)

/-! ## The line -/

/-- A class and its successive superclasses, up to one that has none. -/
inductive SuperLine (env : Environment) : TypeName → List TypeName → Prop
  | last {name : TypeName} {e : Entry} (he : env.get? name = some e) (hkind : e.kind = .klass)
      (hroot : env.superClass? e = none) : SuperLine env name [name]
  | next {name : TypeName} {e : Entry} {super : TypeName} {args : List TypeExpr}
      {line : List TypeName} (he : env.get? name = some e) (hkind : e.kind = .klass)
      (hsuper : env.superClass? e = some (super, args)) (hline : SuperLine env super line) :
      SuperLine env name (name :: line)

/-- A class has one line. -/
theorem SuperLine.unique {name : TypeName} {line line' : List TypeName}
    (h : env.SuperLine name line) (h' : env.SuperLine name line') : line = line' := by
  induction h generalizing line' with
  | last he _ hroot =>
    cases h' with
    | last _ _ _ => rfl
    | next he' _ hsuper _ =>
      obtain rfl := Option.some.inj (he.symm.trans he')
      rw [hroot] at hsuper
      cases hsuper
  | next he _ hsuper _ ih =>
    cases h' with
    | last he' _ hroot =>
      obtain rfl := Option.some.inj (he.symm.trans he')
      rw [hsuper] at hroot
      cases hroot
    | next he' _ hsuper' hline' =>
      obtain rfl := Option.some.inj (he.symm.trans he')
      obtain ⟨rfl, -⟩ := Prod.mk.inj (Option.some.inj (hsuper.symm.trans hsuper'))
      exact congrArg (_ :: ·) (ih hline')

/-- What a chain holds of the line: classes on the instance side, and on the singleton side
whatever is on that side. -/
def onLine (env : Environment) : Context → ChainKey → Bool
  | .onInstance, k => env.isClass k.name
  | .onSingleton, k => k.context = .onSingleton

/-- What is mixed in on either side brings in nothing that belongs to the line. -/
theorem not_onLine_of_around (henv : env.Anchored) {e : Entry} {context : Context} {b : Blueprint}
    (hb : env.entryBlueprint e context = .ok b) {s : Splice} (hs : s ∈ b.front ++ b.behind)
    {c : Chain} (hc : env.chain [] s.key = .ok c) {k : ChainKey}
    (hk : k ∈ c.entries.map (·.key)) : ¬ env.onLine context k := by
  obtain ⟨directive, hmem⟩ := mem_mixinSplices_of_around hb hs
  obtain ⟨b', -, m, -, -, hsplice⟩ := exists_of_mem_mixinSplices hmem
  obtain ⟨target, kind, -, hkind, hallowed, rfl⟩ := mixinSplice?_eq_some hsplice
  have hleads := (mem_keys_iff_leadsTo henv hc).1 hk
  cases context with
  | onInstance => exact hleads.not_isClass rfl hkind (ne_klass_of_mixinAllowed hallowed)
  | onSingleton =>
    rw [onLine, hleads.onInstance rfl]
    decide

/-- The chain of a class without a superclass ends, or it goes on with an instance side. -/
theorem tail_of_root {e : Entry} {context : Context} {b : Blueprint} (hkind : e.kind = .klass)
    (hroot : env.superClass? e = none) (h : env.entryBlueprint e context = .ok b) {s : Splice}
    (hs : s ∈ b.tail) : context = .onSingleton ∧ s.key.context = .onInstance := by
  cases context <;> simp only [entryBlueprint, hkind, Except.ok.injEq] at h <;> subst h
  · simp only [superClassSplices, hroot] at hs
    cases hs
  · simp only [singletonSuperSplices, hroot, metaclassSplices] at hs
    split at hs
    · rw [List.mem_singleton.1 hs]
      exact ⟨rfl, rfl⟩
    · cases hs

/-- The superclass of a class is a class. -/
theorem isClass_of_superClass {e : Entry} {super : TypeName} {args : List TypeExpr}
    (h : env.superClass? e = some (super, args)) : env.isClass super :=
  (superClass?_eq_some h).1

/-- Behind a class without a superclass nothing belongs to the line. -/
theorem not_onLine_of_root (henv : env.Anchored) {e : Entry} {context : Context} {b : Blueprint}
    (hkind : e.kind = .klass) (hroot : env.superClass? e = none)
    (hb : env.entryBlueprint e context = .ok b) {s : Splice} (hs : s ∈ b.tail) {c : Chain}
    (hc : env.chain [] s.key = .ok c) {k : ChainKey} (hk : k ∈ c.entries.map (·.key)) :
    ¬ env.onLine context k := by
  obtain ⟨hside, hinstance⟩ := tail_of_root hkind hroot hb hs
  rw [hside, onLine, ((mem_keys_iff_leadsTo henv hc).1 hk).onInstance hinstance]
  decide

/-- A chain does not come back in the chain of a splice. -/
theorem own_not_mem_of_chain (henv : env.Anchored) {key : ChainKey} {b : Blueprint} {c : Chain}
    (hb : env.blueprint key = .ok b) (h : env.chain [] key = .ok c) {s : Splice}
    (hs : s ∈ b.splices) {d : Chain} (hd : env.chain [] s.key = .ok d) :
    b.own.key ∉ d.entries.map (·.key) := by
  rw [mem_keys_iff_leadsTo henv hd, ← reaches_eq_leadsTo, own_key_of_blueprint henv hb]
  refine not_reaches_of_chain_ok h ((env.depends_iff_of_blueprint hb).2 ?_)
  exact Blueprint.key_mem_keys hs

/-- Each chain of a class holds its line, in order and nothing else of the kind. -/
theorem exists_superLine_of_chain (henv : env.Anchored) {key : ChainKey} {c : Chain}
    (h : env.chain [] key = .ok c) (hclass : env.isClass key.name) :
    ∃ line, env.SuperLine key.name line ∧
      ((c.entries.map (·.key)).filter (env.onLine key.context)).map (·.name) = line := by
  induction h using chainOkInduction with
  | step key b chainOf hb hparts hchain =>
    obtain ⟨e, he, hblueprint⟩ := env.get?_of_blueprint hb
    have hkind : e.kind = .klass := by
      obtain ⟨e', he', hkind⟩ := isClass_iff.1 hclass
      obtain rfl := Option.some.inj (he.symm.trans he')
      exact hkind
    have hpart : ∀ s ∈ b.splices, env.chain [] s.key = .ok (chainOf s.key) := fun s hs =>
      (hparts s.key (Blueprint.key_mem_keys hs)).1
    have haround : ∀ s ∈ b.front ++ b.behind, ∀ k ∈ (chainOf s.key).entries.map (·.key),
        ¬ env.onLine key.context k := fun s hs k hk =>
      not_onLine_of_around henv hblueprint hs (hpart s (List.mem_append_left _ hs)) hk
    have hown := own_key_of_blueprint henv hb
    have hownLine : env.onLine key.context b.own.key := by
      rw [hown]
      obtain ⟨name, context⟩ := key
      cases context with
      | onInstance => exact hclass
      | onSingleton => rfl
    cases hsuper : env.superClass? e with
    | none =>
      have htail : ∀ k ∈ b.tail.flatMap (fun s => (chainOf s.key).entries.map (·.key)),
          ¬ env.onLine key.context k := by
        intro k hk
        obtain ⟨s, hs, hk⟩ := List.mem_flatMap.1 hk
        exact not_onLine_of_root henv hkind hsuper hblueprint hs
          (hpart s (List.mem_append_right _ hs)) hk
      have hline : (b.own.key :: b.tail.flatMap fun s =>
          (chainOf s.key).entries.map (·.key)).filter (env.onLine key.context) = [b.own.key] := by
        rw [List.filter_cons, if_pos hownLine, List.filter_eq_nil_iff.2 htail]
      refine ⟨[key.name], .last he hkind hsuper, ?_⟩
      dsimp only
      rw [Blueprint.keys_join_filter haround (hline ▸ List.nodup_singleton _), hline, hown]
      rfl
    | some found =>
      obtain ⟨super, args⟩ := found
      obtain ⟨s, htail, hkey⟩ :=
        List.map_eq_singleton_iff.1 (keys_tail_of_superClass hkind hsuper hblueprint)
      have hs : s ∈ b.splices := List.mem_append_right _ (htail ▸ List.mem_singleton_self s)
      obtain ⟨hsuperChain, ih⟩ := hparts s.key (Blueprint.key_mem_keys hs)
      have hfresh := own_not_mem_of_chain henv hb hchain hs hsuperChain
      rw [hkey] at hsuperChain ih hfresh
      obtain ⟨line, hline, hkeys⟩ := ih (isClass_of_superClass hsuper)
      have hsole : b.tail.flatMap (fun s => (chainOf s.key).entries.map (·.key)) =
          (chainOf ⟨super, key.context⟩).entries.map (·.key) := by
        rw [htail, List.flatMap_singleton, hkey]
      have hnodup := List.nodup_cons.2 ⟨hfresh, nodup_keys_of_chain hsuperChain⟩
      refine ⟨key.name :: line, .next he hkind hsuper hline, ?_⟩
      dsimp only
      rw [Blueprint.keys_join_filter haround (hsole ▸ hnodup.filter _), hsole, List.filter_cons,
        if_pos hownLine, List.map_cons, hown, hkeys]

end Environment

/-! ## Every environment -/

/-- The classes of the instance chain of a class are the class and its successive superclasses, and
these are in the same order the entries on the singleton side of its singleton chain.  The instance
chain of a module holds no class, and that of an interface nothing but interfaces. -/
theorem Environment.chains_parallel {sources : List (SourceId × List Declaration)} {name : TypeName}
    {c : Chain} (hc : (mergeSources sources).1.ancestors ⟨name, .onInstance⟩ = .ok c) :
    (∀ d, (mergeSources sources).1.kind? name = some .klass →
      (mergeSources sources).1.ancestors ⟨name, .onSingleton⟩ = .ok d →
      ∃ line, (mergeSources sources).1.SuperLine name line ∧
        (c.entries.filter fun a => (mergeSources sources).1.isClass a.name).map (·.name) = line ∧
        (d.entries.filter fun a => a.context = .onSingleton).map (·.name) = line) ∧
    ((mergeSources sources).1.kind? name = some .module →
      ∀ a ∈ c.entries, ¬ (mergeSources sources).1.isClass a.name) ∧
    ((mergeSources sources).1.kind? name = some .interface →
      ∀ a ∈ c.entries, (mergeSources sources).1.kind? a.name = some .interface) := by
  have henv := mergeSources_anchored sources
  rw [ancestors_eq_chain] at hc
  have hleads : ∀ a ∈ c.entries, (mergeSources sources).1.LeadsTo ⟨name, .onInstance⟩ a.key :=
    fun a ha => (mem_keys_iff_leadsTo henv hc).1 (List.mem_map_of_mem ha)
  refine ⟨fun d hclass hd => ?_, fun hmodule a ha => ?_, fun hinterface a ha => ?_⟩
  · rw [ancestors_eq_chain] at hd
    have hisClass : (mergeSources sources).1.isClass name := by
      rw [isClass, hclass]
      decide
    obtain ⟨line, hline, hinstance⟩ := exists_superLine_of_chain henv hc hisClass
    obtain ⟨line', hline', hsingleton⟩ := exists_superLine_of_chain henv hd hisClass
    obtain rfl := hline.unique hline'
    refine ⟨line, hline, ?_, ?_⟩
    · rw [← hinstance, List.filter_map, List.map_map]
      rfl
    · rw [← hsingleton, List.filter_map, List.map_map]
      rfl
  · exact (hleads a ha).not_isClass rfl hmodule (by decide)
  · obtain ⟨kind, hkind, rfl⟩ := (hleads a ha).kind_of_closed (· = .interface) (by decide)
      (fun _ _ _ howner hallowed => eq_interface_of_mixinAllowed (howner ▸ hallowed)) rfl
      ⟨_, hinterface, rfl⟩
    exact hkind

/-- A class that inherits from `::Object` through another one, with a module and an interface mixed
in on both sides. -/
def branchSetup : SessionSetup :=
  .ofFile "a.rbs" ("class Object\nend\n\nclass Class\nend\n\ninterface _Shape\nend\n\n" ++
    "module Tools\n  include _Shape\nend\n\nclass Base\n  include _Shape\nend\n\n" ++
    "class Leaf < Base\n  prepend Tools\n  extend Tools\nend\n")

set_option maxRecDepth 100000 in
/-- The line of the class on both sides, although `::Object` is in the singleton chain twice. -/
theorem branch_parallel : ∃ s c d m i, branchSetup.build = .ok s ∧
    s.env.ancestors ⟨.topLevel "Leaf", .onInstance⟩ = .ok c ∧
    s.env.ancestors ⟨.topLevel "Leaf", .onSingleton⟩ = .ok d ∧
    s.env.ancestors ⟨.topLevel "Tools", .onInstance⟩ = .ok m ∧
    s.env.ancestors ⟨.topLevel "_Shape", .onInstance⟩ = .ok i ∧
    (∃ line, s.env.SuperLine (.topLevel "Leaf") line ∧
      (c.entries.filter fun a => s.env.isClass a.name).map (·.name) = line ∧
      (d.entries.filter fun a => a.context = .onSingleton).map (·.name) = line ∧
      line = ["Leaf", "Base", "Object"].map TypeName.topLevel) ∧
    (∀ a ∈ m.entries, ¬ s.env.isClass a.name) ∧
    ∀ a ∈ i.entries, s.env.kind? a.name = some .interface := by
  obtain ⟨s, hbuild, hs⟩ := exists_ok_of_any branchSetup.build
    (fun s => s.env.kind? (.topLevel "Leaf") = some .klass &&
      s.env.kind? (.topLevel "Tools") = some .module &&
      s.env.kind? (.topLevel "_Shape") = some .interface &&
      ((s.env.chain [] ⟨.topLevel "Leaf", .onInstance⟩).toOption.any fun c =>
        (c.entries.filter fun a => s.env.isClass a.name).map (·.name) =
          ["Leaf", "Base", "Object"].map TypeName.topLevel) &&
      (s.env.chain [] ⟨.topLevel "Leaf", .onSingleton⟩).toOption.isSome &&
      (s.env.chain [] ⟨.topLevel "Tools", .onInstance⟩).toOption.isSome &&
      (s.env.chain [] ⟨.topLevel "_Shape", .onInstance⟩).toOption.isSome) (by decide +kernel)
  simp only [Bool.and_eq_true, decide_eq_true_eq] at hs
  obtain ⟨⟨⟨⟨⟨⟨hleaf, htools⟩, hshape⟩, hclasses⟩, hd⟩, hm⟩, hi⟩ := hs
  obtain ⟨c, hc, hnames⟩ := exists_ok_of_any _ _ hclasses
  obtain ⟨d, hd, -⟩ := exists_ok_of_any _ (fun _ => true) (by simpa using hd)
  obtain ⟨m, hm, -⟩ := exists_ok_of_any _ (fun _ => true) (by simpa using hm)
  obtain ⟨i, hi, -⟩ := exists_ok_of_any _ (fun _ => true) (by simpa using hi)
  obtain ⟨parsed, henv⟩ := SessionSetup.env_of_build hbuild
  rw [← Environment.ancestors_eq_chain] at hc hd hm hi
  rw [henv] at hleaf htools hshape hc hd hm hi hnames
  refine ⟨s, c, d, m, i, hbuild, ?_⟩
  rw [henv]
  obtain ⟨line, hline, hinstance, hsingleton⟩ := (Environment.chains_parallel hc).1 d hleaf hd
  exact ⟨hc, hd, hm, hi,
    ⟨line, hline, hinstance, hsingleton, hinstance.symm.trans (of_decide_eq_true hnames)⟩,
    (Environment.chains_parallel hm).2.1 htools, (Environment.chains_parallel hi).2.2 hshape⟩

end RubySig
