import RubySig.Proofs.Ancestry.Cycles
import RubySig.Proofs.Ancestry.Entries

/-!
# A chain holds exactly what can be reached

* `Environment.mem_keys_iff_leadsTo`: the keys of a chain are the sides that its side leads to.
* `Environment.front_of_blueprint`, `Environment.PieceOf.origin_ne_own`: what stands in front of an
  entity comes from its prepends, and nothing that is put in has the origin of an entity itself.
* `Blueprint.exists_split_join`: the entity stands between what is put around it.
* `Environment.exists_own_split`: the entity itself in its chain.
* `Environment.chain_holds_reachable`: all of it for the question that a session asks.
-/

namespace RubySig

/-! ## The first entry of a key in its place -/

/-- An entry whose key stands nowhere in front of it is kept between what is kept around it. -/
theorem dedupeEntries_append_cons {seen : List ChainKey} {front : List AncestorEntry}
    {own : AncestorEntry} (back : List AncestorEntry) (hseen : own.key ∉ seen)
    (hfront : own.key ∉ front.map (·.key)) :
    ∃ kept, (∀ e ∈ kept, e ∈ back) ∧
      dedupeEntries seen (front ++ own :: back) = dedupeEntries seen front ++ own :: kept := by
  induction front generalizing seen with
  | nil =>
    refine ⟨dedupeEntries (own.key :: seen) back, fun _ he => mem_of_mem_dedupeEntries he, ?_⟩
    simp only [List.nil_append, dedupeEntries, if_neg hseen]
  | cons e rest ih =>
    rw [List.map_cons, List.mem_cons, not_or] at hfront
    obtain ⟨hne, hrest⟩ := hfront
    rw [List.cons_append, dedupeEntries, dedupeEntries]
    by_cases he : e.key ∈ seen
    · rw [if_pos he, if_pos he]
      exact ih hseen hrest
    · rw [if_neg he, if_neg he]
      have hseen' : own.key ∉ e.key :: seen := by
        rw [List.mem_cons, not_or]
        exact ⟨hne, hseen⟩
      obtain ⟨kept, hkept, heq⟩ := ih hseen' hrest
      exact ⟨kept, hkept, by rw [heq, List.cons_append]⟩

/-- If the entity is in none of the chains that are put in front of it, it stands between what comes
from them and what comes from other chains. -/
theorem Blueprint.exists_split_join {b : Blueprint} {chainOf : ChainKey → Chain}
    (hfront : ∀ s ∈ b.front, b.own.key ∉ (chainOf s.key).entries.map (·.key)) :
    ∃ front back, b.join chainOf = front ++ b.own :: back ∧
      (∀ p ∈ front, ∃ s ∈ b.front, p ∈ s.expand (chainOf s.key)) ∧
      ∀ p ∈ back, ∃ s ∈ b.splices, p ∈ s.expand (chainOf s.key) := by
  have hmem : ∀ (splices : List Splice) (p : AncestorEntry),
      p ∈ (splices.map fun s => s.expand (chainOf s.key)).flatten →
        ∃ s ∈ splices, p ∈ s.expand (chainOf s.key) := by
    intro splices p hp
    obtain ⟨_, hs', hp⟩ := List.mem_flatten.1 hp
    obtain ⟨s, hs, rfl⟩ := List.mem_map.1 hs'
    exact ⟨s, hs, hp⟩
  have hfresh : b.own.key ∉
      ((b.front.map fun s => s.expand (chainOf s.key)).flatten).map (·.key) := by
    rw [List.mem_map]
    rintro ⟨p, hp, hkey⟩
    obtain ⟨s, hs, hp⟩ := hmem _ p hp
    obtain ⟨f, hf, rfl⟩ := List.mem_map.1 hp
    exact hfront s hs (List.mem_map.2 ⟨f, hf, hkey⟩)
  obtain ⟨kept, hkept, hjoin⟩ := dedupeEntries_append_cons
    ((b.behind.map fun s => s.expand (chainOf s.key)).reverse.flatten ++
      (b.tail.map fun s => s.expand (chainOf s.key)).flatten) List.not_mem_nil hfresh
  refine ⟨_, kept, hjoin, fun p hp => hmem _ p (mem_of_mem_dedupeEntries hp), fun p hp => ?_⟩
  have hback := hkept p hp
  rw [← List.map_reverse, List.mem_append] at hback
  rw [Blueprint.splices]
  rcases hback with hp | hp <;> obtain ⟨s, hs, hp⟩ := hmem _ p hp
  · exact ⟨s, List.mem_append_left _ (List.mem_append_right _ (List.mem_reverse.1 hs)), hp⟩
  · exact ⟨s, List.mem_append_right _ hs, hp⟩

/-! ## What a blueprint puts where -/

theorem mixinOrigin_ne_own (directive : MixinKind) (kind : EntityKind) :
    mixinOrigin directive kind ≠ .own := by
  cases directive <;> cases kind <;> decide

namespace Environment

variable {env : Environment} {e : Entry} {key : ChainKey} {b : Blueprint} {s : Splice}

theorem origin_ne_own_of_mem_metaclassSplices {name : String} (hs : s ∈ env.metaclassSplices name) :
    s.origin ≠ .own := by
  rw [metaclassSplices] at hs
  split at hs
  · rw [List.mem_singleton.1 hs]
    exact Origin.noConfusion
  · exact absurd hs List.not_mem_nil

/-- What is put into a chain does not appear as the entity whose chain it is. -/
theorem PieceOf.origin_ne_own {context : Context} (h : env.PieceOf e context s) :
    s.origin ≠ .own := by
  cases h with
  | mixin _ hs =>
    obtain ⟨b, -, m, -, -, hsplice⟩ := exists_of_mem_mixinSplices hs
    obtain ⟨target, kind, -, -, -, rfl⟩ := mixinSplice?_eq_some hsplice
    exact mixinOrigin_ne_own m.kind kind
  | superClass _ _ hs =>
    rw [superClassSplices] at hs
    split at hs
    · exact absurd hs List.not_mem_nil
    · rw [List.mem_singleton.1 hs]
      exact Origin.noConfusion
  | singletonSuper _ _ hs =>
    rw [singletonSuperSplices] at hs
    split at hs
    · exact origin_ne_own_of_mem_metaclassSplices hs
    · rw [List.mem_singleton.1 hs]
      exact Origin.noConfusion
  | moduleClass _ _ hs => exact origin_ne_own_of_mem_metaclassSplices hs

/-- In front of an entity stand only the modules that it prepends, and only on the instance side. -/
theorem front_of_blueprint (hb : env.blueprint key = .ok b) (hs : s ∈ b.front) :
    key.context = .onInstance ∧ ∃ e target, env.get? key.name = some e ∧
      env.MixesIn e .prepended target ∧ s.key = ⟨target, .onInstance⟩ := by
  obtain ⟨e, hentry, hpieces⟩ := pieces_of_blueprint hb
  obtain ⟨hcontext, hs⟩ := hpieces.front s hs
  obtain ⟨target, hmixes, hkey⟩ := mem_keys_mixinSplices.1 (List.mem_map_of_mem hs)
  exact ⟨hcontext, e, target, hentry, hmixes, hkey⟩

theorem origin_ownEntry (e : Entry) (context : Context) : (ownEntry e context).origin = .own := by
  cases context <;> rfl

/-! ## Keys -/

/-- The keys of a chain are the sides that its side leads to. -/
theorem mem_keys_iff_leadsTo (henv : env.Anchored) {c : Chain} (h : env.chain [] key = .ok c)
    {k : ChainKey} : k ∈ c.entries.map (·.key) ↔ env.LeadsTo key k := by
  induction h using chainOkInduction generalizing k with
  | step key b chainOf hb hparts _ =>
    rw [Blueprint.mem_keys_join, own_key_of_blueprint henv hb, LeadsTo,
      Relation.ReflTransGen.cases_head_iff, eq_comm]
    refine or_congr_right ⟨?_, ?_⟩
    · rintro ⟨s, hs, hk⟩
      obtain ⟨-, ih⟩ := hparts s.key (Blueprint.key_mem_keys hs)
      refine ⟨s.key, depends_iff_edge.1 ?_, ih.1 hk⟩
      exact (env.depends_iff_of_blueprint hb).2 (Blueprint.key_mem_keys hs)
    · rintro ⟨part, hedge, hk⟩
      have hpart := (env.depends_iff_of_blueprint hb).1 (depends_iff_edge.2 hedge)
      obtain ⟨-, ih⟩ := hparts part hpart
      obtain ⟨s, hs, rfl⟩ := List.mem_map.1 hpart
      exact ⟨s, hs, ih.2 hk⟩

/-! ## The entity itself -/

/-- What is put in for a splice has a key of the chain that is put in, and it does not appear as the
entity whose chain it is put into. -/
theorem of_mem_expand (hb : env.blueprint key = .ok b) (hs : s ∈ b.splices) {c : Chain}
    {p : AncestorEntry} (hp : p ∈ s.expand c) :
    p.key ∈ c.entries.map (·.key) ∧ p.origin ≠ .own := by
  obtain ⟨f, hf, rfl⟩ := List.mem_map.1 hp
  refine ⟨List.mem_map.2 ⟨f, hf, rfl⟩, ?_⟩
  obtain ⟨e, -, hpieces⟩ := pieces_of_blueprint hb
  dsimp only
  split
  · exact ((hpieces.splices s).1 hs).origin_ne_own
  · assumption

/-- In its chain an entity stands once, under its own key and with the origin of the entity itself.
What stands in front of it comes from a module that it prepends. -/
theorem exists_own_split (henv : env.Anchored) {c : Chain} (h : env.chain [] key = .ok c) :
    ∃ front own back, c.entries = front ++ own :: back ∧ own.key = key ∧ own.origin = .own ∧
      (∀ p ∈ front ++ back, p.origin ≠ .own) ∧
      ∀ p ∈ front, key.context = .onInstance ∧ ∃ e target, env.get? key.name = some e ∧
        env.MixesIn e .prepended target ∧ env.LeadsTo ⟨target, .onInstance⟩ p.key := by
  obtain ⟨b, chainOf, hb, hparts, rfl⟩ := chain_nil_eq_join h
  have hown : b.own.key = key := own_key_of_blueprint henv hb
  have hchain : ∀ s ∈ b.splices, env.chain [] s.key = .ok (chainOf s.key) :=
    fun s hs => chain_nil_of_ok (hparts s.key (Blueprint.key_mem_keys hs))
  have hsplices : ∀ s ∈ b.front, s ∈ b.splices :=
    fun s hs => List.mem_append_left _ (List.mem_append_left _ hs)
  -- the sides that are put in front of the entity do not lead back to it
  have hback : ∀ s ∈ b.front, b.own.key ∉ (chainOf s.key).entries.map (·.key) := by
    intro s hs hmem
    have hdep := (env.depends_iff_of_blueprint hb).2 (Blueprint.key_mem_keys (hsplices s hs))
    rw [hown, mem_keys_iff_leadsTo henv (hchain s (hsplices s hs)), ← reaches_eq_leadsTo] at hmem
    exact not_reaches_of_chain_ok h hdep hmem
  obtain ⟨front, back, hjoin, hfrom, hfrom'⟩ := Blueprint.exists_split_join hback
  have horigin : b.own.origin = .own := by
    obtain ⟨e, -, hpieces⟩ := pieces_of_blueprint hb
    rw [hpieces.own, origin_ownEntry]
  refine ⟨front, b.own, back, hjoin, hown, horigin, ?_, fun p hp => ?_⟩
  · refine List.forall_mem_append.2 ⟨fun p hp => ?_, fun p hp => ?_⟩
    · obtain ⟨s, hs, hp⟩ := hfrom p hp
      exact (of_mem_expand hb (hsplices s hs) hp).2
    · obtain ⟨s, hs, hp⟩ := hfrom' p hp
      exact (of_mem_expand hb hs hp).2
  · obtain ⟨s, hs, hp⟩ := hfrom p hp
    obtain ⟨hcontext, e, target, hentry, hmixes, hkey⟩ := front_of_blueprint hb hs
    have hmem := (of_mem_expand hb (hsplices s hs) hp).1
    rw [mem_keys_iff_leadsTo henv (hchain s (hsplices s hs)), hkey] at hmem
    exact ⟨hcontext, e, target, hentry, hmixes, hmem⟩

end Environment

/-! ## Every chain of every environment -/

/-- The chain of a side holds each side that it leads to exactly once, and no other.  One entry has
the origin of the entity itself, and that is the side in question: it comes first on the singleton
side, and on the instance side everything in front of it is reached through a module that the entity
prepends. -/
theorem Environment.chain_holds_reachable {sources : List (SourceId × List Declaration)}
    {key : ChainKey} {c : Chain} (h : (mergeSources sources).1.ancestors key = .ok c) :
    (∀ k, k ∈ c.entries.map (·.key) ↔ (mergeSources sources).1.LeadsTo key k) ∧
      (c.entries.map (·.key)).Nodup ∧
      ∃ front own back, c.entries = front ++ own :: back ∧ own.key = key ∧ own.origin = .own ∧
        (∀ p ∈ front ++ back, p.origin ≠ .own) ∧
        (key.context = .onSingleton → front = []) ∧
        (key.context = .onInstance → ∀ p ∈ front, ∃ e target,
          (mergeSources sources).1.get? key.name = some e ∧
          (mergeSources sources).1.MixesIn e .prepended target ∧
          (mergeSources sources).1.LeadsTo ⟨target, .onInstance⟩ p.key) := by
  have henv := mergeSources_anchored sources
  rw [ancestors_eq_chain] at h
  refine ⟨fun k => mem_keys_iff_leadsTo henv h, nodup_keys_of_chain h, ?_⟩
  obtain ⟨front, own, back, hsplit, hkey, horigin, hothers, hfront⟩ := exists_own_split henv h
  refine ⟨front, own, back, hsplit, hkey, horigin, hothers, fun hcontext => ?_,
    fun _ p hp => (hfront p hp).2⟩
  refine List.eq_nil_iff_forall_not_mem.2 fun p hp => ?_
  have hinstance := (hfront p hp).1
  rw [hcontext] at hinstance
  cases hinstance

/-- A class that prepends a module, and includes another one both directly and through a third. -/
def layeredSetup : SessionSetup :=
  .ofFile "a.rbs" ("module Log\nend\n\nmodule Base\nend\n\nmodule Extra\n  include Base\nend\n\n" ++
    "class Host\n  prepend Log\n  include Extra\n  include Base\nend\n")

/-- The chain of that class. -/
def layeredKeys : List ChainKey :=
  ["Log", "Host", "Base", "Extra"].map fun name => ⟨.topLevel name, .onInstance⟩

set_option maxRecDepth 100000 in
/-- The module that is included twice is in the chain once, and the class leads to nothing else. -/
theorem layered_holds_reachable : ∃ s c, layeredSetup.build = .ok s ∧
    s.env.ancestors ⟨.topLevel "Host", .onInstance⟩ = .ok c ∧
    c.entries.map (·.key) = layeredKeys ∧
    ∀ k, s.env.LeadsTo ⟨.topLevel "Host", .onInstance⟩ k ↔ k ∈ layeredKeys := by
  obtain ⟨s, hbuild, hs⟩ := exists_ok_of_any layeredSetup.build
    (fun s => (s.env.chain [] ⟨.topLevel "Host", .onInstance⟩).toOption.any fun c =>
      c.entries.map (·.key) = layeredKeys) (by decide +kernel)
  obtain ⟨c, hc, hkeys⟩ := exists_ok_of_any _ _ hs
  have hkeys : c.entries.map (·.key) = layeredKeys := of_decide_eq_true hkeys
  obtain ⟨parsed, henv⟩ := SessionSetup.env_of_build hbuild
  rw [← Environment.ancestors_eq_chain] at hc
  refine ⟨s, c, hbuild, hc, hkeys, fun k => ?_⟩
  rw [henv] at hc ⊢
  rw [← hkeys]
  exact ((Environment.chain_holds_reachable hc).1 k).symm

end RubySig
