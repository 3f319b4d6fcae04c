import RubySig.Proofs.Ancestry.Entries
import RubySig.Proofs.Definition.Overloads
import RubySig.Proofs.Validation.Silence

/-!
# Methods of included modules

A chain keeps the nearest of several entries of one key, so what stands behind an ancestor in the
ancestor's own chain can stand in front of it in a longer one.  Methods and accessors are never lost
that way.  An alias is, if the ancestors that write the method that it stands for are read after it.

* `AncestorEntry.Writes.defines`: an ancestor whose aliases all find their methods gives every name
  that it writes.
* `Environment.ownAncestors`: what stands behind an entity in its own chain.
* `Environment.Overtaken`: an ancestor that writes the method that an alias stands for is behind the
  alias's entity in the entity's own chain, but in front of it in another one.
* `Environment.defines_target_of_not_overtaken`: an alias that is not overtaken finds its method.
* `SessionSetup.lost_names_of_included`: which methods of an ancestor are missing in a chain, and
  why.
-/

namespace RubySig

variable {env : Environment}

/-! ## Names that are written -/

/-- An ancestor whose aliases all find their methods gives every name that it writes. -/
theorem AncestorEntry.Writes.defines {e : AncestorEntry} {n : String} (h : e.Writes env n)
    {rest : List AncestorEntry}
    (hfound : ∀ declared before a after, env.get? e.name = some declared →
      contributedAliases e declared = before ++ a :: after →
      (MethodTable.partway env rest e declared before).Defines a.oldName) :
    (MethodTable.ofEntries env (e :: rest)).Defines n := by
  rcases h with ⟨declared, hget, hd⟩ | ⟨a, ⟨declared, hget, ha⟩, rfl⟩
  · rw [MethodTable.ofEntries_cons_of_get? hget, MethodTable.defines_partway_iff]
    exact Or.inl (Or.inl hd)
  · obtain ⟨before, after, haliases⟩ := List.append_of_mem ha
    have htarget := hfound declared before a after hget haliases
    rw [MethodTable.ofEntries_cons_of_get? hget, MethodTable.defines_partway_iff]
    exact Or.inr ⟨before, a, after, haliases, rfl, htarget⟩

/-- Where a name in the middle of an ancestor's aliases comes from. -/
theorem MethodTable.source_of_defines_partway {rest : List AncestorEntry} {e : AncestorEntry}
    {declared : Entry} (hget : env.get? e.name = some declared) {before : List AliasMember}
    {n : String} (h : (partway env rest e declared before).Defines n) :
    e.WritesMethod env n ∨ (∃ p ∈ rest, p.Writes env n) ∨
      ∃ earlier a later, before = earlier ++ a :: later ∧ a.newName = n := by
  rcases defines_partway_iff.1 h with (hd | hrest) | ⟨earlier, a, later, hsplit, hnew, -⟩
  · exact Or.inl ⟨declared, hget, hd⟩
  · exact Or.inr (Or.inl (exists_writes_of_defines hrest))
  · exact Or.inr (Or.inr ⟨earlier, a, later, hsplit, hnew⟩)

/-! ## What stands behind an entity in its own chain -/

namespace Environment

/-- The ancestors behind an entity in its own chain. -/
def ownAncestors (env : Environment) (key : ChainKey) : List AncestorEntry :=
  match env.chain [] key with
  | .ok c => (c.entries.dropWhile fun e => e.key != key).drop 1
  | .error _ => []

theorem exists_split_ownAncestors (henv : env.Anchored) {key : ChainKey} {own : Chain}
    (h : env.chain [] key = .ok own) :
    ∃ front e, own.entries = front ++ e :: env.ownAncestors key ∧ e.key = key := by
  obtain ⟨e, rest, hdrop, hkey⟩ := exists_dropWhile_eq_cons (key_mem_entries henv h)
  have hown : env.ownAncestors key = rest := by
    rw [ownAncestors, h]
    exact congrArg (List.drop 1) hdrop
  refine ⟨own.entries.takeWhile fun e => e.key != key, e, ?_, hkey⟩
  rw [hown, ← hdrop, List.takeWhile_append_dropWhile]

/-- What stands behind an entity in its own chain is another ancestor. -/
theorem key_of_mem_ownAncestors (henv : env.Anchored) {key : ChainKey} {own : Chain}
    (h : env.chain [] key = .ok own) {p : AncestorEntry} (hp : p ∈ env.ownAncestors key) :
    p.key ∈ own.entries.map (·.key) ∧ p.key ≠ key := by
  obtain ⟨front, e, hsplit, hkey⟩ := exists_split_ownAncestors henv h
  constructor
  · refine List.mem_map_of_mem ?_
    rw [hsplit]
    exact List.mem_append_right _ (List.mem_cons_of_mem _ hp)
  · rw [← hkey]
    exact key_ne_of_mem_behind (nodup_keys_of_chain h) hsplit hp

theorem askable_of_chain_ok {path : List ChainKey} {key : ChainKey} {c : Chain}
    (h : env.chain path key = .ok c) : env.Askable key := by
  obtain ⟨b, hb, -⟩ := parts_of_chain_ok h
  obtain ⟨e, he, hpieces⟩ := pieces_of_blueprint hb
  exact ⟨e, he, hpieces.side⟩

/-- In the chain of its own entity every alias finds its method, so the entity writes the method or
an earlier alias for it, or an ancestor behind the entity writes it. -/
theorem Silent.source_of_target (h : env.Silent) (henv : env.Anchored) {e : AncestorEntry}
    {own : Chain} (hown : env.chain [] e.key = .ok own) {declared : Entry}
    (hget : env.get? e.name = some declared) {before after : List AliasMember} {a : AliasMember}
    (haliases : contributedAliases e declared = before ++ a :: after) :
    e.WritesMethod env a.oldName ∨ (∃ p ∈ env.ownAncestors e.key, p.Writes env a.oldName) ∨
      ∃ earlier b later, before = earlier ++ b :: later ∧ b.newName = a.oldName := by
  obtain ⟨front, f, hsplit, hkey⟩ := exists_split_ownAncestors henv hown
  obtain ⟨hname, hcontext⟩ := ChainKey.mk.inj hkey
  have hfget : env.get? f.name = some declared := by rwa [hname]
  obtain ⟨c, hc, hmissing⟩ := h.chain_ok henv (askable_of_chain_ok hown)
  obtain rfl := Except.ok.inj (hc.symm.trans hown)
  have hread : ReadsAlias env c.entries f a
      (MethodTable.partway env (env.ownAncestors e.key) f declared before) :=
    ⟨front, _, declared, before, after, hsplit, hfget,
      (contributedAliases_congr hcontext declared).trans haliases, rfl⟩
  have htarget : (MethodTable.partway env (env.ownAncestors e.key) f declared before).Defines
      a.oldName := by
    by_contra hnot
    exact hmissing _ (MethodTable.mem_missing_ofEntries_iff.2 ⟨f, a, _, hread, hnot, rfl⟩) hname
  rcases MethodTable.source_of_defines_partway hfget htarget with hmethod | hbehind | hearlier
  · exact Or.inl (hmethod.congr hkey)
  · exact Or.inr (Or.inl hbehind)
  · exact Or.inr (Or.inr hearlier)

/-! ## Aliases that are overtaken -/

/-- An alias is overtaken in a chain: an ancestor that writes the method that it stands for is
behind its entity in the entity's own chain, and in front of the entity here. -/
def Overtaken (env : Environment) (c : Chain) (e : AncestorEntry) (a : AliasMember) : Prop :=
  ∃ p ∈ env.ownAncestors e.key, p.Writes env a.oldName ∧ c.Ahead p.key e.key

/-- If an alias is not overtaken, an ancestor that writes its method is behind it, as in the chain
of the alias's own entity. -/
theorem behind_of_not_overtaken (henv : env.Anchored) {c own : Chain} {e p : AncestorEntry}
    {a : AliasMember} (hno : ¬ env.Overtaken c e a) (hown : env.chain [] e.key = .ok own)
    (hp : p ∈ env.ownAncestors e.key) (hwrites : p.Writes env a.oldName)
    {front rest : List AncestorEntry} (hsplit : c.entries = front ++ e :: rest)
    (hmem : p.key ∈ c.entries.map (·.key)) :
    ∃ between q back, rest = between ++ q :: back ∧ q.key = p.key := by
  have hbehind : p.key ∈ rest.map (·.key) := by
    by_contra hfront
    have hne := (key_of_mem_ownAncestors henv hown hp).2
    exact hno ⟨p, hp, hwrites, Chain.ahead_of_notMem hsplit hmem hne hfront⟩
  obtain ⟨q, hq, hqkey⟩ := List.mem_map.1 hbehind
  obtain ⟨between, back, hrest⟩ := List.append_of_mem hq
  exact ⟨between, q, back, hrest, hqkey⟩

/-- If the missing aliases of an ancestor's chain are not overtaken in a longer chain, no alias of
the ancestor's chain is missing there.  By induction on what stands behind the alias: the method
that it stands for is written by its own entity or by one that is read earlier. -/
theorem defines_target_of_not_overtaken (hsilent : env.Silent) (henv : env.Anchored)
    {c m : Chain} {part : ChainKey} (hpart : env.chain [] part = .ok m)
    (hsub : ∀ k ∈ m.entries.map (·.key), k ∈ c.entries.map (·.key))
    (hno : ∀ e a t, e.key ∈ m.entries.map (·.key) → ReadsAlias env c.entries e a t →
      ¬ t.Defines a.oldName → ¬ env.Overtaken c e a)
    {front rest : List AncestorEntry} {e : AncestorEntry} (hsplit : c.entries = front ++ e :: rest)
    (he : e.key ∈ m.entries.map (·.key)) {declared : Entry}
    (hget : env.get? e.name = some declared) {before after : List AliasMember} {a : AliasMember}
    (haliases : contributedAliases e declared = before ++ a :: after) :
    (MethodTable.partway env rest e declared before).Defines a.oldName := by
  induction hrest : rest.length using Nat.strong_induction_on
    generalizing front rest e declared before after a with
  | h length ih =>
    subst hrest
    obtain ⟨g, hg, hgkey⟩ := List.mem_map.1 he
    obtain ⟨own, hown, hownsub⟩ := chain_of_mem_entries henv hpart hg
    rw [hgkey] at hown
    -- the aliases of one entity are read one after the other
    induction hbefore : before.length using Nat.strong_induction_on
      generalizing before after a with
    | h count ihbefore =>
      subst hbefore
      by_contra hmissing
      have hnowhere := hmissing
      rw [MethodTable.defines_partway_iff, not_or, not_or] at hnowhere
      obtain ⟨⟨hcontributed, hbehind⟩, hearlier⟩ := hnowhere
      rcases hsilent.source_of_target henv hown hget haliases with
        ⟨d, hd, hwritten⟩ | ⟨p, hp, hwrites⟩ | ⟨earlier, b, later, rfl, hnew⟩
      · obtain rfl := Option.some.inj (hget.symm.trans hd)
        exact hcontributed hwritten
      · have hpkey : p.key ∈ m.entries.map (·.key) :=
          hownsub _ (key_of_mem_ownAncestors henv hown hp).1
        have hread : ReadsAlias env c.entries e a
            (MethodTable.partway env rest e declared before) :=
          ⟨front, rest, declared, before, after, hsplit, hget, haliases, rfl⟩
        obtain ⟨between, q, back, rfl, hqkey⟩ := behind_of_not_overtaken henv
          (hno e a _ he hread hmissing) hown hp hwrites hsplit (hsub _ hpkey)
        have hqsplit : c.entries = (front ++ e :: between) ++ q :: back := by
          rw [hsplit, List.append_assoc, List.cons_append]
        have hlength : back.length < (between ++ q :: back).length := by
          rw [List.length_append, List.length_cons]
          omega
        have hqdefines : (MethodTable.ofEntries env (q :: back)).Defines a.oldName :=
          (hwrites.congr hqkey.symm).defines fun _ _ _ _ hget haliases =>
            ih _ hlength hqsplit (hqkey ▸ hpkey) hget haliases rfl
        exact hbehind (hqdefines.append_left between)
      · have hsplit' : contributedAliases e declared = earlier ++ b :: (later ++ a :: after) := by
          rw [haliases, List.append_assoc, List.cons_append]
        have hlength : earlier.length < (earlier ++ b :: later).length := by
          rw [List.length_append, List.length_cons]
          omega
        exact hearlier ⟨earlier, b, later, rfl, hnew, ihbefore _ hlength hsplit' rfl⟩

/-- A name of an ancestor's chain that is missing in a longer chain has an alias that is missing
there because it is overtaken. -/
theorem exists_overtaken_of_lost (hsilent : env.Silent) (henv : env.Anchored) {c m : Chain}
    {part : ChainKey} (hpart : env.chain [] part = .ok m)
    (hsub : ∀ k ∈ m.entries.map (·.key), k ∈ c.entries.map (·.key)) {n : String}
    (hdefines : (MethodTable.ofEntries env m.entries).Defines n)
    (hlost : ¬ (MethodTable.ofEntries env c.entries).Defines n) :
    ∃ e a t, e.key ∈ m.entries.map (·.key) ∧ ReadsAlias env c.entries e a t ∧
      ¬ t.Defines a.oldName ∧ env.Overtaken c e a := by
  by_contra hnone
  have hno : ∀ e a t, e.key ∈ m.entries.map (·.key) → ReadsAlias env c.entries e a t →
      ¬ t.Defines a.oldName → ¬ env.Overtaken c e a :=
    fun e a t he hread hmissing hovertaken => hnone ⟨e, a, t, he, hread, hmissing, hovertaken⟩
  obtain ⟨e, he, hwrites⟩ := MethodTable.exists_writes_of_defines hdefines
  have hekey : e.key ∈ m.entries.map (·.key) := List.mem_map_of_mem he
  obtain ⟨q, hq, hqkey⟩ := List.mem_map.1 (hsub _ hekey)
  obtain ⟨front, rest, hsplit⟩ := List.append_of_mem hq
  have hqdefines : (MethodTable.ofEntries env (q :: rest)).Defines n :=
    (hwrites.congr hqkey.symm).defines fun _ _ _ _ hget haliases =>
      defines_target_of_not_overtaken hsilent henv hpart hsub hno hsplit (hqkey ▸ hekey) hget
        haliases
  refine hlost ?_
  rw [hsplit]
  exact hqdefines.append_left front

end Environment

/-! ## What is lost -/

/-- In a session in which nothing is found, every side of an entity and every ancestor of it have a
definition.  A method of the ancestor is missing in the definition of the entity exactly if no
ancestor of the entity writes it and each alias for it is read before its method is there; and then
one of the missing aliases that the ancestor's chain brings along is overtaken. -/
theorem SessionSetup.lost_names_of_included {setup : SessionSetup} {s : Session}
    (hbuild : setup.build = .ok s) (hvalid : s.validate = []) {name : TypeName} {entry : Entry}
    (hentry : s.env.get? name = some entry)
    (hside : Context.onInstance ∈ Environment.sides entry.kind) :
    ∃ d, s.env.definition ⟨name, .onInstance⟩ = .ok d ∧
      ∀ m ∈ d.ancestors.entries, ∃ dm, s.env.definition m.key = .ok dm ∧ ∀ n ∈ dm.names,
        (n ∉ d.names ↔ (∀ e ∈ d.ancestors.entries, ¬ e.WritesMethod s.env n) ∧
          ∀ e a t, ReadsAlias s.env d.ancestors.entries e a t → a.newName = n →
            ¬ t.Defines a.oldName) ∧
        (n ∉ d.names → ∃ e a, e.key ∈ dm.ancestors.entries.map (·.key) ∧
          s.env.Overtaken d.ancestors e a ∧
          ⟨e.name, a.newName, a.oldName, a.span⟩ ∈ d.missingAliases) := by
  have hsilent := Session.silent_of_validate hvalid
  have henv := anchored_of_build hbuild
  have hkey : s.env.Askable ⟨name, .onInstance⟩ := ⟨entry, hentry, hside⟩
  obtain ⟨c, hc, -⟩ := hsilent.chain_ok henv hkey
  refine ⟨_, Environment.definition_eq_ok_iff.2 ⟨c, hc, rfl⟩, fun m hm => ?_⟩
  obtain ⟨cm, hcm, hsub⟩ := Environment.chain_of_mem_entries henv hc hm
  refine ⟨_, Environment.definition_eq_ok_iff.2 ⟨cm, hcm, rfl⟩, fun n hn => ?_⟩
  rw [Environment.mem_names_definitionOf] at hn ⊢
  constructor
  · rw [MethodTable.defines_ofEntries_iff, not_or]
    constructor
    · rintro ⟨hwrites, haliases⟩
      exact ⟨fun e he hn => hwrites ⟨e, he, hn⟩,
        fun e a t hread hnew hfound => haliases ⟨e, a, t, hread, hnew, hfound⟩⟩
    · rintro ⟨hwrites, haliases⟩
      exact ⟨fun ⟨e, he, hn⟩ => hwrites e he hn,
        fun ⟨e, a, t, hread, hnew, hfound⟩ => haliases e a t hread hnew hfound⟩
  · intro hlost
    obtain ⟨e, a, t, he, hread, hmissing, hovertaken⟩ :=
      Environment.exists_overtaken_of_lost hsilent henv hcm hsub hn hlost
    exact ⟨e, a, he, hovertaken,
      MethodTable.mem_missing_ofEntries_iff.2 ⟨e, a, t, hread, hmissing, rfl⟩⟩

/-! ## A method that is lost -/

/-- A module with a method, a module that includes it and writes an alias for the method, and a
class that includes the second module and then the first. -/
def diamondSetup : SessionSetup :=
  .ofFile "a.rbs" ("module Base\n  def old: () -> void\nend\n\n" ++
    "module Extra\n  include Base\n  alias new old\nend\n\n" ++
    "class Host\n  include Extra\n  include Base\nend\n")

set_option maxRecDepth 100000 in
theorem diamond_outline : ∃ s, diamondSetup.build = .ok s ∧ s.validate = [] ∧
    (s.env.get? (.topLevel "Host")).any (fun e => e.kind = .klass) ∧
    s.env.outline (instanceSide "Extra") =
      some ([instanceSide "Extra", instanceSide "Base"], ["old", "new"]) ∧
    s.env.outline (instanceSide "Host") =
      some ([instanceSide "Host", instanceSide "Base", instanceSide "Extra"], ["old"]) := by
  obtain ⟨s, hbuild, hs⟩ := exists_ok_of_any diamondSetup.build
    (fun s => s.validate.isEmpty &&
      (s.env.get? (.topLevel "Host")).any (fun e => e.kind = .klass) &&
      s.env.outline (instanceSide "Extra") =
        some ([instanceSide "Extra", instanceSide "Base"], ["old", "new"]) &&
      s.env.outline (instanceSide "Host") =
        some ([instanceSide "Host", instanceSide "Base", instanceSide "Extra"], ["old"]))
    (by decide +kernel)
  simp only [Bool.and_eq_true, List.isEmpty_iff, decide_eq_true_eq] at hs
  exact ⟨s, hbuild, hs.1.1.1, hs.1.1.2, hs.1.2, hs.2⟩

/-- The class lacks the alias of the module that it includes first. -/
theorem alias_lost_in_diamond : ∃ s d m dm, diamondSetup.build = .ok s ∧ s.validate = [] ∧
    s.env.definition (instanceSide "Host") = .ok d ∧ m ∈ d.ancestors.entries ∧
    m.key = instanceSide "Extra" ∧ s.env.definition m.key = .ok dm ∧ "new" ∈ dm.names ∧
    "new" ∉ d.names := by
  obtain ⟨s, hbuild, hvalid, -, hextra, hhost⟩ := diamond_outline
  obtain ⟨dm, hdm, -, hdmnames⟩ := s.env.definition_of_outline hextra
  obtain ⟨d, hd, hkeys, hdnames⟩ := s.env.definition_of_outline hhost
  have hmem : instanceSide "Extra" ∈ d.ancestors.entries.map (·.key) := by
    rw [hkeys]
    decide
  obtain ⟨m, hm, hmkey⟩ := List.mem_map.1 hmem
  refine ⟨s, d, m, dm, hbuild, hvalid, hd, hm, hmkey, hmkey ▸ hdm, ?_, ?_⟩
  · rw [hdmnames]
    decide
  · rw [hdnames]
    decide

/-- There the alias is overtaken by the module that has the method. -/
theorem overtaken_in_diamond : ∃ s d dm e a, diamondSetup.build = .ok s ∧ s.validate = [] ∧
    s.env.definition (instanceSide "Host") = .ok d ∧
    s.env.definition (instanceSide "Extra") = .ok dm ∧
    e.key ∈ dm.ancestors.entries.map (·.key) ∧ s.env.Overtaken d.ancestors e a ∧
    ⟨e.name, a.newName, a.oldName, a.span⟩ ∈ d.missingAliases := by
  obtain ⟨s, hbuild, hvalid, hclass, hextra, hhost⟩ := diamond_outline
  obtain ⟨entry, hentry, hkind⟩ := (Option.any_eq_true _ _).1 hclass
  have hside : Context.onInstance ∈ Environment.sides entry.kind := by
    rw [of_decide_eq_true hkind]
    decide
  obtain ⟨d, hd, hincluded⟩ :=
    SessionSetup.lost_names_of_included hbuild hvalid hentry hside
  obtain ⟨d', hd', hkeys, hdnames⟩ := s.env.definition_of_outline hhost
  obtain rfl := Except.ok.inj (hd.symm.trans hd')
  have hmem : instanceSide "Extra" ∈ d.ancestors.entries.map (·.key) := by
    rw [hkeys]
    decide
  obtain ⟨m, hm, hmkey⟩ := List.mem_map.1 hmem
  obtain ⟨dm, hdm, hnames⟩ := hincluded m hm
  rw [hmkey] at hdm
  obtain ⟨dm', hdm', -, hdmnames⟩ := s.env.definition_of_outline hextra
  obtain rfl := Except.ok.inj (hdm.symm.trans hdm')
  have hnew : "new" ∈ dm.names := by
    rw [hdmnames]
    decide
  have hlost : "new" ∉ d.names := by
    rw [hdnames]
    decide
  obtain ⟨e, a, he, hovertaken, hmissing⟩ := (hnames "new" hnew).2 hlost
  exact ⟨s, d, dm, e, a, hbuild, hvalid, hd, hdm, he, hovertaken, hmissing⟩

end RubySig
