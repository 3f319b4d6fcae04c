import RubySig.Definition
import RubySig.Proofs.OrderedMap

/-!
# What a method table defines

The names and the overloads in the table of a chain, told from the entries of the chain.

* `MethodTable.Defines`: the table has a method of a name.
* `AncestorEntry.WritesMethod`, `AncestorEntry.WritesAlias`: what an ancestor writes on its side.
* `MethodTable.partway`: the table in the middle of an ancestor's aliases.
* `ReadsAlias`: an alias of an ancestor is looked up in such a table while the chain is read.
* `MethodTable.defines_ofEntries_iff`: a chain has a method if an ancestor writes it, or if an alias
  for it is read when the method that it stands for is in the table.
* `MethodTable.mem_missing_ofEntries_iff`: every other alias is missing.
* `MethodTable.holds_ofEntries`: what holds of the overloads that ancestors write holds of all
  overloads.
-/

namespace RubySig

namespace MethodTable

variable {t : MethodTable} {owner : TypeName} {n : String}

/-- A table has a method of a name. -/
def Defines (t : MethodTable) (n : String) : Prop := n ∈ t.methods.keys

/-! ## Single writes -/

theorem not_defines_empty (n : String) : ¬ empty.Defines n := List.not_mem_nil

@[simp] theorem defines_define (t : MethodTable) (d : MethodDefinition) (n : String) :
    (t.define d).Defines n ↔ n = d.name ∨ t.Defines n :=
  OrderedMap.mem_keys_insert

theorem exists_target_of_defines {old : String} (h : t.Defines old) :
    ∃ target, t.methods.get? old = some target :=
  OrderedMap.mem_keys_iff.1 h

theorem get?_eq_none_of_not_defines {old : String} (h : ¬ t.Defines old) :
    t.methods.get? old = none :=
  Option.eq_none_iff_forall_ne_some.2 fun _ hv => h (OrderedMap.mem_keys_of_get? hv)

/-- An alias whose method is missing is noted. -/
theorem addAlias_of_not_defines (owner : TypeName) {a : AliasMember} (h : ¬ t.Defines a.oldName) :
    addAlias owner t a =
      { t with missing := t.missing ++ [⟨owner, a.newName, a.oldName, a.span⟩] } := by
  rw [addAlias, get?_eq_none_of_not_defines h]

/-- An alias whose method is there gives it a second name. -/
theorem addAlias_of_defines (owner : TypeName) {a : AliasMember} (h : t.Defines a.oldName) :
    ∃ target, t.methods.get? a.oldName = some target ∧
      addAlias owner t a = t.define ⟨a.newName, owner, target.implementation, target.accessibility,
        target.overloads, a.span⟩ := by
  obtain ⟨target, htarget⟩ := exists_target_of_defines h
  exact ⟨target, htarget, by rw [addAlias, htarget]⟩

theorem defines_addAlias (owner : TypeName) (t : MethodTable) (a : AliasMember) (n : String) :
    (addAlias owner t a).Defines n ↔ t.Defines n ∨ a.newName = n ∧ t.Defines a.oldName := by
  by_cases hold : t.Defines a.oldName
  · obtain ⟨target, -, hadd⟩ := addAlias_of_defines owner hold
    rw [hadd, defines_define, or_comm]
    exact or_congr_right ⟨fun h => ⟨h.symm, hold⟩, fun h => h.1.symm⟩
  · rw [addAlias_of_not_defines owner hold]
    exact ⟨Or.inl, fun h => h.elim id fun h => absurd h.2 hold⟩

theorem mem_missing_addAlias (owner : TypeName) (t : MethodTable) (a : AliasMember)
    (x : MissingAlias) :
    x ∈ (addAlias owner t a).missing ↔
      x ∈ t.missing ∨ ¬ t.Defines a.oldName ∧ x = ⟨owner, a.newName, a.oldName, a.span⟩ := by
  by_cases hold : t.Defines a.oldName
  · obtain ⟨target, -, hadd⟩ := addAlias_of_defines owner hold
    rw [hadd]
    exact ⟨Or.inl, fun h => h.elim id fun h => absurd hold h.1⟩
  · rw [addAlias_of_not_defines owner hold, List.mem_append, List.mem_singleton]
    exact or_congr_right ⟨fun h => ⟨hold, h⟩, fun h => h.2⟩

/-! ## Several writes -/

theorem defines_foldl_define (ds : List MethodDefinition) (t : MethodTable) (n : String) :
    (ds.foldl define t).Defines n ↔ (∃ d ∈ ds, d.name = n) ∨ t.Defines n := by
  induction ds generalizing t with
  | nil => simp
  | cons d rest ih =>
    rw [List.foldl_cons, ih, defines_define, List.exists_mem_cons_iff, or_assoc, or_left_comm,
      eq_comm (a := n)]

theorem missing_foldl_define (ds : List MethodDefinition) (t : MethodTable) :
    (ds.foldl define t).missing = t.missing := by
  induction ds generalizing t with
  | nil => rfl
  | cons d rest ih => exact ih (t.define d)

theorem defines_foldl_addAlias (as : List AliasMember) :
    (as.foldl (addAlias owner) t).Defines n ↔ t.Defines n ∨
      ∃ before a after, as = before ++ a :: after ∧ a.newName = n ∧
        (before.foldl (addAlias owner) t).Defines a.oldName := by
  induction as generalizing t with
  | nil => simp
  | cons a rest ih =>
    rw [List.foldl_cons, ih, defines_addAlias, or_assoc]
    refine or_congr_right ⟨?_, ?_⟩
    · rintro (⟨hnew, hold⟩ | ⟨before, b, after, rfl, hb⟩)
      · exact ⟨[], a, rest, rfl, hnew, hold⟩
      · exact ⟨a :: before, b, after, rfl, hb⟩
    · rintro ⟨_ | ⟨_, before⟩, b, after, hsplit, hb⟩ <;> obtain ⟨rfl, rfl⟩ := List.cons.inj hsplit
      · exact Or.inl hb
      · exact Or.inr ⟨before, b, after, rfl, hb⟩

theorem mem_missing_foldl_addAlias (as : List AliasMember) {x : MissingAlias} :
    x ∈ (as.foldl (addAlias owner) t).missing ↔ x ∈ t.missing ∨
      ∃ before a after, as = before ++ a :: after ∧
        ¬ (before.foldl (addAlias owner) t).Defines a.oldName ∧
        x = ⟨owner, a.newName, a.oldName, a.span⟩ := by
  induction as generalizing t with
  | nil => simp
  | cons a rest ih =>
    rw [List.foldl_cons, ih, mem_missing_addAlias, or_assoc]
    refine or_congr_right ⟨?_, ?_⟩
    · rintro (hx | ⟨before, b, after, rfl, hb⟩)
      · exact ⟨[], a, rest, rfl, hx⟩
      · exact ⟨a :: before, b, after, rfl, hb⟩
    · rintro ⟨_ | ⟨_, before⟩, b, after, hsplit, hb⟩ <;> obtain ⟨rfl, rfl⟩ := List.cons.inj hsplit
      · exact Or.inl hb
      · exact Or.inr ⟨before, b, after, rfl, hb⟩

end MethodTable

/-! ## What an ancestor writes -/

/-- An ancestor writes a method or accessor of a name on its side. -/
def AncestorEntry.WritesMethod (env : Environment) (e : AncestorEntry) (n : String) : Prop :=
  ∃ declared, env.get? e.name = some declared ∧ ∃ d ∈ contributed env e declared, d.name = n

/-- An ancestor writes an alias on its side. -/
def AncestorEntry.WritesAlias (env : Environment) (e : AncestorEntry) (a : AliasMember) : Prop :=
  ∃ declared, env.get? e.name = some declared ∧ a ∈ contributedAliases e declared

/-- The names that are defined do not depend on how overloads are prepared. -/
theorem names_contributedFrom {e f : AncestorEntry} (h : e.context = f.context)
    (prepare prepare' : MethodType → MethodType) (sect : Visibility) (members : List Member) :
    (contributedFrom e prepare sect members).map (·.name) =
      (contributedFrom f prepare' sect members).map (·.name) := by
  induction members generalizing sect with
  | nil => rfl
  | cons m rest ih =>
    cases m with
    | method m =>
      simp only [contributedFrom, h]
      split
      · exact ih sect
      · exact congrArg (List.cons m.name) (ih sect)
    | attr a =>
      simp only [contributedFrom, h, List.map_append, ih sect]
      split
      · simp only [List.map_map, Function.comp_def]
      · rfl
    | marker m => exact ih m.visibility
    | methodAlias _ | mixin _ | typedVar _ | nested _ => exact ih sect

theorem names_contributed {env : Environment} {e f : AncestorEntry} (h : e.context = f.context)
    (declared : Entry) :
    (contributed env e declared).map (·.name) = (contributed env f declared).map (·.name) := by
  rw [contributed, contributed, List.map_flatMap, List.map_flatMap]
  exact List.flatMap_congr fun b _ => names_contributedFrom h _ _ _ _

theorem contributedAliases_congr {e f : AncestorEntry} (h : e.context = f.context)
    (declared : Entry) : contributedAliases e declared = contributedAliases f declared := by
  rw [contributedAliases, contributedAliases, h]

namespace AncestorEntry

variable {env : Environment} {e f : AncestorEntry}

theorem WritesMethod.congr {n : String} (h : e.key = f.key) (hn : e.WritesMethod env n) :
    f.WritesMethod env n := by
  obtain ⟨hname, hcontext⟩ := ChainKey.mk.inj h
  obtain ⟨declared, hget, hd⟩ := hn
  refine ⟨declared, hname ▸ hget, ?_⟩
  rw [← List.mem_map] at hd ⊢
  rwa [← names_contributed hcontext]

theorem WritesAlias.congr {a : AliasMember} (h : e.key = f.key) (ha : e.WritesAlias env a) :
    f.WritesAlias env a := by
  obtain ⟨hname, hcontext⟩ := ChainKey.mk.inj h
  obtain ⟨declared, hget, ha⟩ := ha
  exact ⟨declared, hname ▸ hget, contributedAliases_congr hcontext declared ▸ ha⟩

/-- An ancestor writes a method of a name, or an alias that is to have it. -/
def Writes (env : Environment) (e : AncestorEntry) (n : String) : Prop :=
  e.WritesMethod env n ∨ ∃ a, e.WritesAlias env a ∧ a.newName = n

theorem Writes.congr {n : String} (h : e.key = f.key) (hn : e.Writes env n) : f.Writes env n :=
  hn.imp (WritesMethod.congr h) fun ⟨a, ha, hnew⟩ => ⟨a, ha.congr h, hnew⟩

end AncestorEntry

/-! ## The table of a chain -/

namespace MethodTable

variable {env : Environment} {n : String}

/-- The table of everything behind an ancestor, with the ancestor's methods and the first of its
aliases. -/
def partway (env : Environment) (rest : List AncestorEntry) (e : AncestorEntry) (declared : Entry)
    (before : List AliasMember) : MethodTable :=
  before.foldl (addAlias e.name) ((contributed env e declared).foldl define (ofEntries env rest))

theorem ofEntries_cons (env : Environment) (e : AncestorEntry) (rest : List AncestorEntry) :
    ofEntries env (e :: rest) = overlay env (ofEntries env rest) e := by
  rw [ofEntries, List.reverse_cons, List.foldl_append]
  rfl

theorem ofEntries_cons_of_get? {e : AncestorEntry} {declared : Entry}
    (h : env.get? e.name = some declared) (rest : List AncestorEntry) :
    ofEntries env (e :: rest) = partway env rest e declared (contributedAliases e declared) := by
  rw [ofEntries_cons, overlay, h]
  rfl

theorem ofEntries_cons_of_get?_eq_none {e : AncestorEntry} (h : env.get? e.name = none)
    (rest : List AncestorEntry) : ofEntries env (e :: rest) = ofEntries env rest := by
  rw [ofEntries_cons, overlay, h]

/-- A name is in the table behind an ancestor, or the ancestor writes the method, or one of its
aliases for the name is read when the method that it stands for is there. -/
theorem defines_partway_iff {rest : List AncestorEntry} {e : AncestorEntry} {declared : Entry}
    {before : List AliasMember} :
    (partway env rest e declared before).Defines n ↔
      ((∃ d ∈ contributed env e declared, d.name = n) ∨ (ofEntries env rest).Defines n) ∨
        ∃ earlier a later, before = earlier ++ a :: later ∧ a.newName = n ∧
          (partway env rest e declared earlier).Defines a.oldName := by
  rw [partway, defines_foldl_addAlias, defines_foldl_define]
  rfl

end MethodTable

/-- While a chain is read from its far end, an alias of an ancestor is looked up in a table. -/
def ReadsAlias (env : Environment) (entries : List AncestorEntry) (e : AncestorEntry)
    (a : AliasMember) (t : MethodTable) : Prop :=
  ∃ front rest declared before after, entries = front ++ e :: rest ∧
    env.get? e.name = some declared ∧ contributedAliases e declared = before ++ a :: after ∧
    t = MethodTable.partway env rest e declared before

namespace ReadsAlias

variable {env : Environment} {entries rest : List AncestorEntry} {e f : AncestorEntry}
  {a : AliasMember} {t : MethodTable}

theorem writesAlias (h : ReadsAlias env entries e a t) : e.WritesAlias env a := by
  obtain ⟨_, _, declared, _, _, -, hget, haliases, -⟩ := h
  exact ⟨declared, hget, haliases ▸ List.mem_append_right _ List.mem_cons_self⟩

theorem mem (h : ReadsAlias env entries e a t) : e ∈ entries := by
  obtain ⟨_, _, _, _, _, rfl, -⟩ := h
  exact List.mem_append_right _ List.mem_cons_self

theorem nil_iff : ReadsAlias env [] e a t ↔ False :=
  ⟨fun h => absurd h.mem List.not_mem_nil, False.elim⟩

/-- The places where aliases are looked up in a longer chain are those of its first ancestor and
those of the rest. -/
theorem cons_iff :
    ReadsAlias env (e :: rest) f a t ↔
      (f = e ∧ ∃ declared before after, env.get? e.name = some declared ∧
        contributedAliases e declared = before ++ a :: after ∧
        t = MethodTable.partway env rest e declared before) ∨
      ReadsAlias env rest f a t := by
  constructor
  · rintro ⟨_ | ⟨_, front⟩, back, declared, before, after, hsplit, hread⟩
    · obtain ⟨rfl, rfl⟩ := List.cons.inj hsplit
      exact Or.inl ⟨rfl, declared, before, after, hread⟩
    · obtain ⟨rfl, hrest⟩ := List.cons.inj hsplit
      exact Or.inr ⟨front, back, declared, before, after, hrest, hread⟩
  · rintro (⟨rfl, declared, before, after, hread⟩ |
      ⟨front, back, declared, before, after, rfl, hread⟩)
    · exact ⟨[], rest, declared, before, after, rfl, hread⟩
    · exact ⟨e :: front, back, declared, before, after, rfl, hread⟩

end ReadsAlias

namespace MethodTable

variable {env : Environment} {n : String}

/-- A chain has exactly the methods that its ancestors write, and those for which an alias is read
when the method that it stands for is in the table. -/
theorem defines_ofEntries_iff {entries : List AncestorEntry} :
    (ofEntries env entries).Defines n ↔ (∃ e ∈ entries, e.WritesMethod env n) ∨
      ∃ e a t, ReadsAlias env entries e a t ∧ a.newName = n ∧ t.Defines a.oldName := by
  induction entries with
  | nil =>
    simp only [ReadsAlias.nil_iff, List.not_mem_nil, false_and, exists_false, or_false, iff_false]
    exact not_defines_empty n
  | cons e rest ih =>
    simp only [ReadsAlias.cons_iff, List.exists_mem_cons_iff]
    cases hget : env.get? e.name with
    | none =>
      rw [ofEntries_cons_of_get?_eq_none hget, ih]
      simp [AncestorEntry.WritesMethod, hget]
    | some declared =>
      have hwrites : e.WritesMethod env n ↔ ∃ d ∈ contributed env e declared, d.name = n := by
        simp [AncestorEntry.WritesMethod, hget]
      rw [ofEntries_cons_of_get? hget, defines_partway_iff, ih, ← hwrites]
      constructor
      · rintro ((hn | hn | ⟨f, a, t, hread, hn⟩) | ⟨before, a, after, haliases, hn⟩)
        · exact Or.inl (Or.inl hn)
        · exact Or.inl (Or.inr hn)
        · exact Or.inr ⟨f, a, t, Or.inr hread, hn⟩
        · exact Or.inr ⟨e, a, _, Or.inl ⟨rfl, declared, before, after, rfl, haliases, rfl⟩, hn⟩
      · rintro ((hn | hn) | ⟨f, a, t, ⟨rfl, d, before, after, hd, haliases, rfl⟩ | hread, hn⟩)
        · exact Or.inl (Or.inl hn)
        · exact Or.inl (Or.inr (Or.inl hn))
        · obtain rfl := Option.some.inj hd
          exact Or.inr ⟨before, a, after, haliases, hn⟩
        · exact Or.inl (Or.inr (Or.inr ⟨f, a, t, hread, hn⟩))

/-- The missing aliases of a chain are those that are read when the method that they stand for is
not in the table. -/
theorem mem_missing_ofEntries_iff {entries : List AncestorEntry} {x : MissingAlias} :
    x ∈ (ofEntries env entries).missing ↔ ∃ e a t, ReadsAlias env entries e a t ∧
      ¬ t.Defines a.oldName ∧ x = ⟨e.name, a.newName, a.oldName, a.span⟩ := by
  induction entries with
  | nil =>
    simp only [ReadsAlias.nil_iff, false_and, exists_false, iff_false]
    exact List.not_mem_nil
  | cons e rest ih =>
    simp only [ReadsAlias.cons_iff]
    cases hget : env.get? e.name with
    | none =>
      rw [ofEntries_cons_of_get?_eq_none hget, ih]
      simp
    | some declared =>
      rw [ofEntries_cons_of_get? hget, partway, mem_missing_foldl_addAlias, missing_foldl_define,
        ih]
      constructor
      · rintro (⟨f, a, t, hread, hx⟩ | ⟨before, a, after, haliases, hx⟩)
        · exact ⟨f, a, t, Or.inr hread, hx⟩
        · exact ⟨e, a, _, Or.inl ⟨rfl, declared, before, after, rfl, haliases, rfl⟩, hx⟩
      · rintro ⟨f, a, t, ⟨rfl, d, before, after, hd, haliases, rfl⟩ | hread, hx⟩
        · obtain rfl := Option.some.inj hd
          exact Or.inr ⟨before, a, after, haliases, hx⟩
        · exact Or.inl ⟨f, a, t, hread, hx⟩

theorem exists_writes_of_defines {entries : List AncestorEntry}
    (h : (ofEntries env entries).Defines n) : ∃ e ∈ entries, e.Writes env n := by
  rcases defines_ofEntries_iff.1 h with ⟨e, he, hn⟩ | ⟨e, a, t, hread, hn, -⟩
  · exact ⟨e, he, Or.inl hn⟩
  · exact ⟨e, hread.mem, Or.inr ⟨a, hread.writesAlias, hn⟩⟩

/-- Nearer ancestors take no method away. -/
theorem Defines.append_left {rest : List AncestorEntry} (h : (ofEntries env rest).Defines n)
    (front : List AncestorEntry) : (ofEntries env (front ++ rest)).Defines n := by
  induction front with
  | nil => exact h
  | cons e front ih =>
    rw [List.cons_append]
    cases hget : env.get? e.name with
    | none => rwa [ofEntries_cons_of_get?_eq_none hget]
    | some declared =>
      rw [ofEntries_cons_of_get? hget, defines_partway_iff]
      exact Or.inl (Or.inr ih)

/-! ## What is in a table -/

/-- Each method stands under its name, and its overloads have a property. -/
def Holds (t : MethodTable) (good : List MethodType → Prop) : Prop :=
  ∀ p ∈ t.methods.pairs, p.1 = p.2.name ∧ good p.2.overloads

variable {good : List MethodType → Prop}

theorem Holds.define {t : MethodTable} (h : t.Holds good) {d : MethodDefinition}
    (hd : good d.overloads) : (t.define d).Holds good := by
  intro p hp
  rcases OrderedMap.mem_pairs_insert hp with rfl | hp
  · exact ⟨rfl, hd⟩
  · exact h p hp

theorem Holds.addAlias {t : MethodTable} (h : t.Holds good) (owner : TypeName) (a : AliasMember) :
    (addAlias owner t a).Holds good := by
  by_cases hold : t.Defines a.oldName
  · obtain ⟨target, htarget, hadd⟩ := addAlias_of_defines owner hold
    rw [hadd]
    exact h.define (h _ (OrderedMap.mem_pairs_of_get? htarget)).2
  · rw [addAlias_of_not_defines owner hold]
    exact h

theorem Holds.foldl_define {t : MethodTable} (h : t.Holds good) {ds : List MethodDefinition}
    (hds : ∀ d ∈ ds, good d.overloads) : (ds.foldl MethodTable.define t).Holds good := by
  induction ds generalizing t with
  | nil => exact h
  | cons d rest ih =>
    obtain ⟨hd, hrest⟩ := List.forall_mem_cons.1 hds
    exact ih (h.define hd) hrest

theorem Holds.foldl_addAlias {t : MethodTable} (h : t.Holds good) (owner : TypeName)
    (as : List AliasMember) : (as.foldl (MethodTable.addAlias owner) t).Holds good := by
  induction as generalizing t with
  | nil => exact h
  | cons a rest ih => exact ih (h.addAlias owner a)

/-- What holds of the overloads that ancestors write holds of all overloads of the table. -/
theorem holds_ofEntries {entries : List AncestorEntry}
    (h : ∀ e ∈ entries, ∀ declared, env.get? e.name = some declared →
      ∀ d ∈ contributed env e declared, good d.overloads) :
    (ofEntries env entries).Holds good := by
  induction entries with
  | nil => exact fun p hp => absurd hp List.not_mem_nil
  | cons e rest ih =>
    obtain ⟨he, hrest⟩ := List.forall_mem_cons.1 h
    cases hget : env.get? e.name with
    | none =>
      rw [ofEntries_cons_of_get?_eq_none hget]
      exact ih hrest
    | some declared =>
      rw [ofEntries_cons_of_get? hget]
      exact ((ih hrest).foldl_define (he declared hget)).foldl_addAlias e.name _

end MethodTable

/-! ## The methods of a definition -/

/-- The names of the methods, sorted. -/
def Definition.names (d : Definition) : List String := d.methods.map (·.name)

theorem Environment.mem_methods_definitionOf {env : Environment} {chain : Chain}
    {m : MethodDefinition} :
    m ∈ (env.definitionOf chain).methods ↔
      m ∈ (MethodTable.ofEntries env chain.entries).methods.values :=
  List.mem_mergeSort

/-- The sorted list has the names of the table. -/
theorem Environment.mem_names_definitionOf {env : Environment} {chain : Chain} {n : String} :
    n ∈ (env.definitionOf chain).names ↔ (MethodTable.ofEntries env chain.entries).Defines n := by
  have hkeyed : (MethodTable.ofEntries env chain.entries).Holds fun _ => True :=
    MethodTable.holds_ofEntries fun _ _ _ _ _ _ => trivial
  rw [Definition.names, List.mem_map]
  simp only [Environment.mem_methods_definitionOf]
  constructor
  · rintro ⟨m, hm, rfl⟩
    obtain ⟨p, hp, rfl⟩ := List.mem_map.1 hm
    rw [← (hkeyed p hp).1]
    exact List.mem_map_of_mem hp
  · intro hn
    obtain ⟨p, hp, rfl⟩ := List.mem_map.1 hn
    exact ⟨p.2, List.mem_map_of_mem hp, (hkeyed p hp).1.symm⟩

end RubySig
