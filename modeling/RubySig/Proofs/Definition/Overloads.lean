import RubySig.Proofs.Ancestry.Memo
import RubySig.Proofs.Definition.Table

/-!
# Where overloads come from

Every overload of a definition is an overload that an ancestor writes, prepared for the chain; an
alias has the overloads of the method that it stands for.

* `Body.overloads`: the overloads that a body writes, those of accessors included.
* `Environment.definition_eq_ok_iff`: a definition is that of a chain.
* `Environment.exists_written_of_definition`: the written overload behind an overload.
* `Environment.outline`: the keys and the method names of a definition, which can be computed.
-/

namespace RubySig

/-! ## Written overloads -/

/-- The overloads of a method, or the accessors of an attribute. -/
def Member.overloads : Member → List MethodType
  | .method m => m.overloads
  | .attr a => a.accessors.map (·.2)
  | .methodAlias _ | .mixin _ | .marker _ | .typedVar _ | .nested _ => []

/-- The overloads that a body writes. -/
def Body.overloads (b : Body) : List MethodType := b.members.flatMap Member.overloads

theorem exists_written_of_mem_contributedFrom {e : AncestorEntry}
    {prepare : MethodType → MethodType} {sect : Visibility} {members : List Member}
    {d : MethodDefinition} (h : d ∈ contributedFrom e prepare sect members) {o : MethodType}
    (ho : o ∈ d.overloads) : ∃ w ∈ members.flatMap Member.overloads, o = prepare w := by
  induction members generalizing sect with
  | nil => exact absurd h List.not_mem_nil
  | cons m rest ih =>
    -- a later member, whatever section the first one leaves behind
    have hrest : ∀ {sect}, d ∈ contributedFrom e prepare sect rest →
        ∃ w ∈ (m :: rest).flatMap Member.overloads, o = prepare w := fun hd => by
      obtain ⟨w, hw, rfl⟩ := ih hd
      exact ⟨w, List.mem_append_right _ hw, rfl⟩
    cases m with
    | method m =>
      rw [contributedFrom] at h
      split at h
      · exact hrest h
      · rcases List.mem_cons.1 h with rfl | h
        · obtain ⟨w, hw, rfl⟩ := List.mem_map.1 ho
          exact ⟨w, List.mem_append_left _ hw, rfl⟩
        · exact hrest h
    | attr a =>
      rw [contributedFrom] at h
      rcases List.mem_append.1 h with h | h
      · split at h
        · obtain ⟨p, hp, rfl⟩ := List.mem_map.1 h
          obtain rfl := List.mem_singleton.1 ho
          exact ⟨p.2, List.mem_append_left _ (List.mem_map_of_mem hp), rfl⟩
        · exact absurd h List.not_mem_nil
      · exact hrest h
    | marker _ | methodAlias _ | mixin _ | typedVar _ | nested _ => exact hrest h

theorem exists_written_of_mem_contributed {env : Environment} {e : AncestorEntry}
    {declared : Entry} {d : MethodDefinition} (h : d ∈ contributed env e declared) {o : MethodType}
    (ho : o ∈ d.overloads) :
    ∃ b ∈ declared.bodies, ∃ w ∈ b.overloads,
      o = prepareOverload env e declared.paramNames b w := by
  obtain ⟨b, hb, hd⟩ := List.mem_flatMap.1 h
  exact ⟨b, hb, exists_written_of_mem_contributedFrom hd ho⟩

/-! ## Overloads of a definition -/

namespace Environment

variable {env : Environment}

theorem definition_eq_ok_iff {key : ChainKey} {d : Definition} :
    env.definition key = .ok d ↔ ∃ c, env.chain [] key = .ok c ∧ d = env.definitionOf c := by
  rw [definition, ancestors_eq_chain]
  cases env.chain [] key <;> simp [Except.map, eq_comm]

/-- Behind every overload of a definition there is one that an ancestor writes. -/
theorem exists_written_of_definition {key : ChainKey} {d : Definition}
    (h : env.definition key = .ok d) {m : MethodDefinition} (hm : m ∈ d.methods) {o : MethodType}
    (ho : o ∈ m.overloads) :
    ∃ e ∈ d.ancestors.entries, ∃ declared, env.get? e.name = some declared ∧
      ∃ b ∈ declared.bodies, ∃ w ∈ b.overloads,
        o = prepareOverload env e declared.paramNames b w := by
  obtain ⟨c, -, rfl⟩ := definition_eq_ok_iff.1 h
  have hwritten : (MethodTable.ofEntries env c.entries).Holds fun overloads => ∀ o ∈ overloads,
      ∃ e ∈ c.entries, ∃ declared, env.get? e.name = some declared ∧ ∃ b ∈ declared.bodies,
        ∃ w ∈ b.overloads, o = prepareOverload env e declared.paramNames b w :=
    MethodTable.holds_ofEntries fun e he declared hget _ hd o ho =>
      ⟨e, he, declared, hget, exists_written_of_mem_contributed hd ho⟩
  obtain ⟨p, hp, rfl⟩ := List.mem_map.1 (mem_methods_definitionOf.1 hm)
  exact (hwritten p hp).2 o ho

/-! ## Outlines -/

/-- The keys of a chain and the names in its table. -/
def outline (env : Environment) (key : ChainKey) : Option (List ChainKey × List String) :=
  (env.chain [] key).toOption.map fun c =>
    (c.entries.map (·.key), (MethodTable.ofEntries env c.entries).methods.keys)

theorem definition_of_outline {key : ChainKey}
    {keys : List ChainKey} {names : List String} (h : env.outline key = some (keys, names)) :
    ∃ d, env.definition key = .ok d ∧ d.ancestors.entries.map (·.key) = keys ∧
      ∀ n, n ∈ d.names ↔ n ∈ names := by
  rw [outline] at h
  cases hc : env.chain [] key with
  | error _ => rw [hc] at h; cases h
  | ok c =>
    rw [hc] at h
    obtain ⟨rfl, rfl⟩ := Prod.mk.inj (Option.some.inj h)
    exact ⟨_, definition_eq_ok_iff.2 ⟨c, hc, rfl⟩, rfl, fun n => mem_names_definitionOf⟩

end Environment

/-- The instance side of a top-level entity. -/
def instanceSide (name : String) : ChainKey := ⟨.topLevel name, .onInstance⟩

end RubySig
