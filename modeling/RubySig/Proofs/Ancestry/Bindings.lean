import RubySig.Proofs.Ancestry.Reach
import RubySig.Proofs.Substitution.Composition

/-!
# What type parameters stand for in a chain

On the instance side every ancestor binds exactly the type parameters of its own entity, however
many chains it was put into on the way.  What a class inherits from its superclass is bound as in
the chain of the superclass, with the arguments that the class writes put into it.

* `Environment.mem_names_iff_of_mem_entries`: the parameters that an ancestor binds.
* `Environment.exists_inherited_entry`: an ancestor that no directive of the class brings in comes
  from the chain of the superclass.
-/

namespace RubySig

namespace Environment

variable {env : Environment} {key : ChainKey} {e : Entry} {c : Chain}

/-- An ancestor on the instance side binds the type parameters of its entity. -/
theorem mem_names_iff_of_mem_entries (henv : env.Anchored) (h : env.chain [] key = .ok c)
    {p : AncestorEntry} (hp : p ∈ c.entries) (hcontext : p.context = .onInstance) {declared : Entry}
    (hget : env.get? p.name = some declared) {v : String} :
    v ∈ p.substitution.names ↔ v ∈ declared.paramNames := by
  induction h using chainOkInduction generalizing p with
  | step key b chainOf hb hparts _ =>
    rcases Blueprint.mem_join hp with rfl | ⟨s, hs, f, hf, hkey, hsubst⟩
    · obtain ⟨hname, hside⟩ := ChainKey.mk.inj (own_key_of_blueprint henv hb)
      obtain ⟨e, he, hpieces⟩ := pieces_of_blueprint hb
      rw [hname, he] at hget
      rw [hside] at hcontext
      rw [hpieces.own, hcontext, ← Option.some.inj hget]
      exact Substitution.mem_names_identity
    · obtain ⟨hname, hside⟩ := ChainKey.mk.inj hkey
      obtain ⟨-, ih⟩ := hparts s.key (Blueprint.key_mem_keys hs)
      rw [hsubst, Substitution.names_compose]
      exact ih hf (hside ▸ hcontext) (hname ▸ hget)

/-- An ancestor of a class that is neither the class itself nor reached through what the class
prepends or includes is an ancestor of the superclass, with the arguments put in that the class
gives to the superclass. -/
theorem exists_inherited_entry (henv : env.Anchored) {name super : TypeName}
    (he : env.get? name = some e) {args : List TypeExpr}
    (hsuper : env.superClass? e = some (super, args))
    (hchain : env.chain [] ⟨name, .onInstance⟩ = .ok c) {cs : Chain}
    (hsuperChain : env.chain [] ⟨super, .onInstance⟩ = .ok cs) {p : AncestorEntry}
    (hp : p ∈ c.entries) (hname : p.name ≠ name)
    (hmixins : ∀ directive target, env.MixesIn e directive target →
      directive.side = .onInstance → ¬ env.LeadsTo ⟨target, .onInstance⟩ p.key) :
    ∃ q ∈ cs.entries, p.key = q.key ∧
      p.substitution = (env.bindArgs super args).compose q.substitution := by
  obtain ⟨b, chainOf, hb, hparts, rfl⟩ := chain_nil_eq_join hchain
  rcases Blueprint.mem_join hp with rfl | ⟨s, hs, f, hf, hkey, hsubst⟩
  · exact absurd (ChainKey.mk.inj (own_key_of_blueprint henv hb)).1 hname
  · obtain ⟨e', he', hpieces⟩ := pieces_of_blueprint hb
    obtain rfl := Option.some.inj (he.symm.trans he')
    have hjoined : env.chain [] s.key = .ok (chainOf s.key) :=
      chain_nil_of_ok (hparts s.key (Blueprint.key_mem_keys hs))
    cases (hpieces.splices s).1 hs with
    | @mixin directive hside hs =>
      -- what a directive puts in leads to all of its entries
      obtain ⟨target, hmixes, htarget⟩ := mem_keys_mixinSplices.1 (List.mem_map_of_mem hs)
      refine absurd ?_ (hmixins directive target hmixes hside)
      rw [hkey, ← htarget]
      exact (mem_keys_iff_leadsTo henv hjoined).1 (List.mem_map_of_mem hf)
    | superClass _ _ hs =>
      rw [superClassSplices, hsuper] at hs
      obtain rfl := List.mem_singleton.1 hs
      obtain rfl := Except.ok.inj (hjoined.symm.trans hsuperChain)
      exact ⟨f, hf, hkey, hsubst⟩
    | singletonSuper _ hside _ | moduleClass _ hside _ => cases hside

end Environment

end RubySig
