import Mathlib.Data.List.TakeWhile
import RubySig.Proofs.Ancestry.Pieces
import RubySig.Proofs.Environment.Merge

/-!
# What a chain holds

The entries of a chain come from the chains that it is made of, each key once.

* `mem_keys_dedupeEntries`, `nodup_dedupeEntries`: keeping the first of several entries of one key
  loses no key.
* `Blueprint.mem_join`, `Blueprint.mem_keys_join`: the entries and the keys of an assembled chain.
* `Environment.chainOkInduction`: what holds of a chain if it holds of the chains that it is made of
  holds of every chain.
* `Environment.chain_of_mem_entries`: every entry of a chain has a chain of its own, and all its
  ancestors are among those of the first chain.
* `Chain.Ahead`: one ancestor stands in front of another.
-/

namespace RubySig

/-! ## The first entry of each key -/

theorem mem_of_mem_dedupeEntries {seen : List ChainKey} {entries : List AncestorEntry}
    {e : AncestorEntry} (h : e ∈ dedupeEntries seen entries) : e ∈ entries := by
  induction entries generalizing seen with
  | nil => exact h
  | cons f rest ih =>
    rw [dedupeEntries] at h
    split at h
    · exact List.mem_cons_of_mem _ (ih h)
    · exact (List.mem_cons.1 h).elim (fun he => he ▸ List.mem_cons_self)
        fun he => List.mem_cons_of_mem _ (ih he)

theorem mem_keys_dedupeEntries {seen : List ChainKey} {entries : List AncestorEntry}
    {k : ChainKey} :
    k ∈ (dedupeEntries seen entries).map (·.key) ↔ k ∈ entries.map (·.key) ∧ k ∉ seen := by
  induction entries generalizing seen with
  | nil => simp [dedupeEntries]
  | cons e rest ih =>
    rw [dedupeEntries]
    by_cases he : e.key ∈ seen
    · rw [if_pos he, ih, List.map_cons, List.mem_cons]
      refine and_congr_left fun hk => ⟨Or.inr, fun h => h.resolve_left fun hek => ?_⟩
      exact hk (hek ▸ he)
    · rw [if_neg he, List.map_cons, List.mem_cons, ih, List.map_cons, List.mem_cons, List.mem_cons]
      by_cases hk : k = e.key
      · simp [hk, he]
      · simp [hk]

theorem nodup_dedupeEntries (seen : List ChainKey) (entries : List AncestorEntry) :
    ((dedupeEntries seen entries).map (·.key)).Nodup := by
  induction entries generalizing seen with
  | nil => exact List.nodup_nil
  | cons e rest ih =>
    rw [dedupeEntries]
    split
    · exact ih seen
    · refine List.nodup_cons.2 ⟨fun hmem => ?_, ih _⟩
      exact (mem_keys_dedupeEntries.1 hmem).2 List.mem_cons_self

/-! ## The entries of an assembled chain -/

namespace Blueprint

/-- What is put together before the repeated keys are dropped. -/
theorem mem_join_iff {b : Blueprint} {chainOf : ChainKey → Chain} {p : AncestorEntry → Prop} :
    (∃ e ∈ (b.front.map fun s => s.expand (chainOf s.key)).flatten ++
        b.own :: ((b.behind.map fun s => s.expand (chainOf s.key)).reverse.flatten ++
          (b.tail.map fun s => s.expand (chainOf s.key)).flatten), p e) ↔
      p b.own ∨ ∃ s ∈ b.splices, ∃ e ∈ s.expand (chainOf s.key), p e := by
  simp only [splices, List.mem_append, List.mem_cons, List.mem_flatten, List.mem_reverse,
    List.mem_map]
  constructor
  · rintro ⟨e, ⟨_, ⟨s, hs, rfl⟩, he⟩ | rfl | ⟨_, ⟨s, hs, rfl⟩, he⟩ | ⟨_, ⟨s, hs, rfl⟩, he⟩, hp⟩
    · exact Or.inr ⟨s, Or.inl (Or.inl hs), e, he, hp⟩
    · exact Or.inl hp
    · exact Or.inr ⟨s, Or.inl (Or.inr hs), e, he, hp⟩
    · exact Or.inr ⟨s, Or.inr hs, e, he, hp⟩
  · rintro (hp | ⟨s, (hs | hs) | hs, e, he, hp⟩)
    · exact ⟨_, Or.inr (Or.inl rfl), hp⟩
    · exact ⟨e, Or.inl ⟨_, ⟨s, hs, rfl⟩, he⟩, hp⟩
    · exact ⟨e, Or.inr (Or.inr (Or.inl ⟨_, ⟨s, hs, rfl⟩, he⟩)), hp⟩
    · exact ⟨e, Or.inr (Or.inr (Or.inr ⟨_, ⟨s, hs, rfl⟩, he⟩)), hp⟩

/-- An entry of an assembled chain is that of the entity or one of a chain that is put in. -/
theorem mem_join {b : Blueprint} {chainOf : ChainKey → Chain} {e : AncestorEntry}
    (h : e ∈ b.join chainOf) :
    e = b.own ∨ ∃ s ∈ b.splices, ∃ f ∈ (chainOf s.key).entries,
      e.key = f.key ∧ e.substitution = s.binding.compose f.substitution := by
  rcases mem_join_iff.1 ⟨e, mem_of_mem_dedupeEntries h, rfl⟩ with he | ⟨s, hs, f, hf, he⟩
  · exact Or.inl he
  · obtain ⟨g, hg, rfl⟩ := List.mem_map.1 hf
    exact Or.inr ⟨s, hs, g, hg, by rw [he]; rfl, by rw [he]⟩

theorem mem_keys_join {b : Blueprint} {chainOf : ChainKey → Chain} {k : ChainKey} :
    k ∈ (b.join chainOf).map (·.key) ↔
      k = b.own.key ∨ ∃ s ∈ b.splices, k ∈ (chainOf s.key).entries.map (·.key) := by
  rw [join, mem_keys_dedupeEntries, List.mem_map, mem_join_iff]
  simp [Splice.expand, AncestorEntry.key, eq_comm]

end Blueprint

/-! ## Chains from the chains of their parts -/

namespace Environment

variable {env : Environment}

/-- A chain that is built is assembled from the chains of its parts, which are the same wherever
they are asked for. -/
theorem chain_nil_eq_join {path : List ChainKey} {key : ChainKey} {c : Chain}
    (h : env.chain path key = .ok c) :
    ∃ b chainOf, env.blueprint key = .ok b ∧
      (∀ part ∈ b.keys, env.chain (path ++ [key]) part = .ok (chainOf part)) ∧
      c = ⟨key.name, key.context, b.join chainOf⟩ := by
  obtain ⟨b, hb, hparts⟩ := parts_of_chain_ok h
  choose! chainOf hchain using hparts
  refine ⟨b, chainOf, hb, hchain, ?_⟩
  rw [env.chain_of_blueprint (notMem_path_of_ok h) hb, Blueprint.assemble_eq_ok hchain] at h
  exact (Except.ok.inj h).symm

/-- What holds of a chain, if it holds of all chains that it is made of, holds of every chain. -/
@[elab_as_elim]
theorem chainOkInduction
    {motive : (key : ChainKey) → (c : Chain) → env.chain [] key = .ok c → Prop}
    (step : ∀ key b chainOf, env.blueprint key = .ok b →
      (∀ part ∈ b.keys, ∃ h : env.chain [] part = .ok (chainOf part),
        motive part (chainOf part) h) →
      ∀ h : env.chain [] key = .ok ⟨key.name, key.context, b.join chainOf⟩, motive key _ h)
    {key : ChainKey} {c : Chain} (h : env.chain [] key = .ok c) : motive key c h := by
  have hall : ∀ (path : List ChainKey) (key : ChainKey) (c : Chain)
      (hpath : env.chain path key = .ok c), motive key c (chain_nil_of_ok hpath) := by
    intro path key
    induction path, key using env.chainInduction with
    | step path key ih =>
      intro c hpath
      obtain ⟨b, chainOf, hb, hparts, rfl⟩ := chain_nil_eq_join hpath
      refine step key b chainOf hb (fun part hpart => ?_) (chain_nil_of_ok hpath)
      have hdep : env.Depends key part := (env.depends_iff_of_blueprint hb).2 hpart
      exact ⟨_, ih (notMem_path_of_ok hpath) part hdep _ (hparts part hpart)⟩
  exact hall [] key c h

/-- The entity itself stands in its chain under the key of the chain. -/
theorem own_key_of_blueprint (henv : env.Anchored) {key : ChainKey} {b : Blueprint}
    (h : env.blueprint key = .ok b) : b.own.key = key := by
  obtain ⟨e, he, hpieces⟩ := pieces_of_blueprint h
  rw [hpieces.own, key_ownEntry, (henv key.name e he).1]

/-- An entry of a chain has a chain of its own, and every ancestor in it is in the first chain. -/
theorem chain_of_mem_entries (henv : env.Anchored) {key : ChainKey} {c : Chain}
    (h : env.chain [] key = .ok c) {e : AncestorEntry} (he : e ∈ c.entries) :
    ∃ d, env.chain [] e.key = .ok d ∧ ∀ k ∈ d.entries.map (·.key), k ∈ c.entries.map (·.key) := by
  induction h using chainOkInduction generalizing e with
  | step key b chainOf hb hparts hchain =>
    rcases Blueprint.mem_join he with rfl | ⟨s, hs, f, hf, hkey, -⟩
    · rw [own_key_of_blueprint henv hb]
      exact ⟨_, hchain, fun _ hk => hk⟩
    · obtain ⟨-, ih⟩ := hparts s.key (Blueprint.key_mem_keys hs)
      obtain ⟨d, hd, hsub⟩ := ih hf
      exact ⟨d, hkey ▸ hd, fun k hk => Blueprint.mem_keys_join.2 (Or.inr ⟨s, hs, hsub k hk⟩)⟩

theorem nodup_keys_of_chain {key : ChainKey} {c : Chain} (h : env.chain [] key = .ok c) :
    (c.entries.map (·.key)).Nodup := by
  obtain ⟨b, chainOf, -, -, rfl⟩ := chain_nil_eq_join h
  exact nodup_dedupeEntries [] _

/-- The chain of an entity holds the entity itself. -/
theorem key_mem_entries (henv : env.Anchored) {key : ChainKey} {c : Chain}
    (h : env.chain [] key = .ok c) : key ∈ c.entries.map (·.key) := by
  obtain ⟨b, chainOf, hb, -, rfl⟩ := chain_nil_eq_join h
  exact Blueprint.mem_keys_join.2 (Or.inl (own_key_of_blueprint henv hb).symm)

end Environment

/-! ## The order of a chain -/

/-- What a list holds from the first place where it meets a value. -/
theorem exists_dropWhile_eq_cons {α β : Type} [DecidableEq β] {f : α → β} {y : β} {xs : List α}
    (h : y ∈ xs.map f) : ∃ x rest, xs.dropWhile (fun x => f x != y) = x :: rest ∧ f x = y := by
  obtain ⟨z, hz, hfz⟩ := List.mem_map.1 h
  cases hdrop : xs.dropWhile (fun x => f x != y) with
  | nil =>
    have hall := List.dropWhile_eq_nil_iff.1 hdrop z hz
    simp [hfz] at hall
  | cons x rest =>
    have hhead := List.head?_dropWhile_not (fun x => f x != y) xs
    rw [hdrop] at hhead
    exact ⟨x, rest, rfl, by simpa using hhead⟩

/-- In a chain one ancestor stands in front of another. -/
def Chain.Ahead (c : Chain) (near far : ChainKey) : Prop :=
  ∃ front e rest, c.entries = front ++ e :: rest ∧ e.key = far ∧ near ∈ front.map (·.key)

/-- What stands behind an ancestor is another one, if no key is repeated. -/
theorem key_ne_of_mem_behind {entries front rest : List AncestorEntry} {e p : AncestorEntry}
    (hnodup : (entries.map (·.key)).Nodup) (hsplit : entries = front ++ e :: rest) (hp : p ∈ rest) :
    p.key ≠ e.key := by
  intro hkey
  rw [hsplit, List.map_append, List.map_cons] at hnodup
  have hrest := (List.nodup_cons.1 (List.nodup_append.1 hnodup).2.1).1
  exact hrest (hkey ▸ List.mem_map_of_mem hp)

/-- An ancestor that is not behind another one stands in front of it. -/
theorem Chain.ahead_of_notMem {c : Chain} {front rest : List AncestorEntry} {e : AncestorEntry}
    {k : ChainKey} (hsplit : c.entries = front ++ e :: rest) (hk : k ∈ c.entries.map (·.key))
    (hne : k ≠ e.key) (hrest : k ∉ rest.map (·.key)) : c.Ahead k e.key := by
  refine ⟨front, e, rest, hsplit, rfl, ?_⟩
  rw [hsplit, List.map_append, List.map_cons] at hk
  rcases List.mem_append.1 hk with hk | hk
  · exact hk
  · exact ((List.mem_cons.1 hk).elim hne hrest).elim

end RubySig
