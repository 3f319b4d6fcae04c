import Mathlib.Data.List.Chain
import Mathlib.Logic.Relation
import RubySig.Ancestry

/-!
# Chains by recursion

What `Environment.chain` answers, and what its answer depends on.

* `Blueprint.join`: the chain that a blueprint gives when the chains of its parts are known.
* `Blueprint.assemble_eq_ok`, `Blueprint.assemble_eq_error`: a blueprint is assembled from the
  chains of its keys, and the first of them that fails is its failure.
* `Environment.chain_of_blueprint`: one step of the recursion.
* `Environment.Depends`, `Environment.Reaches`: one chain is a part of another, directly or
  through others.
* `Environment.notMem_path_of_chain_ok`: a chain that is built holds no part that is on the path.
* `Environment.chain_eq_of_isChain`: below a path of dependencies the path does not matter.
-/

namespace RubySig

/-! ## Assembling -/

namespace Blueprint

/-- The pieces put together when the chains of all keys are known. -/
def join (b : Blueprint) (chainOf : ChainKey → Chain) : List AncestorEntry :=
  let expand (s : Splice) := s.expand (chainOf s.key)
  dedupeEntries []
    ((b.front.map expand).flatten ++
      b.own :: ((b.behind.map expand).reverse.flatten ++ (b.tail.map expand).flatten))

theorem expandAll_ok {ask : ChainKey → Except Failure Chain} {chainOf : ChainKey → Chain}
    {splices : List Splice} (h : ∀ s ∈ splices, ask s.key = .ok (chainOf s.key)) :
    expandAll ask splices = .ok (splices.map fun s => s.expand (chainOf s.key)) := by
  induction splices with
  | nil => rfl
  | cons s rest ih =>
    rw [expandAll, h s List.mem_cons_self, ih fun r hr => h r (List.mem_cons_of_mem _ hr)]
    rfl

theorem expandAll_error {ask : ChainKey → Except Failure Chain} {failure : Failure}
    {splices : List Splice} {done : List ChainKey} {key : ChainKey} {rest : List ChainKey}
    (hkeys : splices.map (·.key) = done ++ key :: rest) (hdone : ∀ k ∈ done, ∃ c, ask k = .ok c)
    (hkey : ask key = .error failure) : expandAll ask splices = .error failure := by
  induction splices generalizing done with
  | nil => simp at hkeys
  | cons s splices ih =>
    rw [expandAll]
    cases done with
    | nil =>
      obtain ⟨rfl, -⟩ := List.cons.inj hkeys
      rw [hkey]
      rfl
    | cons d done =>
      obtain ⟨rfl, hrest⟩ := List.cons.inj hkeys
      obtain ⟨c, hc⟩ := hdone s.key List.mem_cons_self
      rw [hc, ih hrest fun k hk => hdone k (List.mem_cons_of_mem _ hk)]
      rfl

theorem expandAll_append (ask : ChainKey → Except Failure Chain) (xs ys : List Splice) :
    expandAll ask (xs ++ ys) = do
      let front ← expandAll ask xs
      let behind ← expandAll ask ys
      return front ++ behind := by
  induction xs with
  | nil => cases h : expandAll ask ys <;> simp [expandAll, h]
  | cons s xs ih =>
    rw [List.cons_append, expandAll, ih, expandAll]
    cases ask s.key with
    | error _ => rfl
    | ok c =>
      cases expandAll ask xs with
      | error _ => rfl
      | ok front => cases expandAll ask ys <;> rfl

/-- All questions of a list are answered, or a first one is not. -/
theorem answered_or_first_error (ask : ChainKey → Except Failure Chain) (keys : List ChainKey) :
    (∀ k ∈ keys, ∃ c, ask k = .ok c) ∨
      ∃ done key rest failure, keys = done ++ key :: rest ∧ (∀ k ∈ done, ∃ c, ask k = .ok c) ∧
        ask key = .error failure := by
  induction keys with
  | nil => exact Or.inl fun k hk => absurd hk List.not_mem_nil
  | cons k keys ih =>
    cases hk : ask k with
    | error failure =>
      exact Or.inr ⟨[], k, keys, failure, rfl, fun _ h => absurd h List.not_mem_nil, hk⟩
    | ok c =>
      rcases ih with hall | ⟨done, key, rest, failure, rfl, hdone, hkey⟩
      · exact Or.inl (List.forall_mem_cons.2 ⟨⟨c, hk⟩, hall⟩)
      · exact Or.inr ⟨k :: done, key, rest, failure, rfl,
          List.forall_mem_cons.2 ⟨⟨c, hk⟩, hdone⟩, hkey⟩

variable {b : Blueprint} {ask : ChainKey → Except Failure Chain}

theorem assemble_eq_ok {chainOf : ChainKey → Chain} (h : ∀ k ∈ b.keys, ask k = .ok (chainOf k)) :
    b.assemble ask = .ok (b.join chainOf) := by
  have hpart : ∀ s ∈ b.front ++ b.behind ++ b.tail, ask s.key = .ok (chainOf s.key) :=
    fun s hs => h s.key (List.mem_map_of_mem hs)
  simp only [List.mem_append] at hpart
  rw [assemble, expandAll_ok fun s hs => hpart s (Or.inl (Or.inl hs)),
    expandAll_ok fun s hs => hpart s (Or.inl (Or.inr hs)),
    expandAll_ok fun s hs => hpart s (Or.inr hs)]
  rfl

/-- The first key without a chain is where assembling fails. -/
theorem assemble_eq_error {failure : Failure} {done : List ChainKey} {key : ChainKey}
    {rest : List ChainKey} (hkeys : b.keys = done ++ key :: rest)
    (hdone : ∀ k ∈ done, ∃ c, ask k = .ok c) (hkey : ask key = .error failure) :
    b.assemble ask = .error failure := by
  have hall : expandAll ask (b.front ++ b.behind ++ b.tail) = .error failure :=
    expandAll_error hkeys hdone hkey
  rw [expandAll_append, expandAll_append] at hall
  rw [assemble]
  revert hall
  cases expandAll ask b.front with
  | error _ => exact fun hall => congrArg _ (Except.error.inj hall)
  | ok front =>
    cases expandAll ask b.behind with
    | error _ => exact fun hall => congrArg _ (Except.error.inj hall)
    | ok behind =>
      cases expandAll ask b.tail with
      | error _ => exact fun hall => congrArg _ (Except.error.inj hall)
      | ok tail => exact fun hall => nomatch hall

theorem answered_of_assemble_eq_ok {entries : List AncestorEntry}
    (h : b.assemble ask = .ok entries) : ∀ k ∈ b.keys, ∃ c, ask k = .ok c := by
  rcases answered_or_first_error ask b.keys with
    hall | ⟨done, key, rest, failure, hkeys, hdone, hkey⟩
  · exact hall
  · rw [assemble_eq_error hkeys hdone hkey] at h
    cases h

end Blueprint

/-! ## One step of the recursion -/

namespace Environment

variable (env : Environment)

theorem get?_of_blueprint {key : ChainKey} {b : Blueprint} (h : env.blueprint key = .ok b) :
    ∃ e, env.get? key.name = some e ∧ env.entryBlueprint e key.context = .ok b := by
  rw [blueprint] at h
  cases he : env.get? key.name with
  | none => rw [he] at h; cases h
  | some e => rw [he] at h; exact ⟨e, rfl, h⟩

theorem chain_of_mem {path : List ChainKey} {key : ChainKey} (h : key ∈ path) :
    env.chain path key = .error (env.cycle path key) := by
  rw [chain, if_pos h]

/-- Off the path a chain is assembled from the chains of its parts, which are asked for with the
chain itself on the path. -/
theorem chain_of_notMem {path : List ChainKey} {key : ChainKey} (hpath : key ∉ path) :
    env.chain path key = (env.blueprint key).bind fun b =>
      (b.assemble (env.chain (path ++ [key]))).map fun entries =>
        ⟨key.name, key.context, entries⟩ := by
  rw [chain, if_neg hpath, blueprint]
  split <;> rename_i he <;> rw [he]
  · rfl
  · show (_ >>= _) = _
    refine bind_congr fun b => ?_
    show (_ >>= _) = _
    cases b.assemble (env.chain (path ++ [key])) <;> rfl

theorem chain_of_error {path : List ChainKey} {key : ChainKey} {failure : Failure}
    (hpath : key ∉ path) (h : env.blueprint key = .error failure) :
    env.chain path key = .error failure := by
  rw [env.chain_of_notMem hpath, h]
  rfl

theorem chain_of_blueprint {path : List ChainKey} {key : ChainKey} {b : Blueprint}
    (hpath : key ∉ path) (h : env.blueprint key = .ok b) :
    env.chain path key =
      (b.assemble (env.chain (path ++ [key]))).map fun entries =>
        ⟨key.name, key.context, entries⟩ := by
  rw [env.chain_of_notMem hpath, h]
  rfl

/-! ## Parts of a chain -/

/-- A chain is made of another one. -/
def Depends (key part : ChainKey) : Prop := part ∈ env.dependencies key

/-- A chain is the given one, a part of it, a part of a part, and so on. -/
def Reaches : ChainKey → ChainKey → Prop := Relation.ReflTransGen env.Depends

theorem dependencies_of_blueprint {key : ChainKey} {b : Blueprint}
    (h : env.blueprint key = .ok b) : env.dependencies key = b.keys := by
  rw [dependencies, h]

theorem depends_iff_of_blueprint {key part : ChainKey} {b : Blueprint}
    (h : env.blueprint key = .ok b) : env.Depends key part ↔ part ∈ b.keys := by
  rw [Depends, env.dependencies_of_blueprint h]

theorem exists_blueprint_of_depends {key part : ChainKey} (h : env.Depends key part) :
    ∃ b, env.blueprint key = .ok b ∧ part ∈ b.keys := by
  rw [Depends, dependencies] at h
  cases hb : env.blueprint key with
  | error _ => rw [hb] at h; exact absurd h List.not_mem_nil
  | ok b => rw [hb] at h; exact ⟨b, rfl, h⟩

/-- What holds of a chain on a path, if it holds of its parts with the chain on the path, holds of
every chain on every path. -/
@[elab_as_elim]
theorem chainInduction {motive : List ChainKey → ChainKey → Prop}
    (step : ∀ path key, (key ∉ path → ∀ part, env.Depends key part → motive (path ++ [key]) part) →
      motive path key) (path : List ChainKey) (key : ChainKey) : motive path key :=
  step path key fun hpath part hpart =>
    have hlt : (env.keysOff (path ++ [key])).length < (env.keysOff path).length := by
      obtain ⟨b, hb, -⟩ := env.exists_blueprint_of_depends hpart
      obtain ⟨e, he, -⟩ := env.get?_of_blueprint hb
      exact env.keysOff_append_lt hpath he
    chainInduction step (path ++ [key]) part
  termination_by (env.keysOff path).length

variable {env}

theorem notMem_path_of_ok {path : List ChainKey} {key : ChainKey} {c : Chain}
    (h : env.chain path key = .ok c) : key ∉ path := by
  intro hmem
  rw [env.chain_of_mem hmem] at h
  cases h

/-- A chain that is built has a blueprint, and all its parts are built. -/
theorem parts_of_chain_ok {path : List ChainKey} {key : ChainKey} {c : Chain}
    (h : env.chain path key = .ok c) :
    ∃ b, env.blueprint key = .ok b ∧
      ∀ part ∈ b.keys, ∃ p, env.chain (path ++ [key]) part = .ok p := by
  have hpath := notMem_path_of_ok h
  cases hb : env.blueprint key with
  | error _ => rw [env.chain_of_error hpath hb] at h; cases h
  | ok b =>
    rw [env.chain_of_blueprint hpath hb] at h
    refine ⟨b, rfl, ?_⟩
    cases ha : b.assemble (env.chain (path ++ [key])) with
    | error _ => rw [ha] at h; cases h
    | ok entries => exact Blueprint.answered_of_assemble_eq_ok ha

theorem part_of_chain_ok {path : List ChainKey} {key part : ChainKey} {c : Chain}
    (h : env.chain path key = .ok c) (hpart : env.Depends key part) :
    ∃ p, env.chain (path ++ [key]) part = .ok p := by
  obtain ⟨b, hb, hparts⟩ := parts_of_chain_ok h
  exact hparts part ((env.depends_iff_of_blueprint hb).1 hpart)

/-- A chain that is built has no part that is on the path. -/
theorem notMem_path_of_chain_ok {path : List ChainKey} {key part : ChainKey} {c : Chain}
    (h : env.chain path key = .ok c) (hreach : env.Reaches key part) : part ∉ path := by
  induction hreach using Relation.ReflTransGen.head_induction_on generalizing path c with
  | refl => exact notMem_path_of_ok h
  | head hstep _ ih =>
    obtain ⟨p, hp⟩ := part_of_chain_ok h hstep
    exact fun hmem => ih hp (List.mem_append_left _ hmem)

/-- A chain that is built is no part of its own parts. -/
theorem not_reaches_of_chain_ok {path : List ChainKey} {key part : ChainKey} {c : Chain}
    (h : env.chain path key = .ok c) (hpart : env.Depends key part) : ¬ env.Reaches part key := by
  intro hreach
  obtain ⟨p, hp⟩ := part_of_chain_ok h hpart
  exact notMem_path_of_chain_ok hp hreach (List.mem_append_right _ (List.mem_singleton_self key))

/-- On two paths that hold no part of a chain the chain is the same. -/
theorem chain_ok_of_disjoint {path other : List ChainKey} {key : ChainKey} {c : Chain}
    (h : env.chain path key = .ok c) (hother : ∀ part, env.Reaches key part → part ∉ other) :
    env.chain other key = .ok c := by
  induction path, key using env.chainInduction generalizing other c with
  | step path key ih =>
    have hpath := notMem_path_of_ok h
    obtain ⟨b, hb, hparts⟩ := parts_of_chain_ok h
    choose! chainOf hchain using hparts
    have hthere : ∀ part ∈ b.keys, env.chain (other ++ [key]) part = .ok (chainOf part) := by
      intro part hpart
      have hdep : env.Depends key part := (env.depends_iff_of_blueprint hb).2 hpart
      refine ih hpath part hdep (hchain part hpart) fun k hk hmem => ?_
      rcases List.mem_append.1 hmem with hmem | hmem
      · exact hother k (hk.head hdep) hmem
      · exact not_reaches_of_chain_ok h hdep (List.mem_singleton.1 hmem ▸ hk)
    rw [env.chain_of_blueprint hpath hb, Blueprint.assemble_eq_ok hchain] at h
    rw [env.chain_of_blueprint (hother key .refl) hb, Blueprint.assemble_eq_ok hthere]
    exact h

theorem chain_nil_of_ok {path : List ChainKey} {key : ChainKey} {c : Chain}
    (h : env.chain path key = .ok c) : env.chain [] key = .ok c :=
  chain_ok_of_disjoint h fun _ _ => List.not_mem_nil

/-- Below a path on which every chain is a part of the one before, a chain that can be built at
all is built, and it is the same. -/
theorem chain_eq_of_isChain {path : List ChainKey} {key : ChainKey} {c : Chain}
    (hpath : (path ++ [key]).IsChain env.Depends) (h : env.chain [] key = .ok c) :
    env.chain path key = .ok c := by
  refine chain_ok_of_disjoint h fun k hreach hk => ?_
  -- a part on the path closes a cycle through `key`
  have habove : (path ++ [key]).Pairwise (Relation.TransGen env.Depends) :=
    (hpath.imp fun _ _ => Relation.TransGen.single).pairwise
  have hdown : Relation.TransGen env.Depends k key :=
    (List.pairwise_append.1 habove).2.2 k hk key (List.mem_singleton_self key)
  obtain ⟨part, hpart, hback⟩ := Relation.TransGen.head'_iff.1 (hdown.trans_right hreach)
  exact not_reaches_of_chain_ok h hpart hback

theorem isChain_append_part {path : List ChainKey} {key part : ChainKey}
    (hpath : (path ++ [key]).IsChain env.Depends) (hpart : env.Depends key part) :
    (path ++ [key] ++ [part]).IsChain env.Depends := by
  rw [List.append_assoc]
  exact List.isChain_append_cons_cons.2 ⟨hpath, hpart, List.isChain_singleton _⟩

/-- A chain is built once all its parts are. -/
theorem chain_ok_of_parts {key : ChainKey} {b : Blueprint} (hb : env.blueprint key = .ok b)
    (hparts : ∀ part ∈ b.keys, ∃ c, env.chain [] part = .ok c) :
    ∃ c, env.chain [] key = .ok c := by
  choose! chainOf hchain using hparts
  have hthere : ∀ part ∈ b.keys, env.chain ([] ++ [key]) part = .ok (chainOf part) :=
    fun part hpart => chain_eq_of_isChain
      (isChain_append_part (List.isChain_singleton key) ((env.depends_iff_of_blueprint hb).2 hpart))
      (hchain part hpart)
  rw [env.chain_of_blueprint List.not_mem_nil hb, Blueprint.assemble_eq_ok hthere]
  exact ⟨_, rfl⟩

/-- A chain fails with the first of its parts that fails. -/
theorem chain_error_of_part {path done rest : List ChainKey} {key part : ChainKey}
    {failure : Failure} (hpath : (path ++ [key]).IsChain env.Depends) (hkey : key ∉ path)
    (hparts : env.dependencies key = done ++ part :: rest)
    (hdone : ∀ k ∈ done, ∃ c, env.chain [] k = .ok c)
    (hpart : env.chain (path ++ [key]) part = .error failure) :
    env.chain path key = .error failure := by
  have hdep : ∀ k ∈ done ++ part :: rest, env.Depends key k := fun k hk => by
    rw [Depends, hparts]
    exact hk
  obtain ⟨b, hb, -⟩ := env.exists_blueprint_of_depends
    (hdep part (List.mem_append_right _ List.mem_cons_self))
  have hthere : ∀ k ∈ done, ∃ c, env.chain (path ++ [key]) k = .ok c := fun k hk => by
    obtain ⟨c, hc⟩ := hdone k hk
    exact ⟨c, chain_eq_of_isChain
      (isChain_append_part hpath (hdep k (List.mem_append_left _ hk))) hc⟩
  rw [env.dependencies_of_blueprint hb] at hparts
  rw [env.chain_of_blueprint hkey hb, Blueprint.assemble_eq_error hparts hthere hpart]
  rfl

end Environment

end RubySig
