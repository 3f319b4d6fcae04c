import RubySig.Proofs.Ancestry.Memo

/-!
# Calls that recurse one level deep

A call of `AncestryTable.cachedChain` whose parts are all in the table takes them from there: it
asks for nothing that the table does not hold, and the calls that it makes make none themselves.

* `AncestryTable.chainStep`: one level of the recursion, with the questions for the parts as a
  parameter.
* `AncestryTable.Shallow`: a call that finds in the table whatever it asks for.
* `AncestryTable.shallow_of_parts`: a call is shallow if its chain or all parts of it are known.
* `AncestryTable.knows_of_cachedChain`: such a call keeps what is known, and adds its own chain if
  it succeeds.
-/

namespace RubySig

namespace AncestryTable

variable (env : Environment)

/-! ## One level -/

/-- One level of `cachedChain`. The chains that it is made of are asked for with `ask`, which gets
the path that leads to them. -/
def chainStep (ask : List ChainKey → ChainKey → TableM Chain) (path : List ChainKey)
    (key : ChainKey) : TableM Chain :=
  if key ∈ path then throw (env.cycle path key)
  else do
    match (← get).get? key with
    | some chain => return chain
    | none =>
      match env.blueprint key with
      | .error failure => throw failure
      | .ok b =>
        let entries ← b.assemble (ask (path ++ [key]))
        let chain : Chain := ⟨key.name, key.context, entries⟩
        modify (·.remember key chain)
        return chain

/-- A call that finds in the table every chain it asks for, so that the recursion behind it goes no
more than one level deep. -/
structure Shallow (t : AncestryTable) (key : ChainKey) : Prop where
  /-- Whatever answers its questions, the call is the same as long as those for other chains that
  the table holds are answered from the table. -/
  finds : ∀ ask : List ChainKey → ChainKey → TableM Chain,
    (∀ part c, part ≠ key → t.get? part = some c → (ask [key] part).run.run t = (.ok c, t)) →
      (chainStep env ask [] key).run.run t = (cachedChain env [] key).run.run t
  /-- The call is the same whatever would answer the questions of the calls that it makes. -/
  level : ∀ deeper : List ChainKey → ChainKey → TableM Chain,
    (chainStep env (chainStep env deeper) [] key).run.run t = (cachedChain env [] key).run.run t

variable {env} {ask : List ChainKey → ChainKey → TableM Chain} {path : List ChainKey}
  {t : AncestryTable} {key part : ChainKey} {c : Chain}

theorem chainStep_of_get? (h : key ∉ path) (hknown : t.get? key = some c) :
    (chainStep env ask path key).run.run t = (.ok c, t) := by
  have hget : (get : TableM AncestryTable).run.run t = (.ok t, t) := rfl
  rw [chainStep, if_neg h, TableM.run_bind, hget]
  simp only [hknown]
  rfl

/-- A chain that is not in the table is assembled and remembered. -/
theorem chainStep_of_unknown (h : key ∉ path) (hknown : t.get? key = none) :
    (chainStep env ask path key).run.run t = match env.blueprint key with
      | .error failure => (.error failure, t)
      | .ok b => match (b.assemble (ask (path ++ [key]))).run.run t with
        | (.ok entries, t') =>
          (.ok ⟨key.name, key.context, entries⟩, t'.remember key ⟨key.name, key.context, entries⟩)
        | (.error failure, t') => (.error failure, t') := by
  have hget : (get : TableM AncestryTable).run.run t = (.ok t, t) := rfl
  rw [chainStep, if_neg h, TableM.run_bind, hget]
  simp only [hknown]
  cases env.blueprint key with
  | error _ => rfl
  | ok b =>
    simp only [TableM.run_bind]
    rcases (b.assemble (ask (path ++ [key]))).run.run t with ⟨_ | _, _⟩ <;> rfl

/-- `cachedChain` is this level with itself below. -/
theorem cachedChain_eq_chainStep (path : List ChainKey) (key : ChainKey) (t : AncestryTable) :
    (cachedChain env path key).run.run t =
      (chainStep env (cachedChain env) path key).run.run t := by
  by_cases h : key ∈ path
  · rw [cachedChain_of_mem env h, chainStep, if_pos h]
    rfl
  · rw [cachedChain_of_notMem env h]
    cases hknown : t.get? key with
    | some c => rw [chainStep_of_get? h hknown]
    | none => exact (chainStep_of_unknown h hknown).symm

/-! ## Parts that are known -/

theorem run_expandAll {ask : ChainKey → TableM Chain} {chainOf : ChainKey → Chain}
    {splices : List Splice}
    (h : ∀ s ∈ splices, (ask s.key).run.run t = (.ok (chainOf s.key), t)) :
    (Blueprint.expandAll ask splices).run.run t =
      (.ok (splices.map fun s => s.expand (chainOf s.key)), t) := by
  induction splices with
  | nil => rfl
  | cons s rest ih =>
    rw [Blueprint.expandAll, TableM.run_bind, h s List.mem_cons_self]
    simp only [TableM.run_bind, ih fun r hr => h r (List.mem_cons_of_mem _ hr)]
    rfl

theorem run_assemble {ask : ChainKey → TableM Chain} {chainOf : ChainKey → Chain} {b : Blueprint}
    (h : ∀ k ∈ b.keys, (ask k).run.run t = (.ok (chainOf k), t)) :
    (b.assemble ask).run.run t = (.ok (b.join chainOf), t) := by
  have hpart : ∀ s ∈ b.front ++ b.behind ++ b.tail,
      (ask s.key).run.run t = (.ok (chainOf s.key), t) :=
    fun s hs => h s.key (List.mem_map_of_mem hs)
  simp only [List.mem_append] at hpart
  have hfront := run_expandAll fun s hs => hpart s (Or.inl (Or.inl hs))
  have hbehind := run_expandAll fun s hs => hpart s (Or.inl (Or.inr hs))
  have htail := run_expandAll fun s hs => hpart s (Or.inr hs)
  simp only [Blueprint.assemble, TableM.run_bind, hfront, hbehind, htail]
  rfl

/-- The outcome of a call whose parts are all in the table. -/
def outcome (env : Environment) (t : AncestryTable) (key : ChainKey) :
    Except Failure Chain × AncestryTable :=
  match t.get? key with
  | some c => (.ok c, t)
  | none =>
    match env.blueprint key with
    | .error failure => (.error failure, t)
    | .ok b =>
      let chain : Chain :=
        ⟨key.name, key.context, b.join fun part => (t.get? part).getD default⟩
      (.ok chain, t.remember key chain)

theorem chainStep_eq_outcome
    (hparts : t.knows key ∨ ∀ part, env.Depends key part → t.knows part)
    (hask : ∀ part c, part ≠ key → t.get? part = some c →
      (ask [key] part).run.run t = (.ok c, t)) :
    (chainStep env ask [] key).run.run t = t.outcome env key := by
  rw [outcome]
  cases hknown : t.get? key with
  | some c => rw [chainStep_of_get? List.not_mem_nil hknown]
  | none =>
    have hkey : ¬ t.knows key := by simp [knows, hknown]
    have hall := hparts.resolve_left hkey
    rw [chainStep_of_unknown List.not_mem_nil hknown]
    cases hb : env.blueprint key with
    | error _ => rfl
    | ok b =>
      have hanswers : ∀ k ∈ b.keys,
          (ask [key] k).run.run t = (.ok ((t.get? k).getD default), t) := by
        intro k hk
        have hknows : t.knows k := hall k ((env.depends_iff_of_blueprint hb).2 hk)
        obtain ⟨c, hc⟩ := Option.isSome_iff_exists.1 hknows
        have hne : k ≠ key := fun heq => hkey (heq ▸ hknows)
        rw [hask k c hne hc, hc]
        rfl
      simp only [List.nil_append, run_assemble hanswers]

/-- A level takes from the table what is there, if it is not on the path. -/
theorem chainStep_reads (deeper : List ChainKey → ChainKey → TableM Chain) (part : ChainKey)
    (c : Chain) (hne : part ≠ key) (hc : t.get? part = some c) :
    (chainStep env deeper [key] part).run.run t = (.ok c, t) :=
  chainStep_of_get? (fun hmem => hne (List.mem_singleton.1 hmem)) hc

theorem cachedChain_of_parts (hparts : t.knows key ∨ ∀ part, env.Depends key part → t.knows part) :
    (cachedChain env [] key).run.run t = t.outcome env key := by
  rw [cachedChain_eq_chainStep]
  refine chainStep_eq_outcome hparts fun part c hne hc => ?_
  rw [cachedChain_eq_chainStep, chainStep_reads _ part c hne hc]

/-- A call is shallow if its chain is known or if all parts of its chain are. -/
theorem shallow_of_parts (hparts : t.knows key ∨ ∀ part, env.Depends key part → t.knows part) :
    t.Shallow env key where
  finds _ hask := (chainStep_eq_outcome hparts hask).trans (cachedChain_of_parts hparts).symm
  level deeper :=
    (chainStep_eq_outcome hparts (chainStep_reads deeper)).trans (cachedChain_of_parts hparts).symm

/-! ## What is known afterwards -/

theorem knows_remember_of_knows {other : ChainKey} (h : t.knows other) :
    (t.remember key c).knows other := by
  rw [remember]
  split
  · exact h
  · by_cases hkey : other = key
    · simp [knows, get?, hkey]
    · rw [knows, get?, OrderedMap.get?_insert_of_ne _ _ hkey]
      exact h

theorem knows_remember_self : (t.remember key c).knows key := by
  rw [remember]
  split
  · assumption
  · simp [knows, get?]

/-- A call whose parts are known keeps what is known, and adds its own chain if it succeeds. -/
theorem knows_of_cachedChain {t' : AncestryTable}
    (hparts : t.knows key ∨ ∀ part, env.Depends key part → t.knows part)
    (hrun : (cachedChain env [] key).run.run t = (.ok c, t')) :
    t'.knows key ∧ ∀ other, t.knows other → t'.knows other := by
  rw [cachedChain_of_parts hparts, outcome] at hrun
  cases hknown : t.get? key with
  | some c =>
    simp only [hknown] at hrun
    cases hrun
    exact ⟨by simp [knows, hknown], fun _ h => h⟩
  | none =>
    simp only [hknown] at hrun
    cases hb : env.blueprint key with
    | error _ =>
      simp only [hb] at hrun
      cases hrun
    | ok b =>
      simp only [hb] at hrun
      cases hrun
      exact ⟨knows_remember_self, fun _ h => knows_remember_of_knows h⟩

end AncestryTable

end RubySig
