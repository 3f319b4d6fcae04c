import Mathlib.Data.List.Nodup
import RubySig.Proofs.Ancestry.Entries
import RubySig.Proofs.Ancestry.Graph
import RubySig.Proofs.Ancestry.Memo
import RubySig.Proofs.Validation.Silence

/-!
# Cycles

The chain of a side can be built exactly if no cycle of the dependency graph can be reached from it.
Otherwise the failure tells a cycle: the part of the path from the side that is met again.

* `Environment.ClosedWalk`: a walk from a side back to itself that meets every side once.
* `Environment.closedWalk_of_mem_path`: what the path holds from a side that is met again is a
  closed walk.
* `Environment.closedWalk_of_chain_error`: every failure tells such a walk.
* `Environment.ancestors_ok_iff_acyclic`: both directions, for the question that a session asks.
-/

namespace RubySig

namespace Environment

variable {env : Environment} {root key : ChainKey} {path : List ChainKey}

/-- From `start` a walk along edges leads through `rest` back to `start`.  It meets each of its
sides once, and all of them can be reached from `root`. -/
structure ClosedWalk (env : Environment) (root start : ChainKey) (rest : List ChainKey) :
    Prop where
  edges : (start :: rest ++ [start]).IsChain env.Edge
  nodup : (start :: rest).Nodup
  reached : ∀ k ∈ start :: rest, env.LeadsTo root k

theorem ClosedWalk.onCycle {start : ChainKey} {rest : List ChainKey}
    (h : env.ClosedWalk root start rest) : Relation.TransGen env.Edge start start := by
  have hpairwise : (start :: (rest ++ [start])).Pairwise (Relation.TransGen env.Edge) :=
    (h.edges.imp fun _ _ => Relation.TransGen.single).pairwise
  exact List.rel_of_pairwise_cons hpairwise (List.mem_append_right _ (List.mem_singleton_self _))

/-! ## The walk that a failure tells -/

/-- On a path of edges, what stands behind a side that is met again leads back to it. -/
theorem closedWalk_of_mem_path (hpath : (path ++ [key]).IsChain env.Edge) (hnodup : path.Nodup)
    (hreached : ∀ k ∈ path, env.LeadsTo root k) (hmem : key ∈ path) :
    ∃ rest, path.dropWhile (· != key) = key :: rest ∧ env.ClosedWalk root key rest := by
  obtain ⟨start, rest, hrest, hstart⟩ := exists_dropWhile_eq_cons (path.map_id.symm ▸ hmem)
  obtain rfl : key = start := hstart.symm
  have hsuffix : key :: rest <:+ path := hrest ▸ List.dropWhile_suffix _
  have hclosed : key :: rest ++ [key] <:+ path ++ [key] := by
    obtain ⟨front, hfront⟩ := hsuffix
    exact ⟨front, by rw [← List.append_assoc, hfront]⟩
  exact ⟨rest, hrest, hpath.suffix hclosed, hnodup.sublist hsuffix.sublist,
    fun k hk => hreached k (hsuffix.subset hk)⟩

/-- The failure for a side that is on the path tells the walk from there. -/
theorem cycle_eq_of_mem_path {e : Entry} (he : env.get? key.name = some e) {rest : List ChainKey}
    (hrest : path.dropWhile (· != key) = key :: rest) :
    env.cycle path key =
      .diagnostic ⟨.cyclicAncestor ((key :: rest ++ [key]).map (·.name)), e.nameSpan⟩ := by
  rw [cycle, he]
  simp only [hrest, List.map_append, List.map_cons, List.map_nil]

/-- If the chain of a side that has methods cannot be built on a path of edges from `root`, the
failure tells a closed walk.  By induction along the recursion: the walk closes at the first side
that is met again. -/
theorem closedWalk_of_chain_error (hpath : (path ++ [key]).IsChain env.Edge) (hnodup : path.Nodup)
    (hreached : ∀ k ∈ path ++ [key], env.LeadsTo root k) (hkey : env.Askable key)
    {failure : Failure} (h : env.chain path key = .error failure) :
    ∃ start rest e, env.ClosedWalk root start rest ∧ env.get? start.name = some e ∧
      failure =
        .diagnostic ⟨.cyclicAncestor ((start :: rest ++ [start]).map (·.name)), e.nameSpan⟩ := by
  induction path, key using env.chainInduction with
  | step path key ih =>
    rcases chain_error_cases hkey h with ⟨hmem, rfl⟩ | ⟨hfresh, part, hdep, hpart⟩
    · obtain ⟨e, he, -⟩ := hkey
      obtain ⟨rest, hrest, hwalk⟩ := closedWalk_of_mem_path hpath hnodup
        (fun k hk => hreached k (List.mem_append_left _ hk)) hmem
      exact ⟨key, rest, e, hwalk, he, cycle_eq_of_mem_path he hrest⟩
    · have hedge : env.Edge key part := depends_iff_edge.1 hdep
      have hpath' : (path ++ [key] ++ [part]).IsChain env.Edge := by
        rw [List.append_assoc]
        exact List.isChain_append_cons_cons.2 ⟨hpath, hedge, List.isChain_singleton _⟩
      have hnodup' : (path ++ [key]).Nodup :=
        List.Nodup.append hnodup (List.nodup_singleton key) (List.disjoint_singleton.2 hfresh)
      have hreached' : ∀ k ∈ path ++ [key] ++ [part], env.LeadsTo root k := by
        refine List.forall_mem_append.2 ⟨hreached, List.forall_mem_singleton.2 ?_⟩
        exact (hreached key (List.mem_append_right _ (List.mem_singleton_self key))).tail hedge
      exact ih hfresh part hdep hpath' hnodup' hreached' (askable_of_depends hdep) hpart

/-! ## Chains that are built -/

/-- From a side whose chain is built only such sides can be reached. -/
theorem chain_ok_of_leadsTo {part : ChainKey} {c : Chain} (h : env.chain [] key = .ok c)
    (hpart : env.LeadsTo key part) : ∃ p, env.chain [] part = .ok p := by
  rw [← reaches_eq_leadsTo] at hpart
  induction hpart with
  | refl => exact ⟨c, h⟩
  | tail _ hdep ih =>
    obtain ⟨p, hp⟩ := ih
    obtain ⟨q, hq⟩ := part_of_chain_ok hp hdep
    exact ⟨q, chain_nil_of_ok hq⟩

/-- A side whose chain is built is on no cycle. -/
theorem not_onCycle_of_chain_ok {c : Chain} (h : env.chain [] key = .ok c) :
    ¬ Relation.TransGen env.Edge key key := by
  intro hcycle
  rw [← depends_eq_edge] at hcycle
  obtain ⟨part, hpart, hback⟩ := Relation.TransGen.head'_iff.1 hcycle
  exact not_reaches_of_chain_ok h hpart hback

/-- The chain of a side that has methods can be built exactly if no cycle can be reached from it.
Otherwise the failure names the sides of a closed walk that can be reached: at least two names, of
which the last is the first one again. -/
theorem ancestors_ok_iff_acyclic (hkey : env.Askable key) :
    ((∃ c, env.ancestors key = .ok c) ↔
        ¬ ∃ k, env.LeadsTo key k ∧ Relation.TransGen env.Edge k k) ∧
      ((∃ k, env.LeadsTo key k ∧ Relation.TransGen env.Edge k k) →
        ∃ names span, env.ancestors key = .error (.diagnostic ⟨.cyclicAncestor names, span⟩) ∧
          2 ≤ names.length ∧ names.head? = names.getLast? ∧
          ∃ start rest e, env.ClosedWalk key start rest ∧
            names = (start :: rest ++ [start]).map (·.name) ∧
            env.get? start.name = some e ∧ span = e.nameSpan) := by
  have hacyclic : ∀ {c}, env.chain [] key = .ok c →
      ¬ ∃ k, env.LeadsTo key k ∧ Relation.TransGen env.Edge k k := by
    rintro c hc ⟨k, hk, hcycle⟩
    obtain ⟨p, hp⟩ := chain_ok_of_leadsTo hc hk
    exact not_onCycle_of_chain_ok hp hcycle
  rw [ancestors_eq_chain]
  cases hchain : env.chain [] key with
  | ok c => exact ⟨⟨fun _ => hacyclic hchain, fun _ => ⟨c, rfl⟩⟩,
      fun hcycle => absurd hcycle (hacyclic hchain)⟩
  | error failure =>
    obtain ⟨start, rest, e, hwalk, he, rfl⟩ := closedWalk_of_chain_error
      (List.isChain_singleton key) List.nodup_nil
      (List.forall_mem_singleton.2 Relation.ReflTransGen.refl) hkey hchain
    have hcycle : ∃ k, env.LeadsTo key k ∧ Relation.TransGen env.Edge k k :=
      ⟨start, hwalk.reached start List.mem_cons_self, hwalk.onCycle⟩
    refine ⟨⟨fun ⟨_, hc⟩ => (by cases hc), fun hno => absurd hcycle hno⟩, fun _ => ?_⟩
    refine ⟨_, _, rfl, by simp, ?_, start, rest, e, hwalk, rfl, he, rfl⟩
    rw [List.map_append, List.map_singleton, List.getLast?_concat]
    rfl

/-! ## Two modules that include each other -/

end Environment

/-- Two modules that include each other, and a class that includes one of them. -/
def loopSetup : SessionSetup :=
  .ofFile "a.rbs" ("module Left\n  include Right\nend\n\nmodule Right\n  include Left\nend\n\n" ++
    "class Host\n  include Left\nend\n")

set_option maxRecDepth 100000 in
/-- The class is on no cycle itself, but its question fails with one. -/
theorem cyclic_ancestors_of_loop : ∃ s, loopSetup.build = .ok s ∧
    s.env.Askable ⟨.topLevel "Host", .onInstance⟩ ∧
    ∃ names span, s.env.ancestors ⟨.topLevel "Host", .onInstance⟩ =
        .error (.diagnostic ⟨.cyclicAncestor names, span⟩) ∧
      2 ≤ names.length ∧ names.head? = names.getLast? := by
  obtain ⟨s, hbuild, hs⟩ := exists_ok_of_any loopSetup.build
    (fun s => (s.env.get? (.topLevel "Host")).any (fun e => e.kind = .klass) &&
      (s.env.chain [] ⟨.topLevel "Host", .onInstance⟩).toOption.isNone) (by decide +kernel)
  rw [Bool.and_eq_true, Option.any_eq_true] at hs
  obtain ⟨⟨e, he, hkind⟩, hfails⟩ := hs
  have haskable : s.env.Askable ⟨.topLevel "Host", .onInstance⟩ :=
    ⟨e, he, by rw [of_decide_eq_true hkind]; decide⟩
  obtain ⟨hiff, herror⟩ := Environment.ancestors_ok_iff_acyclic haskable
  have hno : ¬ ∃ c, s.env.ancestors ⟨.topLevel "Host", .onInstance⟩ = .ok c := by
    rintro ⟨c, hc⟩
    rw [Environment.ancestors_eq_chain] at hc
    rw [hc] at hfails
    cases hfails
  obtain ⟨names, span, hfailure, hlength, hends, -⟩ := herror (not_not.1 fun h => hno (hiff.2 h))
  exact ⟨s, hbuild, haskable, names, span, hfailure, hlength, hends⟩

end RubySig
