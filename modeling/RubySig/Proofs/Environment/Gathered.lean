import Mathlib.Algebra.Order.BigOperators.Group.List
import Mathlib.Algebra.Order.Group.Multiset
import RubySig.Proofs.Environment.Scope

/-!
# What environments gather

Something is read off every declaration, such as the places of its names or of its members.  Merging
stores a declaration at most once, and reads nothing more off it than there was.  So what is read
off an environment comes from its sources, with no more repetition.

* `Placement.gather`, `gatherAll`, `Entry.gather`, `Environment.gather`: what is read off placed
  declarations, entities and environments.
* `Merge.gather_insert_le`, `Merge.gather_insertAll_le`: what an insertion adds.
* `Environment.gather_mergeSources_le`: the environment of several sources.
* `nodup_sum_map`: parts that have nothing in common.
-/

namespace RubySig

/-! ## Sums of multisets -/

section Sums

variable {ι α : Type} {g : ι → Multiset α} {xs : List ι}

theorem mem_sum_map_iff {a : α} : a ∈ (xs.map g).sum ↔ ∃ x ∈ xs, a ∈ g x := by
  induction xs with
  | nil => simp
  | cons x rest ih => simp [ih]

/-- A sum of parts that have nothing in common repeats nothing. -/
theorem nodup_sum_map (hparts : ∀ x ∈ xs, (g x).Nodup)
    (hapart : xs.Pairwise fun x y => Disjoint (g x) (g y)) : (xs.map g).sum.Nodup := by
  induction hapart with
  | nil => simp
  | @cons x rest hx _ ih =>
    obtain ⟨hfirst, hrest⟩ := List.forall_mem_cons.1 hparts
    rw [List.map_cons, List.sum_cons, Multiset.nodup_add]
    refine ⟨hfirst, ih hrest, Multiset.disjoint_left.2 ?_⟩
    intro a ha ha'
    obtain ⟨y, hy, ha'⟩ := mem_sum_map_iff.1 ha'
    exact Multiset.disjoint_left.1 (hx y hy) ha ha'

end Sums

namespace OrderedMap

variable {κ ν μ : Type} [DecidableEq κ] [AddCommMonoid μ] (g : ν → μ)

/-- A value at a new key comes on top of the others. -/
theorem sum_values_insert_of_none {m : OrderedMap κ ν} {k : κ} (h : m.get? k = none) (v : ν) :
    ((m.insert k v).values.map g).sum = (m.values.map g).sum + g v := by
  obtain ⟨ps⟩ := m
  change lookupIn k ps = none at h
  show (((insertIn k v ps).map (·.2)).map g).sum = ((ps.map (·.2)).map g).sum + g v
  induction ps with
  | nil => simp [insertIn]
  | cons p rest ih =>
    rw [lookupIn] at h
    split at h
    · cases h
    · rename_i hp
      rw [insertIn, if_neg hp, List.map_cons, List.map_cons, List.sum_cons, ih h, List.map_cons,
        List.map_cons, List.sum_cons, add_assoc]

/-- A value at an old key replaces the one that was there. -/
theorem sum_values_insert_of_some {m : OrderedMap κ ν} {k : κ} {old : ν} (h : m.get? k = some old)
    (v : ν) :
    ((m.insert k v).values.map g).sum + g old = (m.values.map g).sum + g v := by
  obtain ⟨ps⟩ := m
  change lookupIn k ps = some old at h
  show (((insertIn k v ps).map (·.2)).map g).sum + g old = ((ps.map (·.2)).map g).sum + g v
  induction ps with
  | nil => cases h
  | cons p rest ih =>
    rw [lookupIn] at h
    split at h
    · rename_i hp
      obtain rfl := Option.some.inj h
      rw [insertIn, if_pos hp]
      simp only [List.map_cons, List.sum_cons]
      rw [add_right_comm, add_comm (g v), add_right_comm]
    · rename_i hp
      rw [insertIn, if_neg hp]
      simp only [List.map_cons, List.sum_cons]
      rw [add_assoc, ih h, add_assoc]

end OrderedMap

section Gathering

variable {α : Type} (ofEntity : EntityDecl → Multiset α) (ofGlobal : GlobalDecl → Multiset α)

/-! ## Declarations and environments -/

/-- What is read off a placed declaration. -/
def Placement.gather : Placement → Multiset α
  | .entity _ f => ofEntity f.decl
  | .global f => ofGlobal f.decl

/-- What is read off several placed declarations. -/
def gatherAll (placed : List Placement) : Multiset α :=
  (placed.map (Placement.gather ofEntity ofGlobal)).sum

/-- What is read off the fragments of an entity. -/
def Entry.gather (e : Entry) : Multiset α := (e.fragments.map (ofEntity ·.decl)).sum

/-- What is read off all entities and global variables. -/
def Environment.gather (env : Environment) : Multiset α :=
  (env.entities.map (Entry.gather ofEntity)).sum + (env.globals.values.map (ofGlobal ·.decl)).sum

theorem gatherAll_append (xs ys : List Placement) :
    gatherAll ofEntity ofGlobal (xs ++ ys) =
      gatherAll ofEntity ofGlobal xs + gatherAll ofEntity ofGlobal ys := by
  simp [gatherAll]

theorem gatherAll_flatMap {ι : Type} (f : ι → List Placement) (xs : List ι) :
    gatherAll ofEntity ofGlobal (xs.flatMap f) =
      (xs.map fun x => gatherAll ofEntity ofGlobal (f x)).sum := by
  induction xs with
  | nil => rfl
  | cons x rest ih => simp [List.flatMap_cons, gatherAll_append, ih]

theorem Entry.gather_reopen (e : Entry) (f : Fragment EntityDecl) :
    Entry.gather ofEntity { e with reopenings := e.reopenings ++ [f] } =
      e.gather ofEntity + ofEntity f.decl := by
  simp [gather, fragments, add_assoc]

/-! ## Inserting -/

namespace Merge

variable {m : Merge}

/-- An insertion adds what is inserted at most. -/
theorem gather_insert_le (hnamed : m.Holds fun _ => True) (p : Placement) :
    (m.insert p).env.gather ofEntity ofGlobal ≤
      m.env.gather ofEntity ofGlobal + p.gather ofEntity ofGlobal := by
  cases p with
  | entity name f =>
    rw [insert, insertEntity]
    cases hget : m.env.get? name with
    | none =>
      show ((m.env.entries.insert name ⟨name, f, []⟩).values.map (Entry.gather ofEntity)).sum +
        _ ≤ _
      rw [OrderedMap.sum_values_insert_of_none _ hget, add_right_comm]
      exact add_le_add_right (List.sum_singleton).le _
    | some existing =>
      dsimp only
      cases clash? existing f.decl with
      | some reason => exact Multiset.le_add_right _ _
      | none =>
        obtain rfl : existing.name = name := (hnamed name existing hget).1
        have hreplaced := OrderedMap.sum_values_insert_of_some (Entry.gather ofEntity) hget
          { existing with reopenings := existing.reopenings ++ [f] }
        rw [Entry.gather_reopen, ← add_assoc, add_right_comm, add_left_inj] at hreplaced
        show ((m.env.entries.insert existing.name _).values.map (Entry.gather ofEntity)).sum + _ ≤ _
        rw [hreplaced, add_right_comm]
        exact le_refl _
  | global f =>
    rw [insert, insertGlobal]
    split
    · exact Multiset.le_add_right _ _
    · rename_i hnew
      have hget : m.env.globals.get? f.decl.name = none := by
        rwa [OrderedMap.contains, Option.not_isSome_iff_eq_none] at hnew
      show _ + ((m.env.globals.insert f.decl.name f).values.map (ofGlobal ·.decl)).sum ≤ _
      rw [OrderedMap.sum_values_insert_of_none _ hget, ← add_assoc]
      exact le_refl _

theorem gather_insertAll_le (hnamed : m.Holds fun _ => True) (ps : List Placement) :
    (m.insertAll ps).env.gather ofEntity ofGlobal ≤
      m.env.gather ofEntity ofGlobal + gatherAll ofEntity ofGlobal ps := by
  induction ps generalizing m with
  | nil => exact (add_zero _).ge
  | cons p rest ih =>
    have hkeeps : p.Keeps fun _ => True := by
      cases p with
      | entity _ _ => exact ⟨trivial, fun _ _ _ _ => trivial⟩
      | global _ => trivial
    have hall : gatherAll ofEntity ofGlobal (p :: rest) =
      p.gather ofEntity ofGlobal + gatherAll ofEntity ofGlobal rest := List.sum_cons
    rw [hall, ← add_assoc]
    exact (ih (hnamed.insert hkeeps)).trans (add_le_add_left (gather_insert_le _ _ hnamed p) _)

end Merge

/-! ## Names that are read as type parameters -/

section Adopting

variable {ofEntity}
variable (hadopt : ∀ params d, ofEntity (adoptDecl params d) ≤ ofEntity d)

include hadopt

theorem Entry.gather_adopt_le (e : Entry) :
    (adoptEntry e).gather ofEntity ≤ e.gather ofEntity := by
  rw [gather, fragments_adoptEntry]
  split
  · exact le_refl _
  · rw [List.map_map]
    exact List.sum_le_sum fun f _ => hadopt _ f.decl

theorem Environment.gather_adopt_le (env : Environment) :
    (adoptTypeParams env).gather ofEntity ofGlobal ≤ env.gather ofEntity ofGlobal := by
  refine add_le_add_left ?_ _
  have hvalues : (adoptTypeParams env).entities = env.entities.map adoptEntry := by
    show (env.entries.pairs.map fun p => (p.1, adoptEntry p.2)).map (·.2) = _
    rw [entities, OrderedMap.values, List.map_map, List.map_map]
    rfl
  rw [hvalues, List.map_map]
  exact List.sum_le_sum fun e _ => Entry.gather_adopt_le hadopt e

/-- What is read off the environment of several sources is read off their declarations. -/
theorem Environment.gather_mergeSources_le (sources : List (SourceId × List Declaration)) :
    (mergeSources sources).1.gather ofEntity ofGlobal ≤
      (sources.map fun s => gatherAll ofEntity ofGlobal (placements s.1 s.2)).sum := by
  refine (Environment.gather_adopt_le ofGlobal hadopt _).trans ?_
  refine (Merge.gather_insertAll_le ofEntity ofGlobal Merge.holds_empty _).trans ?_
  rw [gatherAll_flatMap]
  exact (zero_add _).le

end Adopting

end Gathering

end RubySig
