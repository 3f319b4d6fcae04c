import Mathlib.Data.List.Basic
import RubySig.OrderedMap

/-!
# Keys, pairs and values of ordered maps

What the operations of `OrderedMap` do to the list of pairs behind it, seen as a set of pairs, a set
of keys or a partial function.

* `mem_pairs_insert`, `mem_keys_insert`, `get?_insert`: one write.
* `mem_pairs_ofList`, `mem_keys_ofList`, `ofList_of_nodup`, `get?_ofList_zip`: several writes.
* `get?_of_mem_pairs`, `nodup_keys_insert`, `nodup_keys_ofList`: no key is repeated, so each pair is
  found.
* `get?_mapValues`, `mapValues_insert`, `mapValues_ofList`: a change of all values.
-/

namespace RubySig

namespace OrderedMap

variable {κ ν μ : Type} [DecidableEq κ]

/-! ## Lookup and membership -/

theorem mem_pairs_of_get? {m : OrderedMap κ ν} {k : κ} {v : ν} (h : m.get? k = some v) :
    (k, v) ∈ m.pairs := by
  obtain ⟨ps⟩ := m
  change lookupIn k ps = some v at h
  induction ps with
  | nil => cases h
  | cons p rest ih =>
    rw [lookupIn] at h
    split at h
    · rename_i hp
      obtain ⟨rfl⟩ := h
      exact List.mem_cons.2 (Or.inl (by rw [← hp]))
    · exact List.mem_cons_of_mem _ (ih h)

theorem mem_values_of_get? {m : OrderedMap κ ν} {k : κ} {v : ν} (h : m.get? k = some v) :
    v ∈ m.values :=
  List.mem_map_of_mem (mem_pairs_of_get? h)

theorem exists_get?_of_mem_keys {m : OrderedMap κ ν} {k : κ} (h : k ∈ m.keys) :
    ∃ v, m.get? k = some v := by
  obtain ⟨ps⟩ := m
  change k ∈ ps.map (·.1) at h
  show ∃ v, lookupIn k ps = some v
  induction ps with
  | nil => exact absurd h List.not_mem_nil
  | cons p rest ih =>
    rw [lookupIn]
    split
    · exact ⟨p.2, rfl⟩
    · rename_i hp
      exact ih ((List.mem_cons.1 h).resolve_left fun hk => hp hk.symm)

theorem mem_keys_iff {m : OrderedMap κ ν} {k : κ} : k ∈ m.keys ↔ ∃ v, m.get? k = some v :=
  ⟨exists_get?_of_mem_keys, fun ⟨_, hv⟩ => mem_keys_of_get? hv⟩

/-- If no key is repeated, every pair is found under its key. -/
theorem get?_of_mem_pairs {m : OrderedMap κ ν} (hnodup : m.keys.Nodup) {k : κ} {v : ν}
    (h : (k, v) ∈ m.pairs) : m.get? k = some v := by
  obtain ⟨ps⟩ := m
  change (ps.map (·.1)).Nodup at hnodup
  show lookupIn k ps = some v
  induction ps with
  | nil => exact absurd h List.not_mem_nil
  | cons p rest ih =>
    obtain ⟨hp, hrest⟩ := List.nodup_cons.1 hnodup
    rw [lookupIn]
    rcases List.mem_cons.1 h with rfl | h
    · rw [if_pos rfl]
    · have hne : p.1 ≠ k := fun hk => hp (List.mem_map.2 ⟨_, h, hk.symm⟩)
      rw [if_neg hne]
      exact ih h hrest

/-! ## Writes -/

theorem get?_insert (m : OrderedMap κ ν) (k j : κ) (v : ν) :
    (m.insert k v).get? j = if j = k then some v else m.get? j := by
  split
  · subst j
    exact get?_insert_self m k v
  · exact get?_insert_of_ne m v ‹_›

theorem mem_keys_insert {m : OrderedMap κ ν} {k j : κ} {v : ν} :
    j ∈ (m.insert k v).keys ↔ j = k ∨ j ∈ m.keys := by
  rw [keys_insert]
  split
  · rename_i hk
    exact ⟨Or.inr, fun h => h.elim (fun hj => hj ▸ hk) id⟩
  · rw [List.mem_append, List.mem_singleton, or_comm]

theorem nodup_keys_insert {m : OrderedMap κ ν} (h : m.keys.Nodup) (k : κ) (v : ν) :
    (m.insert k v).keys.Nodup := by
  rw [keys_insert]
  split
  · exact h
  · rename_i hk
    refine List.nodup_append.2 ⟨h, List.pairwise_singleton _ k, fun j hj _ hk' hjk => ?_⟩
    rw [List.mem_singleton.1 hk'] at hjk
    exact hk (hjk ▸ hj)

theorem mem_pairs_insert {m : OrderedMap κ ν} {k : κ} {v : ν} {p : κ × ν}
    (h : p ∈ (m.insert k v).pairs) : p = (k, v) ∨ p ∈ m.pairs := by
  obtain ⟨ps⟩ := m
  change p ∈ insertIn k v ps at h
  show p = (k, v) ∨ p ∈ ps
  induction ps with
  | nil => exact Or.inl (List.mem_singleton.1 h)
  | cons q rest ih =>
    rw [insertIn] at h
    split at h
    · rcases List.mem_cons.1 h with h | h
      · exact Or.inl h
      · exact Or.inr (List.mem_cons_of_mem _ h)
    · rcases List.mem_cons.1 h with h | h
      · exact Or.inr (List.mem_cons.2 (Or.inl h))
      · exact (ih h).imp_right (List.mem_cons_of_mem _)

theorem mem_pairs_ofList {ps : List (κ × ν)} {p : κ × ν} (h : p ∈ (ofList ps).pairs) : p ∈ ps := by
  have hfold : ∀ (qs : List (κ × ν)) (m : OrderedMap κ ν),
      p ∈ (qs.foldl (fun m q => m.insert q.1 q.2) m).pairs → p ∈ qs ∨ p ∈ m.pairs := by
    intro qs
    induction qs with
    | nil => exact fun _ h => Or.inr h
    | cons q rest ih =>
      intro m h
      rcases ih _ h with h | h
      · exact Or.inl (List.mem_cons_of_mem _ h)
      · exact (mem_pairs_insert h).imp_left fun h => List.mem_cons.2 (Or.inl h)
  exact (hfold ps empty h).resolve_right List.not_mem_nil

theorem mem_keys_ofList {ps : List (κ × ν)} {k : κ} :
    k ∈ (ofList ps).keys ↔ k ∈ ps.map (·.1) := by
  have hfold : ∀ (qs : List (κ × ν)) (m : OrderedMap κ ν),
      k ∈ (qs.foldl (fun m q => m.insert q.1 q.2) m).keys ↔ k ∈ qs.map (·.1) ∨ k ∈ m.keys := by
    intro qs
    induction qs with
    | nil => simp
    | cons q rest ih =>
      intro m
      rw [List.foldl_cons, ih, mem_keys_insert, List.map_cons, List.mem_cons, or_left_comm,
        or_assoc]
  rw [ofList, hfold ps empty]
  exact or_iff_left List.not_mem_nil

theorem nodup_keys_ofList (ps : List (κ × ν)) : (ofList ps).keys.Nodup := by
  have hfold : ∀ (qs : List (κ × ν)) (m : OrderedMap κ ν), m.keys.Nodup →
      (qs.foldl (fun m q => m.insert q.1 q.2) m).keys.Nodup := by
    intro qs
    induction qs with
    | nil => exact fun _ h => h
    | cons q rest ih => exact fun m h => ih _ (nodup_keys_insert h q.1 q.2)
  exact hfold ps empty List.nodup_nil

/-- Keys without repetition are written one behind the other. -/
theorem ofList_of_nodup {ps : List (κ × ν)} (h : (ps.map (·.1)).Nodup) : ofList ps = ⟨ps⟩ := by
  have hinsert : ∀ (qs : List (κ × ν)) (k : κ) (v : ν), k ∉ qs.map (·.1) →
      insertIn k v qs = qs ++ [(k, v)] := by
    intro qs k v hk
    induction qs with
    | nil => rfl
    | cons q rest ih =>
      rw [List.map_cons, List.mem_cons, not_or] at hk
      rw [insertIn, if_neg (Ne.symm hk.1), ih hk.2, List.cons_append]
  have hfold : ∀ (qs done : List (κ × ν)), ((done ++ qs).map (·.1)).Nodup →
      qs.foldl (fun m q => m.insert q.1 q.2) (⟨done⟩ : OrderedMap κ ν) = ⟨done ++ qs⟩ := by
    intro qs
    induction qs with
    | nil => exact fun done _ => by rw [List.append_nil]; rfl
    | cons q rest ih =>
      intro done hnodup
      have hq : q.1 ∉ done.map (·.1) := by
        rw [List.map_append, List.map_cons] at hnodup
        exact fun hmem => (List.nodup_append.1 hnodup).2.2 _ hmem _ List.mem_cons_self rfl
      rw [List.foldl_cons, insert, hinsert done q.1 q.2 hq, ih, List.append_assoc]
      · rfl
      · rwa [List.append_assoc]
  exact hfold ps [] h

/-- Keys written with the values of one function have these values. -/
theorem get?_ofList_zip (f : κ → ν) {ks : List κ} {k : κ} (hk : k ∈ ks) :
    (ofList (ks.zip (ks.map f))).get? k = some (f k) := by
  have hfold : ∀ (js : List κ) (m : OrderedMap κ ν), k ∈ js ∨ m.get? k = some (f k) →
      ((js.zip (js.map f)).foldl (fun m q => m.insert q.1 q.2) m).get? k = some (f k) := by
    intro js
    induction js with
    | nil => exact fun _ h => h.resolve_left List.not_mem_nil
    | cons j rest ih =>
      intro m h
      refine ih _ ?_
      rw [get?_insert]
      by_cases hj : k = j
      · exact Or.inr (by rw [if_pos hj, hj])
      · rw [if_neg hj]
        exact h.imp_left fun hmem => (List.mem_cons.1 hmem).resolve_left hj
  exact hfold ks empty (Or.inl hk)

/-! ## Changing all values -/

omit [DecidableEq κ] in
theorem keys_mapValues (f : ν → μ) (m : OrderedMap κ ν) : (m.mapValues f).keys = m.keys := by
  rw [keys, mapValues, List.map_map]
  rfl

theorem get?_mapValues (f : ν → μ) (m : OrderedMap κ ν) (k : κ) :
    (m.mapValues f).get? k = (m.get? k).map f := by
  obtain ⟨ps⟩ := m
  show lookupIn k (ps.map fun p => (p.1, f p.2)) = (lookupIn k ps).map f
  induction ps with
  | nil => rfl
  | cons p rest ih =>
    rw [List.map_cons, lookupIn, lookupIn]
    split
    · rfl
    · exact ih

theorem mapValues_insert (f : ν → μ) (m : OrderedMap κ ν) (k : κ) (v : ν) :
    (m.insert k v).mapValues f = (m.mapValues f).insert k (f v) := by
  obtain ⟨ps⟩ := m
  refine congrArg OrderedMap.mk ?_
  show (insertIn k v ps).map _ = insertIn k (f v) (ps.map _)
  induction ps with
  | nil => rfl
  | cons p rest ih =>
    rw [List.map_cons, insertIn, insertIn]
    split
    · rfl
    · rw [List.map_cons, ih]

theorem mapValues_ofList (f : ν → μ) (ps : List (κ × ν)) :
    (ofList ps).mapValues f = ofList (ps.map fun p => (p.1, f p.2)) := by
  have hfold : ∀ (qs : List (κ × ν)) (m : OrderedMap κ ν),
      (qs.foldl (fun m q => m.insert q.1 q.2) m).mapValues f =
        (qs.map fun p => (p.1, f p.2)).foldl (fun m q => m.insert q.1 q.2) (m.mapValues f) := by
    intro qs
    induction qs with
    | nil => exact fun _ => rfl
    | cons q rest ih =>
      intro m
      rw [List.foldl_cons, ih, mapValues_insert]
      rfl
  exact hfold ps empty

end OrderedMap

end RubySig
