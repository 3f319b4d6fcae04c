import RubySig.Proofs.Environment.Insertion
import RubySig.Proofs.Environment.Places

/-!
# When a fragment is inserted

A fragment of a merged environment was inserted once, and what stands in front of it in its entity
was inserted before.

* `Merge.exists_added`: what an insertion adds to a name.
* `Placement.site_mem_sitesOfAll`: the name of a placement is one of its places.
* `paramNames_before`: the type parameters of an entity were known when a fragment was
  inserted, if a fragment in front of it declares them.
-/

namespace RubySig

/-! ## What insertions add -/

theorem Merge.holds_insertAll {m : Merge} (h : m.Holds fun _ => True) (ps : List Placement) :
    (m.insertAll ps).Holds fun _ => True := by
  induction ps generalizing m with
  | nil => exact h
  | cons p rest ih => exact ih (h.insert_trivial p)

/-- What stands under a name stays there, and some of the fragments with that name are added. -/
theorem Merge.exists_added {m : Merge} (h : m.Holds fun _ => True) (ps : List Placement)
    (name : TypeName) :
    ∃ added, (m.insertAll ps).env.fragmentsOf name = m.env.fragmentsOf name ++ added ∧
      added.Sublist (ps.flatMap (Placement.fragmentsAt name)) := by
  induction ps generalizing m with
  | nil => exact ⟨[], (List.append_nil _).symm, .slnil⟩
  | cons p rest ih =>
    obtain ⟨added, hadded, hsub⟩ := ih (h.insert_trivial p)
    refine ⟨(if m.conflict? p = none then p.fragmentsAt name else []) ++ added, ?_, ?_⟩
    · rw [← List.append_assoc, ← fragmentsOf_insert h]
      exact hadded
    · rw [List.flatMap_cons]
      refine List.Sublist.append ?_ hsub
      split
      · exact .refl _
      · exact List.nil_sublist _

/-! ## Places -/

theorem EntityDecl.site_mem_ownSites (d : EntityDecl) : d.nameSpan.site ∈ d.ownSites := by
  rw [ownSites, add_assoc]
  exact Multiset.mem_add.2 (Or.inl (Multiset.mem_singleton_self _))

theorem Placement.site_mem_sitesOfAll {ps : List Placement} {name : TypeName}
    {f : Fragment EntityDecl} (h : f ∈ ps.flatMap (Placement.fragmentsAt name)) :
    f.decl.nameSpan.site ∈ sitesOfAll ps := by
  induction ps with
  | nil => exact absurd h List.not_mem_nil
  | cons p rest ih =>
    have hall : sitesOfAll (p :: rest) = p.sites + sitesOfAll rest := List.sum_cons
    rw [hall, Multiset.mem_add]
    rw [List.flatMap_cons, List.mem_append] at h
    refine h.imp (fun hf => ?_) ih
    cases p with
    | entity n g =>
      rw [fragmentsAt] at hf
      split at hf
      · rw [List.mem_singleton.1 hf]
        exact g.decl.site_mem_ownSites
      · exact absurd hf List.not_mem_nil
    | global g => exact absurd hf List.not_mem_nil

/-- Where no two placements have a place in common, the fragments in front of one in its entity are
those that stand under its name when it is inserted. -/
theorem Merge.fragments_before {front back : List Placement} {n name : TypeName}
    {g f : Fragment EntityDecl} {earlier later : List (Fragment EntityDecl)}
    (hnodup : (sitesOfAll (front ++ .entity n g :: back)).Nodup)
    (hsite : g.decl.nameSpan.site = f.decl.nameSpan.site)
    (hfinal : (empty.insertAll (front ++ .entity n g :: back)).env.fragmentsOf name =
      earlier ++ f :: later) :
    n = name ∧ (empty.insertAll front).env.fragmentsOf name = earlier := by
  have hall : sitesOfAll (.entity n g :: back) = g.decl.ownSites + sitesOfAll back := List.sum_cons
  rw [sitesOfAll_append, hall, Multiset.nodup_add, Multiset.nodup_add] at hnodup
  obtain ⟨-, ⟨-, -, hback⟩, hfront⟩ := hnodup
  have hown : f.decl.nameSpan.site ∈ g.decl.ownSites := hsite ▸ g.decl.site_mem_ownSites
  have hbefore := holds_insertAll holds_empty front
  obtain ⟨F, hF, hFsub⟩ := exists_added holds_empty front name
  obtain ⟨Y, hY, hYsub⟩ := exists_added (hbefore.insert_trivial (.entity n g)) back name
  have hnotF : f ∉ F := fun hf => Multiset.disjoint_left.1 hfront
    (Placement.site_mem_sitesOfAll (hFsub.subset hf)) (Multiset.mem_add.2 (Or.inl hown))
  have hnotY : f ∉ Y := fun hf => Multiset.disjoint_left.1 hback hown
    (Placement.site_mem_sitesOfAll (hYsub.subset hf))
  have hempty : empty.env.fragmentsOf name = [] := rfl
  rw [hempty, List.nil_append] at hF
  rw [insertAll, List.foldl_append, List.foldl_cons] at hfinal
  change (((empty.insertAll front).insert (.entity n g)).insertAll back).env.fragmentsOf name = _
    at hfinal
  rw [hY, fragmentsOf_insert hbefore, hF, Placement.fragmentsAt] at hfinal
  have hmem : f ∈ earlier ++ f :: later := List.mem_append_right _ List.mem_cons_self
  rw [← hfinal, List.mem_append, List.mem_append, or_iff_right hnotF, or_iff_left hnotY] at hmem
  by_cases haccepted : (empty.insertAll front).conflict? (.entity n g) = none ∧ n = name
  · rw [if_pos haccepted.1, if_pos haccepted.2] at hmem hfinal
    obtain rfl := List.mem_singleton.1 hmem
    rw [List.append_assoc, List.singleton_append] at hfinal
    exact ⟨haccepted.2, hF.trans ((List.append_cons_inj_of_notMem hnotF hnotY).1 hfinal).1⟩
  · refine absurd hmem ?_
    split
    · rename_i hnone
      rw [if_neg fun hname => haccepted ⟨hnone, hname⟩]
      exact List.not_mem_nil
    · exact List.not_mem_nil

/-! ## Environments -/

theorem nameSpan_adoptDecl (params : List String) (d : EntityDecl) :
    (adoptDecl params d).nameSpan = d.nameSpan := by
  cases d with
  | klass d | module d => rw [adoptDecl]; split <;> rfl
  | interface _ | typeAlias _ | constant _ => rfl

theorem Entry.exists_fragments_split {e : Entry} {i : Nat} {f : Fragment EntityDecl}
    (hf : e.reopenings[i]? = some f) :
    ∃ later, e.fragments = (e.primary :: e.reopenings.take i) ++ f :: later := by
  obtain ⟨hi, rfl⟩ := List.getElem?_eq_some_iff.1 hf
  refine ⟨e.reopenings.drop (i + 1), ?_⟩
  rw [List.cons_append, List.getElem_cons_drop, List.take_append_drop]
  rfl

/-- The type parameters of an entity were known when a fragment of it was inserted, if a fragment in
front of it declares them. -/
theorem paramNames_before {ps front back : List Placement} {n name : TypeName}
    {g f : Fragment EntityDecl} {e : Entry} {i : Nat} (hnodup : (sitesOfAll ps).Nodup)
    (hget : (adoptTypeParams (Merge.empty.insertAll ps).env).get? name = some e)
    (hf : e.reopenings[i]? = some f)
    (hlisted : ∃ h ∈ e.primary :: e.reopenings.take i, h.decl.typeParams ≠ [])
    (hsplit : ps = front ++ .entity n g :: back)
    (hsite : g.decl.nameSpan.site = f.decl.nameSpan.site) :
    ∃ before, (Merge.empty.insertAll front).env.get? n = some before ∧
      before.paramNames = e.paramNames := by
  rw [Environment.get?_adoptTypeParams, Option.map_eq_some_iff] at hget
  obtain ⟨original, horiginal, rfl⟩ := hget
  obtain ⟨later, hfragments⟩ := Entry.exists_fragments_split hf
  generalize (adoptEntry original).primary :: (adoptEntry original).reopenings.take i = earlier
    at hlisted hfragments
  rw [fragments_adoptEntry_eq_map, List.map_eq_append_iff] at hfragments
  obtain ⟨earlier, rest, hall, rfl, hrest⟩ := hfragments
  obtain ⟨f, later, rfl, rfl, rfl⟩ := List.map_eq_cons_iff.1 hrest
  have hplace : (adoptFragment original.paramNames f).decl.nameSpan = f.decl.nameSpan :=
    nameSpan_adoptDecl _ _
  rw [hplace] at hsite
  have hfinal := Environment.fragmentsOf_of_get? horiginal
  rw [hsplit] at hfinal hnodup
  rw [hall] at hfinal
  obtain ⟨rfl, hearlier⟩ := Merge.fragments_before hnodup hsite hfinal
  obtain ⟨adopted, hadopted, hne⟩ := hlisted
  obtain ⟨listed, hlisted, rfl⟩ := List.mem_map.1 hadopted
  have hne : listed.decl.typeParams ≠ [] :=
    fun hnone => hne ((typeParams_adoptDecl _ _).trans hnone)
  cases hget : (Merge.empty.insertAll front).env.get? n with
  | none =>
    rw [Environment.fragmentsOf_of_get?_eq_none hget] at hearlier
    rw [← hearlier] at hlisted
    exact absurd hlisted List.not_mem_nil
  | some before =>
    rw [Environment.fragmentsOf_of_get? hget] at hearlier
    refine ⟨before, rfl, congrArg typeParamNames ?_⟩
    rw [typeParams_adoptEntry, Entry.typeParams, Entry.typeParams, hearlier, hall, List.map_append]
    exact (congrArg firstDeclared (List.append_nil _).symm).trans
      (firstDeclared_append_of_ne ⟨_, List.mem_map_of_mem hlisted, hne⟩)

end RubySig
