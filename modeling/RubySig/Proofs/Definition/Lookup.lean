import RubySig.Proofs.Definition.Overloads

/-!
# Looking up a method

The table of a chain is written from the far end, so what a name stands for is decided by the
nearest ancestor that gives the name, and within it by the last of its aliases or, if none of them
gives the name, by the last of its methods and accessors.

* `MethodTable.get?_foldl_define`, `MethodTable.get?_foldl_addAlias`: a name after several writes.
* `AncestorEntry.GivesAlias`, `AncestorEntry.Gives`: an ancestor gives a name when what stands
  behind it is in the table.
* `IsNearest`: the nearest ancestor that gives a name.
* `MethodTable.exists_nearest`, `IsNearest.get?_eq`: it exists if the chain has the name, and
  nothing in front of it matters.
* `IsNearest.owner_eq`, `IsNearest.get?_contributed`: the method that it gives.
* `Environment.method?_definitionOf`: a definition is searched as its table is.
-/

namespace RubySig

namespace MethodTable

variable {env : Environment} {t : MethodTable} {owner : TypeName} {n : String}

/-! ## A name after several writes -/

theorem get?_define (t : MethodTable) (d : MethodDefinition) (n : String) :
    (t.define d).methods.get? n = if n = d.name then some d else t.methods.get? n :=
  OrderedMap.get?_insert t.methods d.name n d

/-- The last of the written methods counts. -/
theorem get?_foldl_define (ds : List MethodDefinition) (t : MethodTable) (n : String) :
    (ds.foldl define t).methods.get? n =
      (ds.reverse.find? fun d => n = d.name).or (t.methods.get? n) := by
  induction ds generalizing t with
  | nil => rfl
  | cons d rest ih =>
    rw [List.foldl_cons, ih, get?_define, List.reverse_cons, List.find?_append, Option.or_assoc]
    refine congrArg (Option.or _) ?_
    by_cases hd : n = d.name
    · simp [hd]
    · simp [hd]

/-- An alias for another name, or one whose method is missing, changes nothing. -/
theorem get?_addAlias_of_not {a : AliasMember} (h : a.newName = n → ¬ t.Defines a.oldName) :
    (addAlias owner t a).methods.get? n = t.methods.get? n := by
  by_cases hold : t.Defines a.oldName
  · obtain ⟨target, -, hadd⟩ := addAlias_of_defines owner hold
    have hne : n ≠ a.newName := fun hn => h hn.symm hold
    rw [hadd, get?_define, if_neg hne]
  · rw [addAlias_of_not_defines owner hold]

theorem get?_foldl_addAlias (as : List AliasMember)
    (h : ∀ before a after, as = before ++ a :: after → a.newName = n →
      ¬ (before.foldl (addAlias owner) t).Defines a.oldName) :
    (as.foldl (addAlias owner) t).methods.get? n = t.methods.get? n := by
  induction as generalizing t with
  | nil => rfl
  | cons a rest ih =>
    rw [List.foldl_cons, ih]
    · exact get?_addAlias_of_not (h [] a rest rfl)
    · exact fun before b after hsplit => h (a :: before) b after (congrArg (List.cons a) hsplit)

/-- A name that an alias gives belongs to the aliases' owner from then on. -/
theorem owner_of_get?_addAlias {a : AliasMember} {m : MethodDefinition}
    (hold : (a.newName = n ∧ t.Defines a.oldName) ∨
      ∀ m, t.methods.get? n = some m → m.owner = owner)
    (h : (addAlias owner t a).methods.get? n = some m) : m.owner = owner := by
  by_cases hgives : a.newName = n ∧ t.Defines a.oldName
  · obtain ⟨rfl, hdefines⟩ := hgives
    obtain ⟨target, -, hadd⟩ := addAlias_of_defines owner hdefines
    rw [hadd, get?_define, if_pos rfl] at h
    rw [← Option.some.inj h]
  · rw [get?_addAlias_of_not fun hn hdefines => hgives ⟨hn, hdefines⟩] at h
    exact hold.resolve_left hgives m h

theorem owner_of_get?_foldl_addAlias (as : List AliasMember) {m : MethodDefinition}
    (hold : (∃ before a after, as = before ++ a :: after ∧ a.newName = n ∧
        (before.foldl (addAlias owner) t).Defines a.oldName) ∨
      ∀ m, t.methods.get? n = some m → m.owner = owner)
    (h : (as.foldl (addAlias owner) t).methods.get? n = some m) : m.owner = owner := by
  induction as generalizing t with
  | nil =>
    rcases hold with ⟨before, a, after, hsplit, -⟩ | hold
    · exact absurd hsplit
        (List.append_ne_nil_of_right_ne_nil before (List.cons_ne_nil a after)).symm
    · exact hold m h
  | cons a rest ih =>
    refine ih ?_ h
    rcases hold with ⟨_ | ⟨_, before⟩, b, after, hsplit, hb⟩ | hold
    · obtain ⟨rfl, rfl⟩ := List.cons.inj hsplit
      exact Or.inr fun m => owner_of_get?_addAlias (Or.inl hb)
    · obtain ⟨rfl, rfl⟩ := List.cons.inj hsplit
      exact Or.inl ⟨before, b, after, rfl, hb⟩
    · exact Or.inr fun m => owner_of_get?_addAlias (Or.inr hold)

/-! ## Keys -/

theorem nodup_keys_foldl_define (h : t.methods.keys.Nodup) (ds : List MethodDefinition) :
    (ds.foldl define t).methods.keys.Nodup := by
  induction ds generalizing t with
  | nil => exact h
  | cons d rest ih => exact ih (OrderedMap.nodup_keys_insert h d.name d)

theorem nodup_keys_foldl_addAlias (h : t.methods.keys.Nodup) (as : List AliasMember) :
    (as.foldl (addAlias owner) t).methods.keys.Nodup := by
  induction as generalizing t with
  | nil => exact h
  | cons a rest ih =>
    refine ih ?_
    by_cases hold : t.Defines a.oldName
    · obtain ⟨target, -, hadd⟩ := addAlias_of_defines owner hold
      rw [hadd]
      exact OrderedMap.nodup_keys_insert h _ _
    · rw [addAlias_of_not_defines owner hold]
      exact h

theorem nodup_keys_ofEntries (env : Environment) (entries : List AncestorEntry) :
    (ofEntries env entries).methods.keys.Nodup := by
  induction entries with
  | nil => exact List.nodup_nil
  | cons e rest ih =>
    cases hget : env.get? e.name with
    | none => rwa [ofEntries_cons_of_get?_eq_none hget]
    | some declared =>
      rw [ofEntries_cons_of_get? hget, partway]
      exact nodup_keys_foldl_addAlias (nodup_keys_foldl_define ih _) _

/-- Each method is found under its own name. -/
theorem name_of_get? {entries : List AncestorEntry} {m : MethodDefinition}
    (h : (ofEntries env entries).methods.get? n = some m) : m.name = n := by
  have hkeyed : (ofEntries env entries).Holds fun _ => True :=
    holds_ofEntries fun _ _ _ _ _ _ => trivial
  exact (hkeyed _ (OrderedMap.mem_pairs_of_get? h)).1.symm

end MethodTable

/-! ## What an ancestor gives -/

theorem owner_of_mem_contributedFrom {e : AncestorEntry} {prepare : MethodType → MethodType}
    {sect : Visibility} {members : List Member} {d : MethodDefinition}
    (h : d ∈ contributedFrom e prepare sect members) : d.owner = e.name := by
  induction members generalizing sect with
  | nil => exact absurd h List.not_mem_nil
  | cons m rest ih =>
    cases m with
    | method m =>
      rw [contributedFrom] at h
      split at h
      · exact ih h
      · rcases List.mem_cons.1 h with rfl | h
        · rfl
        · exact ih h
    | attr a =>
      rw [contributedFrom] at h
      rcases List.mem_append.1 h with h | h
      · split at h
        · obtain ⟨p, -, rfl⟩ := List.mem_map.1 h
          rfl
        · exact absurd h List.not_mem_nil
      · exact ih h
    | marker _ | methodAlias _ | mixin _ | typedVar _ | nested _ => exact ih h

theorem owner_of_mem_contributed {env : Environment} {e : AncestorEntry} {declared : Entry}
    {d : MethodDefinition} (h : d ∈ contributed env e declared) : d.owner = e.name := by
  obtain ⟨b, -, hd⟩ := List.mem_flatMap.1 h
  exact owner_of_mem_contributedFrom hd

namespace AncestorEntry

/-- One of an ancestor's aliases gives a name: the method that it stands for is in the table when
the alias is read. -/
def GivesAlias (env : Environment) (e : AncestorEntry) (rest : List AncestorEntry) (n : String) :
    Prop :=
  ∃ declared before a after, env.get? e.name = some declared ∧
    contributedAliases e declared = before ++ a :: after ∧ a.newName = n ∧
    (MethodTable.partway env rest e declared before).Defines a.oldName

/-- An ancestor gives a name to a chain in which the given ones stand behind it. -/
def Gives (env : Environment) (e : AncestorEntry) (rest : List AncestorEntry) (n : String) : Prop :=
  e.WritesMethod env n ∨ e.GivesAlias env rest n

theorem GivesAlias.writesAlias {env : Environment} {e : AncestorEntry} {rest : List AncestorEntry}
    {n : String} (h : e.GivesAlias env rest n) : ∃ a, e.WritesAlias env a ∧ a.newName = n := by
  obtain ⟨declared, before, a, after, hget, haliases, hnew, -⟩ := h
  exact ⟨a, ⟨declared, hget, haliases ▸ List.mem_append_right _ List.mem_cons_self⟩, hnew⟩

end AncestorEntry

namespace MethodTable

variable {env : Environment} {n : String} {e : AncestorEntry} {rest : List AncestorEntry}

theorem defines_cons_iff :
    (ofEntries env (e :: rest)).Defines n ↔
      e.Gives env rest n ∨ (ofEntries env rest).Defines n := by
  rw [AncestorEntry.Gives, AncestorEntry.WritesMethod, AncestorEntry.GivesAlias]
  cases hget : env.get? e.name with
  | none =>
    rw [ofEntries_cons_of_get?_eq_none hget]
    simp
  | some declared =>
    rw [ofEntries_cons_of_get? hget, defines_partway_iff, or_right_comm]
    simp

/-- An ancestor that does not give a name leaves it as it is. -/
theorem get?_cons_of_not_gives (h : ¬ e.Gives env rest n) :
    (ofEntries env (e :: rest)).methods.get? n = (ofEntries env rest).methods.get? n := by
  rw [AncestorEntry.Gives, not_or] at h
  obtain ⟨hwrites, halias⟩ := h
  cases hget : env.get? e.name with
  | none => rw [ofEntries_cons_of_get?_eq_none hget]
  | some declared =>
    have hfind : (contributed env e declared).reverse.find? (fun d => n = d.name) = none := by
      rw [List.find?_eq_none]
      intro d hd hn
      exact hwrites ⟨declared, hget, d, List.mem_reverse.1 hd, (of_decide_eq_true hn).symm⟩
    rw [ofEntries_cons_of_get? hget, partway, get?_foldl_addAlias, get?_foldl_define, hfind,
      Option.none_or]
    intro before a after haliases hnew hold
    exact halias ⟨declared, before, a, after, hget, haliases, hnew, hold⟩

/-- The method that an ancestor writes last under a name, unless one of its aliases gives the
name. -/
theorem get?_cons_of_not_givesAlias {declared : Entry} (hget : env.get? e.name = some declared)
    (halias : ¬ e.GivesAlias env rest n) :
    (ofEntries env (e :: rest)).methods.get? n =
      ((contributed env e declared).reverse.find? fun d => n = d.name).or
        ((ofEntries env rest).methods.get? n) := by
  rw [ofEntries_cons_of_get? hget, partway, get?_foldl_addAlias, get?_foldl_define]
  intro before a after haliases hnew hold
  exact halias ⟨declared, before, a, after, hget, haliases, hnew, hold⟩

end MethodTable

/-! ## The nearest ancestor that gives a name -/

/-- In a chain an ancestor gives a name, and no nearer one does. -/
structure IsNearest (env : Environment) (n : String) (entries front : List AncestorEntry)
    (e : AncestorEntry) (rest : List AncestorEntry) : Prop where
  split : entries = front ++ e :: rest
  gives : e.Gives env rest n
  fresh : ∀ near f far, front = near ++ f :: far → ¬ f.Gives env (far ++ e :: rest) n

theorem MethodTable.exists_nearest {env : Environment} {n : String} {entries : List AncestorEntry}
    (h : (ofEntries env entries).Defines n) :
    ∃ front e rest, IsNearest env n entries front e rest := by
  induction entries with
  | nil => exact absurd h (not_defines_empty n)
  | cons e rest ih =>
    by_cases hgives : e.Gives env rest n
    · refine ⟨[], e, rest, rfl, hgives, fun near f far hsplit => ?_⟩
      exact absurd hsplit (List.append_ne_nil_of_right_ne_nil near (List.cons_ne_nil f far)).symm
    · obtain ⟨front, f, back, rfl, hf, hfresh⟩ := ih ((defines_cons_iff.1 h).resolve_left hgives)
      refine ⟨e :: front, f, back, rfl, hf, fun near g far hsplit => ?_⟩
      cases near with
      | nil =>
        obtain ⟨rfl, rfl⟩ := List.cons.inj hsplit
        exact hgives
      | cons _ near => exact hfresh near g far (List.cons.inj hsplit).2

namespace IsNearest

variable {env : Environment} {n : String} {entries front rest : List AncestorEntry}
  {e : AncestorEntry} {m : MethodDefinition}

theorem notWritesMethod (h : IsNearest env n entries front e rest) :
    ∀ f ∈ front, ¬ f.WritesMethod env n := by
  intro f hf hwrites
  obtain ⟨near, far, hsplit⟩ := List.append_of_mem hf
  exact h.fresh near f far hsplit (Or.inl hwrites)

/-- What stands in front of the nearest ancestor that gives a name does not matter for the name. -/
theorem get?_eq (h : IsNearest env n entries front e rest) :
    (MethodTable.ofEntries env entries).methods.get? n =
      (MethodTable.ofEntries env (e :: rest)).methods.get? n := by
  obtain ⟨rfl, hgives, hfresh⟩ := h
  induction front with
  | nil => rfl
  | cons f front ih =>
    rw [List.cons_append, MethodTable.get?_cons_of_not_gives (hfresh [] f front rfl)]
    exact ih fun near g far hsplit => hfresh (f :: near) g far (congrArg (List.cons f) hsplit)

/-- The method belongs to the ancestor. -/
theorem owner_eq (h : IsNearest env n entries front e rest)
    (hm : (MethodTable.ofEntries env entries).methods.get? n = some m) : m.owner = e.name := by
  rw [h.get?_eq] at hm
  rcases h.gives with
    ⟨declared, hget, d, hd, rfl⟩ | ⟨declared, before, a, after, hget, haliases, hnew⟩
  · rw [MethodTable.ofEntries_cons_of_get? hget] at hm
    refine MethodTable.owner_of_get?_foldl_addAlias _ (Or.inr fun m hm => ?_) hm
    rw [MethodTable.get?_foldl_define] at hm
    cases hfind : (contributed env e declared).reverse.find? (fun x => d.name = x.name) with
    | none => exact absurd (List.find?_eq_none.1 hfind d (List.mem_reverse.2 hd)) (by simp)
    | some x =>
      rw [hfind, Option.some_or] at hm
      rw [← Option.some.inj hm]
      exact owner_of_mem_contributed (List.mem_reverse.1 (List.mem_of_find?_eq_some hfind))
  · rw [MethodTable.ofEntries_cons_of_get? hget] at hm
    exact MethodTable.owner_of_get?_foldl_addAlias _
      (Or.inl ⟨before, a, after, haliases, hnew⟩) hm

/-- If none of its aliases gives the name, the method is the last one that the ancestor writes. -/
theorem get?_contributed (h : IsNearest env n entries front e rest)
    (halias : ¬ e.GivesAlias env rest n) :
    ∃ declared, env.get? e.name = some declared ∧
      (MethodTable.ofEntries env entries).methods.get? n =
        (contributed env e declared).reverse.find? fun d => n = d.name := by
  obtain ⟨declared, hget, d, hd, hname⟩ := h.gives.resolve_right halias
  refine ⟨declared, hget, ?_⟩
  rw [h.get?_eq, MethodTable.get?_cons_of_not_givesAlias hget halias, Option.or_of_isSome]
  exact List.find?_isSome.2 ⟨d, List.mem_reverse.2 hd, decide_eq_true hname.symm⟩

end IsNearest

/-! ## Searching a definition -/

/-- The sorted list of a definition is searched with the same result as the table. -/
theorem Environment.method?_definitionOf (env : Environment) (c : Chain) (n : String) :
    (env.definitionOf c).method? n = (MethodTable.ofEntries env c.entries).methods.get? n := by
  have hmem : ∀ {m : MethodDefinition}, m ∈ (env.definitionOf c).methods → m.name = n →
      (MethodTable.ofEntries env c.entries).methods.get? n = some m := by
    rintro m hm rfl
    obtain ⟨p, hp, rfl⟩ := List.mem_map.1 (mem_methods_definitionOf.1 hm)
    have hget := OrderedMap.get?_of_mem_pairs (MethodTable.nodup_keys_ofEntries env _) hp
    rwa [MethodTable.name_of_get? hget]
  rw [Definition.method?]
  cases hfind : (env.definitionOf c).methods.find? (fun m => m.name == n) with
  | some m =>
    have hfound := List.find?_some hfind
    have hname : m.name = n := beq_iff_eq.1 hfound
    exact (hmem (List.mem_of_find?_eq_some hfind) hname).symm
  | none =>
    refine (Option.eq_none_iff_forall_ne_some.2 fun m hm => ?_).symm
    have hlisted : m ∈ (env.definitionOf c).methods :=
      mem_methods_definitionOf.2 (OrderedMap.mem_values_of_get? hm)
    exact List.find?_eq_none.1 hfind m hlisted (beq_iff_eq.2 (MethodTable.name_of_get? hm))

end RubySig
