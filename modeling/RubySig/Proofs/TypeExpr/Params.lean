import Mathlib.Data.List.Induction
import RubySig.TypeExpr

/-!
# Settled parameter lists

Sorting written parameters into their slots gives a settled list: the slots stand in their order, a
slot that holds one parameter holds one, and a trailing parameter has an optional or rest parameter
in front of it.  A settled list that is written down and sorted again is the same list.

* `Slot.Precedes`, `SettledParams`: what settled lists look like.
* `exists_of_mem_arrange`: sorting makes no new types or names.
* `settled_arrange`: sorted parameters are settled.
* `arrange_map_asWritten`: sorting settled parameters as they are written gives them back.
* `arrange_map`: sorting looks at slots only.
-/

namespace RubySig

/-- A parameter of one slot can stand in front of a parameter of another one. -/
def Slot.Precedes (a b : Slot) : Prop := a.rank ≤ b.rank ∧ (a.isSingle = true → a ≠ b)

/-- A list of parameters whose slots are settled. -/
structure SettledParams (ps : List Param) : Prop where
  ordered : ps.Pairwise fun p q => p.slot.Precedes q.slot
  opened : ∀ p ∈ ps, p.slot = .trailing → ∃ q ∈ ps, q.slot = .optional ∨ q.slot = .rest

/-- The slot that the marks of a parameter ask for. -/
def Slot.asWritten : Slot → Slot
  | trailing => required
  | slot => slot

/-- A parameter as it is written. -/
def Param.asWritten (p : Param) : Param := ⟨p.slot.asWritten, p.type, p.name⟩

namespace FunctionType

/-! ## One more parameter -/

/-- The parameters that stay when one of a slot is added. -/
def keptFor (slot : Slot) (ps : List Param) : List Param :=
  if slot.isSingle then ps.filter fun q => q.slot != slot else ps

theorem addParam_eq (ps : List Param) (p : Param) :
    addParam ps p =
      (keptFor (settledSlot ps p.slot) ps).filter
          (fun q => q.slot.rank ≤ (settledSlot ps p.slot).rank) ++
        ⟨settledSlot ps p.slot, p.type, p.name⟩ ::
          (keptFor (settledSlot ps p.slot) ps).filter
            fun q => !(q.slot.rank ≤ (settledSlot ps p.slot).rank) :=
  rfl

theorem keptFor_sublist (slot : Slot) (ps : List Param) : (keptFor slot ps).Sublist ps := by
  rw [keptFor]
  split
  · exact List.filter_sublist
  · exact List.Sublist.refl ps

theorem slot_ne_of_mem_keptFor {slot : Slot} {ps : List Param} (hsingle : slot.isSingle = true)
    {q : Param} (hq : q ∈ keptFor slot ps) : q.slot ≠ slot := by
  rw [keptFor, if_pos hsingle] at hq
  exact bne_iff_ne.1 (List.mem_filter.1 hq).2

theorem mem_keptFor_of_ne {slot : Slot} {ps : List Param} {q : Param} (hq : q ∈ ps)
    (hne : q.slot ≠ slot) : q ∈ keptFor slot ps := by
  rw [keptFor]
  split
  · exact List.mem_filter.2 ⟨hq, bne_iff_ne.2 hne⟩
  · exact hq

theorem mem_addParam {ps : List Param} {p q : Param} :
    q ∈ addParam ps p ↔ q ∈ keptFor (settledSlot ps p.slot) ps ∨
      q = ⟨settledSlot ps p.slot, p.type, p.name⟩ := by
  rw [addParam_eq, List.mem_append, List.mem_cons, List.mem_filter, List.mem_filter]
  by_cases hrank : q.slot.rank ≤ (settledSlot ps p.slot).rank <;> (simp [hrank]; try tauto)

theorem settledSlot_eq (ps : List Param) (slot : Slot) :
    settledSlot ps slot = slot ∨ settledSlot ps slot = .trailing := by
  cases slot with
  | required =>
    rw [settledSlot]
    split
    · exact Or.inr rfl
    · exact Or.inl rfl
  | optional | rest | trailing | requiredKeyword _ | optionalKeyword _ | restKeywords =>
    exact Or.inl rfl

/-- Sorting changes nothing but slots, and those only to trailing ones. -/
theorem exists_of_mem_arrange {written : List Param} {p : Param} (h : p ∈ arrange written) :
    ∃ q ∈ written, p.type = q.type ∧ p.name = q.name ∧
      (p.slot = q.slot ∨ p.slot = .trailing) := by
  have hfold : ∀ (written ps : List Param), p ∈ written.foldl addParam ps →
      (∃ q ∈ written, p.type = q.type ∧ p.name = q.name ∧
        (p.slot = q.slot ∨ p.slot = .trailing)) ∨ p ∈ ps := by
    intro written
    induction written with
    | nil => exact fun _ h => Or.inr h
    | cons q rest ih =>
      intro ps h
      rcases ih _ h with ⟨r, hr, hpr⟩ | h
      · exact Or.inl ⟨r, List.mem_cons_of_mem _ hr, hpr⟩
      · rcases mem_addParam.1 h with h | rfl
        · exact Or.inr ((keptFor_sublist _ ps).subset h)
        · exact Or.inl ⟨q, List.mem_cons_self, rfl, rfl, settledSlot_eq ps q.slot⟩
  exact (hfold written [] h).resolve_right List.not_mem_nil

theorem settledSlot_eq_trailing {ps : List Param} {slot : Slot}
    (h : settledSlot ps slot = .trailing) (hne : slot ≠ .trailing) :
    ∃ q ∈ ps, q.slot = .optional ∨ q.slot = .rest := by
  cases slot with
  | required =>
    by_cases hany : (ps.any fun p => p.slot == .optional || p.slot == .rest) = true
    · obtain ⟨q, hq, hslot⟩ := List.any_eq_true.1 hany
      rw [Bool.or_eq_true, beq_iff_eq, beq_iff_eq] at hslot
      exact ⟨q, hq, hslot⟩
    · rw [settledSlot, if_neg hany] at h
      cases h
  | trailing => exact absurd rfl hne
  | optional | rest | requiredKeyword _ | optionalKeyword _ | restKeywords => cases h

/-! ## Sorting settles -/

/-- A parameter that is added finds its place. -/
theorem ordered_addParam {ps : List Param} (h : SettledParams ps) (p : Param) :
    (addParam ps p).Pairwise fun p q => p.slot.Precedes q.slot := by
  rw [addParam_eq]
  generalize settledSlot ps p.slot = slot
  have hkept : (keptFor slot ps).Pairwise fun p q => p.slot.Precedes q.slot :=
    h.ordered.sublist (keptFor_sublist slot ps)
  have hbefore : ∀ q ∈ (keptFor slot ps).filter (fun q => q.slot.rank ≤ slot.rank),
      q.slot.Precedes slot := by
    intro q hq
    obtain ⟨hmem, hrank⟩ := List.mem_filter.1 hq
    refine ⟨of_decide_eq_true hrank, ?_⟩
    rintro hsingle rfl
    exact slot_ne_of_mem_keptFor hsingle hmem rfl
  have hbehind : ∀ q ∈ (keptFor slot ps).filter (fun q => !(q.slot.rank ≤ slot.rank)),
      slot.rank < q.slot.rank := by
    intro q hq
    have hrank := (List.mem_filter.1 hq).2
    simpa using hrank
  refine List.pairwise_append.2 ⟨hkept.filter _, List.pairwise_cons.2 ⟨fun q hq => ?_,
    hkept.filter _⟩, fun q hq r hr => ?_⟩
  · refine ⟨Nat.le_of_lt (hbehind q hq), ?_⟩
    rintro - heq
    exact Nat.ne_of_lt (hbehind q hq) (congrArg Slot.rank heq)
  · rcases List.mem_cons.1 hr with rfl | hr
    · exact hbefore q hq
    · have hlt := Nat.lt_of_le_of_lt (hbefore q hq).1 (hbehind r hr)
      refine ⟨Nat.le_of_lt hlt, ?_⟩
      rintro - heq
      exact Nat.ne_of_lt hlt (congrArg Slot.rank heq)

theorem settled_addParam {ps : List Param} (h : SettledParams ps) {p : Param}
    (hp : p.slot ≠ .trailing) : SettledParams (addParam ps p) where
  ordered := ordered_addParam h p
  opened := by
    have hopened : (∃ q ∈ ps, q.slot = .optional ∨ q.slot = .rest) →
        ∃ q ∈ addParam ps p, q.slot = .optional ∨ q.slot = .rest := by
      rintro ⟨q, hq, hslot⟩
      by_cases hsame : q.slot = settledSlot ps p.slot
      · exact ⟨_, mem_addParam.2 (Or.inr rfl), hsame ▸ hslot⟩
      · exact ⟨q, mem_addParam.2 (Or.inl (mem_keptFor_of_ne hq hsame)), hslot⟩
    intro q hq htrailing
    rcases mem_addParam.1 hq with hq | rfl
    · exact hopened (h.opened q ((keptFor_sublist _ ps).subset hq) htrailing)
    · exact hopened (settledSlot_eq_trailing htrailing hp)

theorem settled_nil : SettledParams [] := ⟨.nil, nofun⟩

/-- Sorted parameters are settled. -/
theorem settled_arrange {written : List Param} (h : ∀ p ∈ written, p.slot ≠ .trailing) :
    SettledParams (arrange written) := by
  have hfold : ∀ (written ps : List Param), SettledParams ps →
      (∀ p ∈ written, p.slot ≠ .trailing) → SettledParams (written.foldl addParam ps) := by
    intro written
    induction written with
    | nil => exact fun _ hps _ => hps
    | cons p written ih =>
      intro ps hps hwritten
      obtain ⟨hp, hrest⟩ := List.forall_mem_cons.1 hwritten
      exact ih _ (settled_addParam hps hp) hrest
  exact hfold written [] settled_nil h

end FunctionType

/-! ## Settled lists stay -/

/-- A settled list without its last parameter is settled. -/
theorem SettledParams.dropLast {ps : List Param} {p : Param} (h : SettledParams (ps ++ [p])) :
    SettledParams ps where
  ordered := (List.pairwise_append.1 h.ordered).1
  opened := by
    intro q hq htrailing
    obtain ⟨r, hr, hslot⟩ := h.opened q (List.mem_append_left _ hq) htrailing
    rcases List.mem_append.1 hr with hr | hr
    · exact ⟨r, hr, hslot⟩
    · obtain rfl := List.mem_singleton.1 hr
      -- the last parameter has no lower rank than a trailing one
      have hrank := ((List.pairwise_append.1 h.ordered).2.2 q hq r List.mem_cons_self).1
      rw [htrailing] at hrank
      rcases hslot with hslot | hslot <;> rw [hslot] at hrank <;> exact absurd hrank (by decide)

namespace FunctionType

/-- The last parameter of a settled list gets its own slot back. -/
theorem settledSlot_asWritten {ps : List Param} {p : Param} (h : SettledParams (ps ++ [p])) :
    settledSlot ps p.slot.asWritten = p.slot := by
  have hahead : ∀ q ∈ ps, q.slot.Precedes p.slot := fun q hq =>
    (List.pairwise_append.1 h.ordered).2.2 q hq p List.mem_cons_self
  have hopens : (ps.any fun q => q.slot == .optional || q.slot == .rest) = true ↔
      ∃ q ∈ ps, q.slot = .optional ∨ q.slot = .rest := by
    simp only [List.any_eq_true, Bool.or_eq_true, beq_iff_eq]
  cases hslot : p.slot with
  | required =>
    refine if_neg fun hany => ?_
    obtain ⟨q, hq, hopen⟩ := hopens.1 hany
    have hrank := (hahead q hq).1
    rw [hslot] at hrank
    rcases hopen with hopen | hopen <;> rw [hopen] at hrank <;> exact absurd hrank (by decide)
  | trailing =>
    obtain ⟨q, hq, hopen⟩ := h.opened p (List.mem_append_right _ List.mem_cons_self) hslot
    refine if_pos (hopens.2 ⟨q, ?_, hopen⟩)
    rcases List.mem_append.1 hq with hq | hq
    · exact hq
    · obtain rfl := List.mem_singleton.1 hq
      rw [hslot] at hopen
      rcases hopen with hopen | hopen <;> cases hopen
  | optional | rest | requiredKeyword _ | optionalKeyword _ | restKeywords => rfl

/-- The last parameter of a settled list goes behind the others. -/
theorem addParam_asWritten {ps : List Param} {p : Param} (h : SettledParams (ps ++ [p])) :
    addParam ps p.asWritten = ps ++ [p] := by
  have hahead : ∀ q ∈ ps, q.slot.Precedes p.slot := fun q hq =>
    (List.pairwise_append.1 h.ordered).2.2 q hq p List.mem_cons_self
  have hslot : settledSlot ps p.asWritten.slot = p.slot := settledSlot_asWritten h
  have hkept : keptFor p.slot ps = ps := by
    rw [keptFor]
    split
    · refine List.filter_eq_self.2 fun q hq => bne_iff_ne.2 fun heq => ?_
      exact (hahead q hq).2 (heq ▸ ‹_›) heq
    · rfl
  have hbefore : ps.filter (fun q => q.slot.rank ≤ p.slot.rank) = ps :=
    List.filter_eq_self.2 fun q hq => decide_eq_true (hahead q hq).1
  have hbehind : ps.filter (fun q => !(q.slot.rank ≤ p.slot.rank)) = [] :=
    List.filter_eq_nil_iff.2 fun q hq => by simp [(hahead q hq).1]
  rw [addParam_eq, hslot, hkept, hbefore, hbehind]
  cases p
  rfl

/-- Sorting settled parameters as they are written gives them back. -/
theorem arrange_map_asWritten {ps : List Param} (h : SettledParams ps) :
    arrange (ps.map Param.asWritten) = ps := by
  induction ps using List.reverseRecOn with
  | nil => rfl
  | append_singleton ps p ih =>
    rw [arrange] at ih ⊢
    rw [List.map_append, List.foldl_append, ih h.dropLast]
    exact addParam_asWritten h

/-! ## Sorting looks at slots -/

/-- A parameter with another type. -/
def withType (g : TypeExpr → TypeExpr) (p : Param) : Param := ⟨p.slot, g p.type, p.name⟩

theorem addParam_map (g : TypeExpr → TypeExpr) (ps : List Param) (p : Param) :
    (addParam ps p).map (withType g) = addParam (ps.map (withType g)) (withType g p) := by
  have hslot : settledSlot (ps.map (withType g)) (withType g p).slot = settledSlot ps p.slot := by
    show settledSlot _ p.slot = _
    cases hp : p.slot <;> simp [settledSlot, List.any_map, Function.comp_def, withType]
  have hkept : ∀ slot, keptFor slot (ps.map (withType g)) =
      (keptFor slot ps).map (withType g) := by
    intro slot
    rw [keptFor, keptFor]
    split
    · rw [List.filter_map]
      rfl
    · rfl
  rw [addParam_eq, addParam_eq, hslot, hkept, List.filter_map, List.filter_map, List.map_append,
    List.map_cons]
  rfl

/-- Sorting looks at slots only. -/
theorem arrange_map (g : TypeExpr → TypeExpr) (written : List Param) :
    (arrange written).map (withType g) = arrange (written.map (withType g)) := by
  have hfold : ∀ ps : List Param, (written.foldl addParam ps).map (withType g) =
      (written.map (withType g)).foldl addParam (ps.map (withType g)) := by
    induction written with
    | nil => exact fun _ => rfl
    | cons p written ih =>
      intro ps
      rw [List.foldl_cons, ih, addParam_map]
      rfl
  exact hfold []

end FunctionType

end RubySig
