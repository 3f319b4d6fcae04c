import Mathlib.Data.List.Forall2
import Mathlib.Data.List.Perm.Basic
import RubySig.Proofs.TypeExpr.Params

/-!
# Parameters that last

Sorting written parameters into their slots keeps each of them, with one exception: a rest parameter
takes the place of an earlier one of the same kind.

* `FunctionType.lasting`: the written parameters that are not replaced.
* `FunctionType.arrange_perm_lasting`: sorted parameters are those that last.
* `FunctionType.OneRest`, `FunctionType.arrange_perm_iff`: nothing is lost exactly if no two
  parameters are rest parameters of one kind.
-/

namespace RubySig

theorem Param.asWritten_slot (p : Param) : p.asWritten.slot = p.slot.asWritten := rfl

/-- A parameter that is written has the slot for which its marks ask. -/
theorem Param.asWritten_of_ne_trailing {p : Param} (h : p.slot ≠ .trailing) : p.asWritten = p := by
  obtain ⟨slot, type, name⟩ := p
  cases slot with
  | trailing => exact absurd rfl h
  | required | optional | rest | requiredKeyword _ | optionalKeyword _ | restKeywords => rfl

/-- A slot for one parameter is not changed. -/
theorem Slot.asWritten_eq_iff {slot single : Slot} (h : single.isSingle = true) :
    slot.asWritten = single ↔ slot = single := by
  cases slot with
  | trailing =>
    constructor
    · rintro rfl
      cases h
    · rintro rfl
      cases h
  | required | optional | rest | requiredKeyword _ | optionalKeyword _ | restKeywords => rfl

namespace FunctionType

/-- The written parameters without the rest parameters that have a later one of their kind. -/
def lasting : List Param → List Param
  | [] => []
  | p :: rest =>
    if p.slot.isSingle && rest.any fun q => q.slot == p.slot then lasting rest
    else p :: lasting rest

/-- No two parameters are rest parameters of one kind. -/
def OneRest (written : List Param) : Prop :=
  written.Pairwise fun p q => p.slot.isSingle = true → q.slot ≠ p.slot

/-! ## One more written parameter -/

theorem lasting_append_singleton (written : List Param) (p : Param) :
    lasting (written ++ [p]) = keptFor p.slot (lasting written) ++ [p] := by
  induction written with
  | nil =>
    rw [List.nil_append, lasting, lasting, keptFor]
    simp [lasting]
  | cons q rest ih =>
    rw [List.cons_append, lasting, ih, lasting, List.any_append]
    by_cases hlost : (q.slot.isSingle && rest.any fun r => r.slot == q.slot) = true
    · obtain ⟨hsingle, hany⟩ := Bool.and_eq_true_iff.1 hlost
      rw [if_pos hlost, if_pos (by rw [hsingle, hany]; rfl)]
    · rw [if_neg hlost]
      by_cases hsame : q.slot.isSingle = true ∧ p.slot = q.slot
      · obtain ⟨hsingle, hslot⟩ := hsame
        have hreplaced : keptFor p.slot (q :: lasting rest) = keptFor p.slot (lasting rest) := by
          rw [keptFor, keptFor, hslot, if_pos hsingle, if_pos hsingle, List.filter_cons,
            bne_self_eq_false, if_neg Bool.false_ne_true]
        rw [if_pos (by simp [hsingle, hslot]), hreplaced]
      · have hstays : keptFor p.slot (q :: lasting rest) = q :: keptFor p.slot (lasting rest) := by
          rw [keptFor, keptFor]
          split
          · have hne : q.slot ≠ p.slot := fun heq => hsame ⟨heq ▸ ‹_›, heq.symm⟩
            rw [List.filter_cons, if_pos (bne_iff_ne.2 hne)]
          · rfl
        have hkeeps : ¬ (q.slot.isSingle &&
            ((rest.any fun r => r.slot == q.slot) || [p].any fun r => r.slot == q.slot)) =
              true := by
          intro h
          simp only [Bool.and_eq_true, Bool.or_eq_true, List.any_cons, List.any_nil, Bool.or_false,
            beq_iff_eq] at h
          rcases h with ⟨hsingle, hany | hslot⟩
          · exact hlost (Bool.and_eq_true_iff.2 ⟨hsingle, hany⟩)
          · exact hsame ⟨hsingle, hslot⟩
        rw [if_neg hkeeps, hstays, List.cons_append]

/-- A parameter that is added stands among those that stay. -/
theorem addParam_perm (ps : List Param) (p : Param) :
    (addParam ps p).Perm
      (keptFor (settledSlot ps p.slot) ps ++ [⟨settledSlot ps p.slot, p.type, p.name⟩]) := by
  rw [addParam_eq]
  refine List.perm_middle.trans ?_
  refine (List.Perm.cons _ (List.filter_append_perm _ _)).trans ?_
  exact (List.perm_append_singleton _ _).symm

theorem keptFor_settledSlot (ps : List Param) (slot : Slot) :
    keptFor (settledSlot ps slot) ps = keptFor slot ps := by
  rcases settledSlot_eq ps slot with heq | heq
  · rw [heq]
  · -- only a slot for any number of parameters becomes a trailing one
    have hslot : slot.isSingle = false := by
      cases slot with
      | rest | restKeywords => cases heq
      | required | optional | trailing | requiredKeyword _ | optionalKeyword _ => rfl
    rw [heq, keptFor, keptFor, hslot]
    rfl

theorem asWritten_settled (ps : List Param) (p : Param) :
    (Param.mk (settledSlot ps p.slot) p.type p.name).asWritten = p.asWritten := by
  rcases settledSlot_eq ps p.slot with heq | heq
  · rw [heq]
    rfl
  · obtain ⟨slot, type, name⟩ := p
    cases slot with
    | required => rw [heq]; rfl
    | trailing => rfl
    | optional | rest | requiredKeyword _ | optionalKeyword _ | restKeywords => cases heq

theorem map_asWritten_keptFor (slot : Slot) (ps : List Param) :
    (keptFor slot ps).map Param.asWritten = keptFor slot (ps.map Param.asWritten) := by
  rw [keptFor, keptFor]
  split
  · rw [List.filter_map]
    refine congrArg _ (List.filter_congr fun q _ => ?_)
    rw [Function.comp_apply, Param.asWritten_slot, Bool.eq_iff_iff, bne_iff_ne, bne_iff_ne,
      ne_eq, ne_eq, Slot.asWritten_eq_iff ‹_›]
  · rfl

theorem keptFor_perm {ps qs : List Param} (h : ps.Perm qs) (slot : Slot) :
    (keptFor slot ps).Perm (keptFor slot qs) := by
  rw [keptFor, keptFor]
  split
  · exact h.filter _
  · exact h

/-! ## All written parameters -/

/-- Sorted parameters are those that last, each with its type, its name and its marks. -/
theorem arrange_perm_lasting (written : List Param) :
    ((arrange written).map Param.asWritten).Perm ((lasting written).map Param.asWritten) := by
  induction written using List.reverseRecOn with
  | nil => exact .nil
  | append_singleton written p ih =>
    have hadd : arrange (written ++ [p]) = addParam (arrange written) p := by
      rw [arrange, arrange, List.foldl_append]
      rfl
    rw [hadd, lasting_append_singleton]
    refine ((addParam_perm _ p).map _).trans ?_
    rw [List.map_append, List.map_append, keptFor_settledSlot, map_asWritten_keptFor,
      map_asWritten_keptFor, List.map_singleton, List.map_singleton, asWritten_settled]
    exact (keptFor_perm ih p.slot).append_right _

theorem lasting_sublist (written : List Param) : (lasting written).Sublist written := by
  induction written with
  | nil => exact .slnil
  | cons p rest ih =>
    rw [lasting]
    split
    · exact ih.cons p
    · exact ih.cons_cons p

theorem lasting_eq_self_iff (written : List Param) :
    lasting written = written ↔ OneRest written := by
  induction written with
  | nil => exact ⟨fun _ => .nil, fun _ => rfl⟩
  | cons p rest ih =>
    have hlost : (p.slot.isSingle && rest.any fun q => q.slot == p.slot) = true ↔
        ¬ ∀ q ∈ rest, p.slot.isSingle = true → q.slot ≠ p.slot := by
      simp only [Bool.and_eq_true, List.any_eq_true, beq_iff_eq, not_forall, ne_eq, not_not]
      exact ⟨fun ⟨hsingle, q, hq, hslot⟩ => ⟨q, hq, hsingle, hslot⟩,
        fun ⟨q, hq, hsingle, hslot⟩ => ⟨hsingle, q, hq, hslot⟩⟩
    rw [OneRest, List.pairwise_cons, ← OneRest, ← ih, lasting]
    by_cases hkeeps : ∀ q ∈ rest, p.slot.isSingle = true → q.slot ≠ p.slot
    · rw [if_neg fun h => hlost.1 h hkeeps, List.cons_inj_right]
      exact ⟨fun h => ⟨hkeeps, h⟩, fun h => h.2⟩
    · rw [if_pos (hlost.2 hkeeps)]
      constructor
      · intro heq
        have hlength := (lasting_sublist rest).length_le
        rw [heq, List.length_cons] at hlength
        omega
      · exact fun h => absurd h.1 hkeeps

/-- What is written has no trailing slots, so sorted parameters are written ones. -/
theorem arrange_perm_lasting_of_written {written : List Param}
    (h : ∀ p ∈ written, p.slot ≠ .trailing) :
    ((arrange written).map Param.asWritten).Perm (lasting written) := by
  have hlasting : (lasting written).map Param.asWritten = lasting written :=
    (List.map_congr_left fun p hp => Param.asWritten_of_ne_trailing
      (h p ((lasting_sublist written).subset hp))).trans (List.map_id' _)
  exact hlasting ▸ arrange_perm_lasting written

/-- Nothing that is written is lost exactly if no two parameters are rest parameters of one kind. -/
theorem arrange_perm_iff {written : List Param} (h : ∀ p ∈ written, p.slot ≠ .trailing) :
    ((arrange written).map Param.asWritten).Perm written ↔ OneRest written := by
  have hlasting := arrange_perm_lasting_of_written h
  rw [← lasting_eq_self_iff]
  constructor
  · intro hall
    exact (lasting_sublist written).eq_of_length (hlasting.symm.trans hall).length_eq
  · intro heq
    rwa [heq] at hlasting

end FunctionType

end RubySig
