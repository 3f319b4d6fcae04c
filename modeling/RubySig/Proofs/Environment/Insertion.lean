import RubySig.Proofs.Environment.Merge

/-!
# One insertion

Inserting a placement either adds it behind the others of its name or adds one conflict, never both,
and leaves all other names alone.

* `Merge.conflict?`: the conflict that a placement causes, unless it is accepted.
* `Environment.fragmentsOf`, `Environment.globalsOf`: what is stored under a name, as a list.
* `Merge.conflicts_insert`, `Merge.fragmentsOf_insert`, `Merge.globalsOf_insert`: what one insertion
  does to the conflicts and to each name.
* `Merge.clash?_eq_none_iff`: when a fragment fits to its entity.
-/

namespace RubySig

/-! ## What is stored under a name -/

namespace Environment

/-- The fragments of the entity with an absolute name; an undeclared one has none. -/
def fragmentsOf (env : Environment) (name : TypeName) : List (Fragment EntityDecl) :=
  ((env.get? name).map (·.fragments)).getD []

/-- The declaration of the global variable with a name, if there is one. -/
def globalsOf (env : Environment) (name : String) : List (Fragment GlobalDecl) :=
  (env.globals.get? name).toList

variable {env : Environment} {name : TypeName}

theorem fragmentsOf_of_get? {e : Entry} (h : env.get? name = some e) :
    env.fragmentsOf name = e.fragments := by
  rw [fragmentsOf, h, Option.map_some, Option.getD_some]

theorem fragmentsOf_of_get?_eq_none (h : env.get? name = none) : env.fragmentsOf name = [] := by
  rw [fragmentsOf, h, Option.map_none, Option.getD_none]

end Environment

namespace Placement

/-- The fragment that a placement has for a name. -/
def fragmentsAt (name : TypeName) : Placement → List (Fragment EntityDecl)
  | .entity n f => if n = name then [f] else []
  | .global _ => []

/-- The global variable that a placement has for a name. -/
def globalsAt (name : String) : Placement → List (Fragment GlobalDecl)
  | .entity _ _ => []
  | .global f => if f.decl.name = name then [f] else []

end Placement

/-! ## The step -/

namespace Merge

/-- The conflict that a placement causes, unless it is accepted. -/
def conflict? (m : Merge) : Placement → Option Diagnostic
  | .entity name f => (m.env.get? name).bind fun existing =>
    (clash? existing f.decl).map fun reason =>
      ⟨.declarationConflict name reason, f.decl.nameSpan⟩
  | .global f =>
    if m.env.globals.contains f.decl.name then
      some ⟨.declarationConflict (.bare f.decl.name) "global declared more than once", f.decl.span⟩
    else none

variable {m : Merge}

/-- One insertion adds the conflict of the placement, if it causes one, and no other. -/
theorem conflicts_insert (m : Merge) (p : Placement) :
    (m.insert p).conflicts = m.conflicts ++ (m.conflict? p).toList := by
  cases p with
  | entity name f =>
    rw [insert, insertEntity, conflict?]
    cases m.env.get? name with
    | none => exact (List.append_nil _).symm
    | some existing =>
      dsimp only [Option.bind_some]
      cases clash? existing f.decl with
      | none => exact (List.append_nil _).symm
      | some reason => rfl
  | global f =>
    rw [insert, insertGlobal, conflict?]
    split
    · rfl
    · exact (List.append_nil _).symm

theorem fragmentsOf_write (m : Merge) (e : Entry) (name : TypeName) :
    (m.write e).env.fragmentsOf name =
      if name = e.name then e.fragments else m.env.fragmentsOf name := by
  rw [Environment.fragmentsOf, Environment.get?]
  show (((m.env.entries.insert e.name e).get? name).map (·.fragments)).getD [] = _
  rw [OrderedMap.get?_insert]
  split <;> rfl

/-- An accepted placement stands behind the fragments of its name, and a rejected one nowhere. -/
theorem fragmentsOf_insert (h : m.Holds fun _ => True) (p : Placement) (name : TypeName) :
    (m.insert p).env.fragmentsOf name =
      m.env.fragmentsOf name ++ if m.conflict? p = none then p.fragmentsAt name else [] := by
  cases p with
  | entity placed f =>
    rw [insert, insertEntity, conflict?, Placement.fragmentsAt]
    cases hget : m.env.get? placed with
    | none =>
      dsimp only [Option.bind_none]
      rw [fragmentsOf_write, if_pos rfl]
      by_cases hname : placed = name
      · subst hname
        rw [if_pos rfl, if_pos rfl, Environment.fragmentsOf_of_get?_eq_none hget]
        rfl
      · rw [if_neg (Ne.symm hname), if_neg hname, List.append_nil]
    | some existing =>
      have hplaced := (h placed existing hget).1
      cases hclash : clash? existing f.decl with
      | some reason =>
        simp only [hclash, Option.bind_some, Option.map_some, reduceCtorEq, if_false,
          List.append_nil]
        rfl
      | none =>
        simp only [hclash, Option.bind_some, Option.map_none, if_true, fragmentsOf_write]
        by_cases hname : placed = name
        · subst hname
          rw [if_pos hplaced.symm, if_pos rfl, Environment.fragmentsOf_of_get? hget]
          rfl
        · have hother : name ≠ existing.name := fun heq => hname (hplaced.symm.trans heq.symm)
          rw [if_neg hother, if_neg hname, List.append_nil]
  | global f =>
    have hnone : (if m.conflict? (.global f) = none then
        (Placement.global f).fragmentsAt name else []) = [] := by split <;> rfl
    rw [hnone, List.append_nil, insert, insertGlobal]
    split <;> rfl

/-- An accepted global variable is stored under its name, where there was none before. -/
theorem globalsOf_insert (m : Merge) (p : Placement) (name : String) :
    (m.insert p).env.globalsOf name =
      m.env.globalsOf name ++ if m.conflict? p = none then p.globalsAt name else [] := by
  cases p with
  | entity placed f =>
    have hnone : (if m.conflict? (.entity placed f) = none then
        (Placement.entity placed f).globalsAt name else []) = [] := by split <;> rfl
    rw [hnone, List.append_nil, insert, insertEntity]
    split
    · rfl
    · split <;> rfl
  | global f =>
    rw [insert, insertGlobal, conflict?, Placement.globalsAt]
    split
    · exact (List.append_nil _).symm
    · rename_i hnew
      rw [OrderedMap.contains, Bool.not_eq_true, Option.isSome_eq_false_iff,
        Option.isNone_iff_eq_none] at hnew
      show ((m.env.globals.insert f.decl.name f).get? name).toList = _
      rw [OrderedMap.get?_insert, if_pos rfl]
      by_cases hname : f.decl.name = name
      · subst hname
        rw [if_pos rfl, if_pos rfl, Environment.globalsOf, hnew]
        rfl
      · rw [if_neg (Ne.symm hname), if_neg hname, List.append_nil]
        rfl

/-- Every entity stays under its own name. -/
theorem Holds.insert_trivial (h : m.Holds fun _ => True) (p : Placement) :
    (m.insert p).Holds fun _ => True := by
  refine h.insert ?_
  cases p with
  | entity _ _ => exact ⟨trivial, fun _ _ _ _ => trivial⟩
  | global _ => trivial

/-! ## What fits -/

/-- A fragment fits to its entity if both are classes or modules and their parameter lists, where
there are two, are of one length. -/
theorem clash?_eq_none_iff {existing : Entry} {decl : EntityDecl} :
    clash? existing decl = none ↔ existing.kind = decl.kind ∧ canReopen decl.kind ∧
      (existing.typeParams ≠ [] → decl.typeParams ≠ [] →
        existing.typeParams.length = decl.typeParams.length) := by
  rw [clash?, arityOf]
  by_cases hkind : existing.kind = decl.kind
  · have hbne : (existing.kind != decl.kind) = false := bne_eq_false_iff_eq.2 hkind
    by_cases hreopen : canReopen decl.kind
    · simp [hkind, hreopen, List.length_pos_iff]
    · simp [hbne, hreopen]
  · have hbne : (existing.kind != decl.kind) = true := bne_iff_ne.2 hkind
    simp [hbne, hkind]

end Merge

end RubySig
