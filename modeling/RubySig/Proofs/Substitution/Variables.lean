import RubySig.Proofs.TypeExpr.Children
import RubySig.Substitution

/-!
# Variables under a substitution

Which variables a substitution leaves in a type and which it leaves free in an overload.  In a type
every variable gives way to the variables of what it stands for.  An overload binds its own type
parameters, and nothing is renamed when a type is put into it, so a variable of that type whose name
is one of these parameters becomes bound.

* `TypeExpr.vars`, `MethodType.freeVars`: the variables of a type and the free ones of an overload.
* `Substitution.vars_apply`, `Substitution.freeVars_applyMethod`: the variables after a
  substitution.
* `Substitution.Captures`: a variable that is put into an overload has the name of one of the
  overload's own type parameters.
* `Substitution.keepsFree_iff_not_captures`: all variables that are put in stay free exactly if none
  is captured.
-/

namespace RubySig

/-! ## Variables -/

/-- The name of a variable; other nodes have none. -/
def TypeExpr.varName? : TypeExpr → Option String
  | .var name => some name
  | _ => none

/-- The variables of a type, in the order of its nodes. -/
def TypeExpr.vars (t : TypeExpr) : List String := t.nodes.filterMap TypeExpr.varName?

/-- The variables of an overload, bound or free. -/
def MethodType.vars (m : MethodType) : List String := m.nodes.filterMap TypeExpr.varName?

/-- The variables of an overload that are not its own type parameters. -/
def MethodType.freeVars (m : MethodType) : List String :=
  m.vars.filter fun v => v ∉ typeParamNames m.typeParams

theorem TypeExpr.vars_var (name : String) : (TypeExpr.var name).vars = [name] := rfl

theorem TypeExpr.vars_eq (t : TypeExpr) :
    t.vars = t.varName?.toList ++ t.children.flatMap TypeExpr.vars := by
  rw [TypeExpr.vars, TypeExpr.nodes_eq, List.filterMap_cons, List.filterMap_flatMap]
  cases t.varName? <;> rfl

theorem TypeExpr.vars_eq_of_varName?_eq_none {t : TypeExpr} (h : t.varName? = none) :
    t.vars = t.children.flatMap TypeExpr.vars := by
  rw [TypeExpr.vars_eq, h]
  rfl

@[simp] theorem TypeExpr.varName?_mapChildren (g : TypeExpr → TypeExpr) (t : TypeExpr) :
    (t.mapChildren g).varName? = t.varName? := by
  cases t <;> rfl

theorem TypeExpr.eq_var_of_varName? {t : TypeExpr} {v : String} (h : t.varName? = some v) :
    t = .var v := by
  cases t with
  | var name => exact congrArg TypeExpr.var (Option.some.inj h)
  | _ => cases h

theorem MethodType.vars_eq (m : MethodType) : m.vars = m.types.flatMap TypeExpr.vars := by
  rw [MethodType.vars, MethodType.nodes_eq, List.filterMap_flatMap]
  rfl

theorem MethodType.notMem_typeParams_of_mem_freeVars {m : MethodType} {v : String}
    (h : v ∈ m.freeVars) : v ∉ typeParamNames m.typeParams :=
  of_decide_eq_true (List.mem_filter.1 h).2

/-! ## Substitution in a type -/

namespace Substitution

/-- What a variable gives way to: its binding, or itself if it has none. -/
def image (s : Substitution) (v : String) : TypeExpr := (s.get? v).getD (.var v)

theorem applyNode_of_varName?_eq_none (s : Substitution) {t : TypeExpr} (h : t.varName? = none) :
    s.applyNode t = t := by
  cases t with
  | var _ => cases h
  | _ => rfl

theorem applyNode_of_isEmpty {s : Substitution} (h : s.isEmpty) (t : TypeExpr) :
    s.applyNode t = t := by
  obtain ⟨⟨pairs⟩⟩ := s
  obtain rfl : pairs = [] := List.isEmpty_iff.1 h
  cases t <;> rfl

/-- The shortcut for the empty substitution changes nothing. -/
theorem apply_eq (s : Substitution) (t : TypeExpr) : s.apply t = t.map s.applyNode := by
  rw [apply]
  split
  · exact (TypeExpr.map_eq_self (applyNode_of_isEmpty ‹_›) t).symm
  · rfl

theorem apply_var (s : Substitution) (v : String) : s.apply (.var v) = s.image v := by
  rw [apply_eq, TypeExpr.map_eq]
  rfl

/-- A node that is no variable keeps its place, with the substitution made in its children. -/
theorem apply_of_varName?_eq_none (s : Substitution) {t : TypeExpr} (h : t.varName? = none) :
    s.apply t = t.mapChildren s.apply := by
  rw [apply_eq, TypeExpr.map_eq,
    s.applyNode_of_varName?_eq_none ((TypeExpr.varName?_mapChildren _ t).trans h)]
  exact TypeExpr.mapChildren_congr fun c _ => (s.apply_eq c).symm

/-- Each variable gives way to the variables of what it stands for. -/
theorem vars_apply (s : Substitution) (t : TypeExpr) :
    (s.apply t).vars = t.vars.flatMap fun v => (s.image v).vars := by
  induction t using TypeExpr.inductionOnChildren with
  | step t ih =>
    cases ht : t.varName? with
    | some v =>
      rw [TypeExpr.eq_var_of_varName? ht, apply_var, TypeExpr.vars_var, List.flatMap_singleton]
    | none =>
      have hmapped : (t.mapChildren s.apply).varName? = none := by
        rw [TypeExpr.varName?_mapChildren, ht]
      rw [s.apply_of_varName?_eq_none ht, TypeExpr.vars_eq_of_varName?_eq_none hmapped,
        TypeExpr.vars_eq_of_varName?_eq_none ht, TypeExpr.children_mapChildren, List.flatMap_map,
        List.flatMap_assoc]
      exact List.flatMap_congr ih

/-! ## Substitution in an overload -/

theorem get?_without (s : Substitution) (names : List String) (v : String) :
    (s.without names).get? v = if v ∈ names then none else s.get? v := by
  obtain ⟨⟨pairs⟩⟩ := s
  show OrderedMap.lookupIn v (pairs.filter fun p => !names.contains p.1) = _
  induction pairs with
  | nil => simp [OrderedMap.lookupIn, get?, OrderedMap.get?]
  | cons p rest ih =>
    change _ = if v ∈ names then none else OrderedMap.lookupIn v rest at ih
    show _ = if v ∈ names then none else OrderedMap.lookupIn v (p :: rest)
    by_cases hp : p.1 ∈ names
    · rw [List.filter_cons_of_neg (by simpa using hp), ih]
      by_cases hv : v ∈ names
      · rw [if_pos hv, if_pos hv]
      · have hne : p.1 ≠ v := fun h => hv (h ▸ hp)
        rw [if_neg hv, if_neg hv, OrderedMap.lookupIn, if_neg hne]
    · rw [List.filter_cons_of_pos (by simpa using hp), OrderedMap.lookupIn, OrderedMap.lookupIn, ih]
      by_cases hpv : p.1 = v
      · subst hpv
        rw [if_pos rfl, if_pos rfl, if_neg hp]
      · rw [if_neg hpv, if_neg hpv]

theorem image_without (s : Substitution) (names : List String) (v : String) :
    (s.without names).image v = if v ∈ names then .var v else s.image v := by
  rw [image, get?_without]
  split <;> rfl

theorem applyMethod_eq (s : Substitution) (m : MethodType) :
    s.applyMethod m = m.map (s.without (typeParamNames m.typeParams)).applyNode := by
  rw [applyMethod]
  split
  · exact (MethodType.map_eq_self (applyNode_of_isEmpty ‹_›) m).symm
  · rfl

@[simp] theorem typeParamNames_applyMethod (s : Substitution) (m : MethodType) :
    typeParamNames (s.applyMethod m).typeParams = typeParamNames m.typeParams := by
  rw [applyMethod_eq, MethodType.typeParamNames_map]

theorem types_applyMethod (s : Substitution) (m : MethodType) :
    (s.applyMethod m).types = m.types.map (s.without (typeParamNames m.typeParams)).apply := by
  rw [applyMethod_eq, MethodType.types_map]
  exact List.map_congr_left fun t _ => (apply_eq _ t).symm

theorem vars_applyMethod (s : Substitution) (m : MethodType) :
    (s.applyMethod m).vars =
      m.vars.flatMap fun v =>
        if v ∈ typeParamNames m.typeParams then [v] else (s.image v).vars := by
  rw [MethodType.vars_eq, types_applyMethod, MethodType.vars_eq, List.flatMap_map,
    List.flatMap_assoc]
  refine List.flatMap_congr fun t _ => ?_
  rw [vars_apply]
  refine List.flatMap_congr fun v _ => ?_
  rw [image_without]
  split <;> rfl

/-- Of the variables of the inserted types those stay free that are no type parameters of the
overload. -/
theorem freeVars_applyMethod (s : Substitution) (m : MethodType) :
    (s.applyMethod m).freeVars =
      (m.freeVars.flatMap fun v => (s.image v).vars).filter
        fun v => v ∉ typeParamNames m.typeParams := by
  rw [MethodType.freeVars, typeParamNames_applyMethod, vars_applyMethod, MethodType.freeVars]
  induction m.vars with
  | nil => rfl
  | cons v rest ih =>
    rw [List.flatMap_cons, List.filter_append, ih]
    by_cases hv : v ∈ typeParamNames m.typeParams
    · rw [if_pos hv, List.filter_cons_of_neg (by simpa using hv),
        List.filter_cons_of_neg (by simpa using hv), List.filter_nil, List.nil_append]
    · rw [if_neg hv, List.filter_cons_of_pos (by simpa using hv), List.flatMap_cons,
        List.filter_append]

/-! ## Capture -/

/-- A variable of a type that is put into an overload has the name of one of the overload's own
type parameters. -/
def Captures (s : Substitution) (m : MethodType) : Prop :=
  ∃ v ∈ m.freeVars, ∃ t, s.get? v = some t ∧ ∃ x ∈ t.vars, x ∈ typeParamNames m.typeParams

/-- Without capture the free variables of the result are those of the types that are put in. -/
theorem freeVars_applyMethod_of_not_captures {s : Substitution} {m : MethodType}
    (h : ¬ s.Captures m) :
    (s.applyMethod m).freeVars = m.freeVars.flatMap fun v => (s.image v).vars := by
  rw [freeVars_applyMethod, List.filter_eq_self]
  intro x hx
  obtain ⟨v, hv, hxv⟩ := List.mem_flatMap.1 hx
  refine decide_eq_true fun hbound => ?_
  rw [image] at hxv
  cases ht : s.get? v with
  | some t =>
    rw [ht] at hxv
    exact h ⟨v, hv, t, ht, x, hxv, hbound⟩
  | none =>
    -- an unbound variable stands for itself
    rw [ht, Option.getD_none, TypeExpr.vars_var, List.mem_singleton] at hxv
    exact MethodType.notMem_typeParams_of_mem_freeVars hv (hxv ▸ hbound)

/-- Every variable of every type that is put into an overload is free in the result. -/
def KeepsFree (s : Substitution) (m : MethodType) : Prop :=
  ∀ v ∈ m.freeVars, ∀ t, s.get? v = some t → ∀ x ∈ t.vars, x ∈ (s.applyMethod m).freeVars

/-- Exactly without capture every variable that is put in stays free. -/
theorem keepsFree_iff_not_captures (s : Substitution) (m : MethodType) :
    s.KeepsFree m ↔ ¬ s.Captures m := by
  constructor
  · rintro hfree ⟨v, hv, t, ht, x, hx, hbound⟩
    have hx' := MethodType.notMem_typeParams_of_mem_freeVars (hfree v hv t ht x hx)
    rw [typeParamNames_applyMethod] at hx'
    exact hx' hbound
  · intro hcapture v hv t ht x hx
    have himage : x ∈ (s.image v).vars := by rwa [image, ht]
    rw [freeVars_applyMethod_of_not_captures hcapture]
    exact List.mem_flatMap.2 ⟨v, hv, himage⟩

end Substitution

end RubySig
