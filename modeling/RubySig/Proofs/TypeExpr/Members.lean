import RubySig.Declaration
import RubySig.Proofs.TypeExpr.Children

/-!
# Rebuilt types in members

* `NamedType.mapArgs_eq`: only the arguments are rebuilt.
* `Member.mapTypes_eq_self`: what is rebuilt without a change stays as it is.
-/

namespace RubySig

variable {f : TypeExpr → TypeExpr}

theorem NamedType.mapArgs_eq (f : TypeExpr → TypeExpr) (t : NamedType) :
    t.mapArgs f = { t with args := t.args.map (TypeExpr.map f) } := by
  obtain ⟨name, args, span⟩ := t
  rw [mapArgs, mapArgsM, mapTypesM_id]
  rfl

theorem NamedType.mapArgs_eq_self (hf : ∀ t, f t = t) (t : NamedType) : t.mapArgs f = t := by
  have hmap : TypeExpr.map f = id := funext (TypeExpr.map_eq_self hf)
  obtain ⟨name, args, span⟩ := t
  rw [mapArgs_eq, hmap, List.map_id]

theorem Member.mapTypes_eq_self (hf : ∀ t, f t = t) (m : Member) : m.mapTypes f = m := by
  cases m with
  | method m =>
    have hmap : MethodType.map f = id := funext (MethodType.map_eq_self hf)
    have hoverloads : m.overloads.map (·.map f) = m.overloads := by
      show m.overloads.map (MethodType.map f) = m.overloads
      rw [hmap, List.map_id]
    rw [mapTypes, hoverloads]
  | attr m | typedVar m => rw [mapTypes, TypeExpr.map_eq_self hf]
  | mixin m => rw [mapTypes, NamedType.mapArgs_eq_self hf]
  | methodAlias _ | marker _ | nested _ => rfl

end RubySig
