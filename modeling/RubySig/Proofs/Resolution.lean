import RubySig.Proofs.Environment.Merge
import RubySig.Resolution

/-!
# What a name resolves to

* `Environment.denotes_iff`: a name denotes something if it is declared with a fitting kind inside
  of classes and modules.
* `Environment.resolve?_eq_some_iff`: a name that resolves is a candidate and denotes something.
* `Environment.isAbsolute_of_resolve`: in absolute scopes names resolve to absolute names.
* `Environment.resolve_congr`: what a name resolves to depends on the kinds of names alone.
-/

namespace RubySig

namespace Environment

variable {env : Environment} {name found : TypeName} {nesting : Nesting} {usage : Usage}

theorem kind?_eq_some_iff {kind : EntityKind} :
    env.kind? name = some kind ↔ ∃ e, env.get? name = some e ∧ e.kind = kind :=
  Option.map_eq_some_iff

theorem isClass_iff : env.isClass name ↔ ∃ e, env.get? name = some e ∧ e.kind = .klass := by
  rw [isClass, beq_iff_eq, kind?_eq_some_iff]

theorem denotes_iff : env.denotes usage name ↔
    env.hasNamespaces name ∧ ∃ e, env.get? name = some e ∧ usage.accepts name e.kind := by
  rw [denotes, Bool.and_eq_true, kind?]
  cases env.get? name <;> simp

theorem resolve_eq_ok_iff : env.resolve name nesting usage = .ok found ↔
    (nesting.candidates name).find? (env.denotes usage) = some found := by
  rw [resolve]
  split <;> rename_i h <;> rw [h] <;> simp

theorem resolve?_eq_some_iff : env.resolve? name nesting usage = some found ↔
    env.resolve name nesting usage = .ok found := by
  rw [resolve?]
  cases env.resolve name nesting usage <;> simp [Except.toOption]

/-- A resolved name is declared with a kind that fits what it is used as. -/
theorem declared_of_resolve (h : env.resolve name nesting usage = .ok found) :
    ∃ e, env.get? found = some e ∧ usage.accepts found e.kind :=
  (denotes_iff.1 (List.find?_some (resolve_eq_ok_iff.1 h))).2

theorem isAbsolute_of_resolve (hnesting : nesting.Anchored)
    (h : env.resolve name nesting usage = .ok found) : found.isAbsolute :=
  hnesting.candidates (List.mem_of_find?_eq_some (resolve_eq_ok_iff.1 h))

/-! ## Environments of the same kinds -/

section Congruence

variable {env' : Environment} (h : ∀ name, env.kind? name = env'.kind? name)
include h

theorem contains_congr (name : TypeName) : env.contains name = env'.contains name := by
  have hkind := congrArg Option.isSome (h name)
  rwa [kind?, kind?, Option.isSome_map, Option.isSome_map] at hkind

theorem isNamespace_congr (name : TypeName) : env.isNamespace name = env'.isNamespace name := by
  rw [isNamespace, isNamespace, h]

theorem denotes_congr (usage : Usage) (name : TypeName) :
    env.denotes usage name = env'.denotes usage name := by
  rw [denotes, denotes, hasNamespaces, hasNamespaces, funext (isNamespace_congr h), h]

/-- A name resolves to the same name, or the same name is missing, where all names are of the same
kinds. -/
theorem resolve_congr (name : TypeName) (nesting : Nesting) (usage : Usage) :
    env.resolve name nesting usage = env'.resolve name nesting usage := by
  have hdenotes : env.denotes usage = env'.denotes usage := funext (denotes_congr h usage)
  have hmissing : env.missingPart = env'.missingPart := funext fun n => by
    rw [missingPart, missingPart, funext (isNamespace_congr h)]
  have hclosest : env.closest name nesting = env'.closest name nesting := by
    rw [closest, closest, headScope, headScope]
    simp only [contains_congr h]
  rw [resolve, resolve, hdenotes, hmissing, hclosest]

theorem resolve?_congr (name : TypeName) (nesting : Nesting) (usage : Usage) :
    env.resolve? name nesting usage = env'.resolve? name nesting usage := by
  rw [resolve?, resolve?, resolve_congr h]

theorem absolutizeNode_congr (nesting : Nesting) (t : TypeExpr) :
    env.absolutizeNode nesting t = env'.absolutizeNode nesting t := by
  cases t with
  | named target =>
    obtain ⟨name, args, span⟩ := target
    rw [absolutizeNode, absolutizeNode, resolve?_congr h]
  | singleton target =>
    obtain ⟨name, span⟩ := target
    rw [absolutizeNode, absolutizeNode, resolve?_congr h]
  | _ => rfl

end Congruence

end Environment

end RubySig
