import RubySig.Proofs.Definition.Overloads
import RubySig.Proofs.Substitution.Variables
import RubySig.Proofs.Validation.Silence

/-!
# Captured type parameters

An overload of a chain is a written overload in which type parameters were replaced twice: those
of the fragment by those of the entity, and these by what they stand for in the chain.  Neither
replacement renames the overload's own type parameters, so each of them keeps the variables that it
puts in free exactly if none of them has the name of such a parameter.

* `Environment.keepsFree_iff_of_definition`: the condition, for every substitution and for both
  replacements behind every overload of a definition.
* `not_keepsFree_of_holder`: a subclass whose type parameter has the name of a method's own type
  parameter, where the inherited method ties the two together.
-/

namespace RubySig

/-- A substitution keeps the variables that it puts into an overload free exactly if it captures
none of them.  Every overload of a definition is made from a written one by two substitutions, of
which this holds: the renaming of the fragment's type parameters and the substitution of the
ancestor's entry.  If neither captures a variable, what is free in the overload is what the free
variables of the written one stand for. -/
theorem Environment.keepsFree_iff_of_definition (s : Substitution) (m : MethodType) :
    (s.KeepsFree m ↔ ¬ s.Captures m) ∧
      ∀ (env : Environment) (key : ChainKey) (d : Definition), env.definition key = .ok d →
        ∀ md ∈ d.methods, ∀ o ∈ md.overloads,
          ∃ e ∈ d.ancestors.entries, ∃ declared, env.get? e.name = some declared ∧
            ∃ b ∈ declared.bodies, ∃ w ∈ b.overloads,
              let written := env.absolutizeMethod b.nesting w
              let rename := renameParams declared.paramNames b.typeParams
              let renamed := rename.applyMethod written
              o = e.substitution.applyMethod renamed ∧
                (rename.KeepsFree written ↔ ¬ rename.Captures written) ∧
                (e.substitution.KeepsFree renamed ↔ ¬ e.substitution.Captures renamed) ∧
                (¬ rename.Captures written → ¬ e.substitution.Captures renamed →
                  o.freeVars = written.freeVars.flatMap fun v =>
                    (rename.image v).vars.flatMap fun u => (e.substitution.image u).vars) := by
  refine ⟨s.keepsFree_iff_not_captures m, fun env key d hd md hmd o ho => ?_⟩
  obtain ⟨e, he, declared, hget, b, hb, w, hw, hprepared⟩ :=
    env.exists_written_of_definition hd hmd ho
  refine ⟨e, he, declared, hget, b, hb, w, hw, hprepared,
    Substitution.keepsFree_iff_not_captures _ _, Substitution.keepsFree_iff_not_captures _ _, ?_⟩
  intro hrename hentry
  rw [hprepared, prepareOverload, Substitution.freeVars_applyMethod_of_not_captures hentry,
    Substitution.freeVars_applyMethod_of_not_captures hrename, List.flatMap_assoc]

/-! ## A captured parameter -/

/-- A method with a type parameter of its own, and a subclass with one of the same name. -/
def holderSetup : SessionSetup :=
  .ofFile "a.rbs"
    "class Holder[T]\n  def pair: [X] (T, X) -> void\nend\n\nclass Sub[X] < Holder[X]\nend\n"

/-- `[X] (T, X) -> void` -/
def pairOverload : MethodType :=
  ⟨[⟨"X", .invariant, false, none, default⟩],
    ⟨[⟨.required, .var "T", none⟩, ⟨.required, .var "X", none⟩], .special .void⟩, none, default⟩

/-- What a definition shows of its ancestors and of the variables in its overloads. -/
def Definition.variables (d : Definition) :
    List (TypeName × List String × List (List String)) × List (List (List String × List String)) :=
  (d.ancestors.entries.map fun e =>
      (e.name, e.substitution.names, e.substitution.values.map TypeExpr.vars),
    d.methods.map fun md => md.overloads.map fun o => (o.vars, o.freeVars))

set_option maxRecDepth 100000 in
/-- Not every substitution keeps what it puts in free.  In the subclass `T` stands for the
subclass's `X`, which is bound by the method's own `[X]` once it is put into the method; nothing is
found when the session is validated. -/
theorem not_keepsFree_of_holder :
    (¬ ∀ (s : Substitution) (m : MethodType), s.KeepsFree m) ∧
      ∃ s d, holderSetup.build = .ok s ∧ s.validate = [] ∧
        s.env.definition ⟨.topLevel "Sub", .onInstance⟩ = .ok d ∧
        d.variables = ([(.topLevel "Sub", ["X"], [["X"]]), (.topLevel "Holder", ["T"], [["X"]])],
          [[(["X", "X"], [])]]) := by
  constructor
  · intro hall
    have hcaptures : (Substitution.bind ["T"] [.var "X"]).Captures pairOverload :=
      ⟨"T", by decide, .var "X", rfl, "X", by decide, by decide⟩
    exact (Substitution.keepsFree_iff_not_captures _ _).1 (hall _ _) hcaptures
  · obtain ⟨s, hbuild, hs⟩ := exists_ok_of_any holderSetup.build
      (fun s => s.validate.isEmpty &&
        (s.env.definition ⟨.topLevel "Sub", .onInstance⟩).toOption.any fun d =>
          d.variables = ([(.topLevel "Sub", ["X"], [["X"]]), (.topLevel "Holder", ["T"], [["X"]])],
            [[(["X", "X"], [])]])) (by decide +kernel)
    rw [Bool.and_eq_true, List.isEmpty_iff] at hs
    obtain ⟨d, hdef, hd⟩ := exists_ok_of_any _ _ hs.2
    exact ⟨s, d, hbuild, hs.1, hdef, of_decide_eq_true hd⟩

end RubySig
