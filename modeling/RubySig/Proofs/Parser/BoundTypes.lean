import RubySig.Proofs.Parser.BodyNesting
import RubySig.Proofs.Parser.WrittenTypes
import RubySig.Proofs.Validation.Silence
import RubySig.TypeExpr.Printer

/-!
# Variables of parsed types are bound

In every type of a parsed declaration the variables are names in scope where the type is written,
and no bare relative name is one of these.  For a declaration taken on its own the names in scope
are its own type parameters and those of the overload.  Only a constant can name more: it has no
type parameters, and those of the declaration around it stay in scope.

* `TypeExpr.BoundIn`: the property of a type in a scope.
* `Parser.typesHold_boundIn`: the rules for types ensure it.
* `boundIn_of_parseSource`: the declarations of a text.
* `constant_sees_parameter`: a constant that names a type parameter of the class around it.
-/

namespace RubySig

/-- The variables of a type are names in scope, and its bare relative names are not. -/
structure TypeExpr.BoundIn (scope : List String) (t : TypeExpr) : Prop where
  vars : ∀ v, .var v ∈ t.nodes → v ∈ scope
  names : ∀ target, .named target ∈ t.nodes → target.name.isBare = true →
    target.name.name ∉ scope

theorem TypeExpr.boundIn_nil_iff {t : TypeExpr} : t.BoundIn [] ↔ ∀ v, .var v ∉ t.nodes := by
  constructor
  · intro h v hv
    exact absurd (h.vars v hv) List.not_mem_nil
  · intro h
    exact ⟨fun v hv => absurd hv (h v), fun _ _ _ => List.not_mem_nil⟩

namespace Parser

/-- Names in scope are capitalized, so a name that is spelled like one of them would have been read
as a variable. -/
theorem boundIn_of_spelled {vars : List String} {t : TypeExpr} (hvars : Capitalized vars)
    (h : t.Spelled vars) : t.BoundIn vars := by
  refine ⟨fun v hv => (h _ hv).1, fun target htarget hbare hmem => ?_⟩
  obtain ⟨-, hfree⟩ := h _ htarget
  exact hfree hbare (hvars _ hmem) hmem

theorem typesHold_boundIn (limit : Nat) : TypesHold (fun vars t => t.BoundIn vars) limit := by
  constructor
  · intro vars levels hvars _
    exact (typeExpr_returnType_spelled vars levels).1.mono (fun _ => id) fun _ _ =>
      boundIn_of_spelled hvars
  · intro vars levels hvars _
    exact (typeExpr_returnType_spelled vars levels).2.mono (fun _ => id) fun _ _ =>
      boundIn_of_spelled hvars

end Parser

/-- Only the type of a constant depends on the names around a declaration. -/
theorem EntityDecl.typesIn_of_not_constant {d : EntityDecl} (h : ∀ c, d ≠ .constant c)
    (around around' : List String) : d.typesIn around = d.typesIn around' := by
  cases d with
  | constant c => exact absurd rfl (h c)
  | klass _ | module _ | interface _ | typeAlias _ => rfl

theorem EntityDecl.typesIn_constant (around : List String) (c : ConstantDecl) :
    (EntityDecl.constant c).typesIn around = [(around, c.type)] :=
  rfl

/-- Every type of a text is bound where it is written.  A declaration is bound by itself, too,
unless it is a constant whose type has a variable. -/
theorem boundIn_of_parseSource {limits : Limits} {source : SourceId} {text : String}
    {declarations : List Declaration} {errors : List Diagnostic}
    (h : parseSource limits source text = .ok (declarations, errors)) :
    (∀ around d, Declares declarations around d →
      (∀ t ∈ d.typesIn around, t.2.BoundIn t.1) ∧
      ((∀ t ∈ d.typesIn [], t.2.BoundIn t.1) ↔
        ∀ c, d = .constant c → ∀ v, .var v ∉ c.type.nodes)) ∧
    ∀ d, .global d ∈ declarations → d.type.BoundIn [] := by
  have hall := throughout_of_parseSource (Parser.typesHold_boundIn _) h
  refine ⟨fun around d hd => ?_, fun d hd => hall _ hd⟩
  obtain ⟨hown, -⟩ := throughout_of_declares hall hd
  refine ⟨hown, ?_⟩
  by_cases hconstant : ∃ c, d = .constant c
  · obtain ⟨c, rfl⟩ := hconstant
    rw [EntityDecl.typesIn_constant, List.forall_mem_singleton, TypeExpr.boundIn_nil_iff]
    constructor
    · rintro hfree _ ⟨⟩
      exact hfree
    · intro hfree
      exact hfree c rfl
  · have hother : ∀ c, d ≠ .constant c := fun c hc => hconstant ⟨c, hc⟩
    refine ⟨fun _ c hc => absurd hc (hother c), fun _ => ?_⟩
    rw [EntityDecl.typesIn_of_not_constant hother [] around]
    exact hown

theorem EntityDecl.nested_mem_of_mem_inner {d e : EntityDecl} (h : e ∈ d.inner) :
    .nested e ∈ d.members := by
  obtain ⟨m, hm, he⟩ := List.mem_filterMap.1 h
  cases m with
  | nested d' =>
    obtain rfl : d' = e := Option.some.inj he
    exact hm
  | method _ | attr _ | methodAlias _ | mixin _ | marker _ | typedVar _ => cases he

/-- The declared entity, if it is one. -/
def Declaration.entity? : Declaration → Option EntityDecl
  | .entity d => some d
  | .global _ => none

/-- The type of a constant. -/
def EntityDecl.constantType? : EntityDecl → Option TypeExpr
  | .constant d => some d.type
  | .klass _ | .module _ | .interface _ | .typeAlias _ => none

/-- A declaration in the body of another one, in a text that is read. -/
theorem exists_nested (text : String) (p q : EntityDecl → Bool)
    (h : (parseSource .unlimited 0 text).toOption.any fun r =>
      r.2.isEmpty && r.1.any fun d => d.entity?.any fun d => p d && d.inner.any q) :
    ∃ ds d e, parseSource .unlimited 0 text = .ok (ds, []) ∧ Declares ds [] d ∧
      Declares ds (typeParamNames d.typeParams) e ∧ p d = true ∧ q e = true := by
  obtain ⟨⟨ds, errors⟩, hparse, hcheck⟩ := exists_ok_of_any _ _ h
  obtain ⟨hnone, hcheck⟩ := Bool.and_eq_true_iff.1 hcheck
  obtain rfl : errors = [] := List.isEmpty_iff.1 hnone
  obtain ⟨declared, hmem, hcheck⟩ := List.any_eq_true.1 hcheck
  cases declared with
  | global _ => cases hcheck
  | entity d =>
    obtain ⟨hp, hinner⟩ := Bool.and_eq_true_iff.1 hcheck
    obtain ⟨e, he, hq⟩ := List.any_eq_true.1 hinner
    have hd : Declares ds [] d := .outermost hmem
    exact ⟨ds, d, e, hparse, hd, .nested hd (EntityDecl.nested_mem_of_mem_inner he), hp, hq⟩

/-- A class with a bounded parameter, an overload with one of its own and a class in its body. -/
def pairText : String :=
  "class Pair[A, B < Array[A]]\n  def swap: [C < B] (A, ^(C) -> B?) -> [B, A]\n" ++
    "  class Inner[A]\n    attr_reader pair: Pair[A, B]\n  end\nend\n"

/-- The types of a declaration by itself, as texts. -/
def EntityDecl.typeTexts (d : EntityDecl) : List (List String × String) :=
  (d.typesIn []).map fun t => (t.1, t.2.render)

set_option maxRecDepth 100000 in
/-- Both classes are bound, each by its own parameters. -/
theorem pair_boundIn : ∃ ds d e, parseSource .unlimited 0 pairText = .ok (ds, []) ∧
    Declares ds [] d ∧ Declares ds ["A", "B"] e ∧
    d.typeTexts = [(["B", "A"], "Array[A]"), (["C", "A", "B"], "B"), (["C", "A", "B"], "A"),
      (["C", "A", "B"], "^(C) -> B?"), (["C", "A", "B"], "[B, A]")] ∧
    e.typeTexts = [(["A"], "Pair[A, B]")] ∧
    (∀ t ∈ d.typesIn [], t.2.BoundIn t.1) ∧ ∀ t ∈ e.typesIn ["A", "B"], t.2.BoundIn t.1 := by
  obtain ⟨ds, d, e, hparse, hd, he, hcheck, hinner⟩ := exists_nested pairText
    (fun d => typeParamNames d.typeParams = ["A", "B"] &&
      d.typeTexts = [(["B", "A"], "Array[A]"), (["C", "A", "B"], "B"), (["C", "A", "B"], "A"),
        (["C", "A", "B"], "^(C) -> B?"), (["C", "A", "B"], "[B, A]")])
    (fun e => e.typeTexts = [(["A"], "Pair[A, B]")]) (by decide +kernel)
  simp only [Bool.and_eq_true, decide_eq_true_eq] at hcheck hinner
  rw [hcheck.1] at he
  have hbound := boundIn_of_parseSource hparse
  exact ⟨ds, d, e, hparse, hd, he, hcheck.2, hinner, (hbound.1 _ _ hd).1, (hbound.1 _ _ he).1⟩

set_option maxRecDepth 100000 in
/-- The constant in the body of a generic class names the parameter of the class, although the scope
of the constant taken on its own is empty. -/
theorem constant_sees_parameter : ∃ ds d,
    parseSource .unlimited 0 "class Box[T]\n  EMPTY: T\nend\n" = .ok (ds, []) ∧
    Declares ds ["T"] d ∧ d.kind = .constant ∧ ¬ ∀ t ∈ d.typesIn [], t.2.BoundIn t.1 := by
  obtain ⟨ds, d, e, hparse, -, he, hnames, hconstant⟩ := exists_nested
    "class Box[T]\n  EMPTY: T\nend\n" (fun d => typeParamNames d.typeParams = ["T"])
    (fun e => e.constantType?.any fun t => t.varName? = some "T") (by decide +kernel)
  rw [of_decide_eq_true hnames] at he
  cases e with
  | constant c =>
    have hvar : c.type = .var "T" := TypeExpr.eq_var_of_varName? (of_decide_eq_true hconstant)
    refine ⟨ds, _, hparse, he, rfl, fun hall => ?_⟩
    have hbound : c.type.BoundIn [] := hall ([], c.type) (List.mem_singleton_self _)
    rw [hvar] at hbound
    exact absurd (hbound.vars "T" (List.mem_singleton_self _)) List.not_mem_nil
  | klass _ | module _ | interface _ | typeAlias _ => cases hconstant

end RubySig
