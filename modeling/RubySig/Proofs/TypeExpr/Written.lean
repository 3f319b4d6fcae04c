import RubySig.Declaration
import RubySig.Proofs.TypeExpr.Children

/-!
# Types where they are written

A type is written in front of some type parameters that it can name: those of its declaration, those
of its overload, and in a bound those in front of it and its own.  Here every type of a declaration
is listed with the names that are in scope where it stands.

* `boundsIn`, `MethodType.typesIn`, `Member.typesIn`, `EntityDecl.typesIn`: the types of type
  parameters, of an overload, of the element of a body and of a declaration without those nested in
  it, each with its scope.
* `Declares`, `Writes`: the declarations and the types of a file, at any depth, with the type
  parameters around them.
* `EntityDecl.Throughout`: a property of all types of a declaration and of those nested in it.
-/

namespace RubySig

/-- A type with the names in scope where it is written. -/
abbrev TypeIn := List String × TypeExpr

/-! ## Types of overloads and members -/

/-- The bounds of type parameters.  In each of them its own parameter is in scope and those in front
of it, not those behind it. -/
def boundsIn (scope : List String) : List TypeParam → List TypeIn
  | [] => []
  | p :: rest =>
    (p.upperBound.map fun bound => (p.name :: scope, bound)).toList ++
      boundsIn (p.name :: scope) rest

/-- The types of an overload, whose own type parameters are added to the scope. -/
def MethodType.typesIn (scope : List String) (m : MethodType) : List TypeIn :=
  boundsIn scope m.typeParams ++
    (m.function.types ++ blockTypes m.block).map (typeParamNames m.typeParams ++ scope, ·)

/-- The types of a member.  A nested declaration is left out. -/
def Member.typesIn (scope : List String) : Member → List TypeIn
  | .method m => m.overloads.flatMap (MethodType.typesIn scope)
  | .attr a => [(scope, a.type)]
  | .mixin m => m.target.args.map (scope, ·)
  | .typedVar v => [(scope, v.type)]
  | .methodAlias _ | .marker _ | .nested _ => []

/-! ## Types of declarations -/

namespace EntityDecl

/-- The types between the type parameters of a declaration and its body.  A constant has no type
parameters of its own and is in the scope around it. -/
def headTypesIn (around : List String) : EntityDecl → List TypeIn
  | .klass d => ((d.superClass.map (·.args)).getD []).map (typeParamNames d.typeParams, ·)
  | .module d => (d.selfTypes.flatMap (·.args)).map (typeParamNames d.typeParams, ·)
  | .interface _ => []
  | .typeAlias d => [(typeParamNames d.typeParams, d.type)]
  | .constant d => [(around, d.type)]

/-- The types of a declaration inside of some type parameters.  Nested declarations are left out. -/
def typesIn (around : List String) (d : EntityDecl) : List TypeIn :=
  boundsIn [] d.typeParams ++ d.headTypesIn around ++
    d.members.flatMap (Member.typesIn (typeParamNames d.typeParams))

end EntityDecl

/-- A declaration of a file and the type parameters of the declaration in whose body it stands. -/
inductive Declares (declarations : List Declaration) : List String → EntityDecl → Prop
  /-- A declaration at the top level of the file. -/
  | outermost {d : EntityDecl} (h : .entity d ∈ declarations) : Declares declarations [] d
  /-- A declaration in the body of another one. -/
  | nested {around : List String} {d e : EntityDecl} (h : Declares declarations around d)
      (he : .nested e ∈ d.members) : Declares declarations (typeParamNames d.typeParams) e

/-- A type is written in a file, in a declaration at any depth or as that of a global variable. -/
inductive Writes (declarations : List Declaration) : TypeIn → Prop
  | entity {around : List String} {d : EntityDecl} {t : TypeIn} (h : Declares declarations around d)
      (ht : t ∈ d.typesIn around) : Writes declarations t
  | global {d : GlobalDecl} (h : .global d ∈ declarations) : Writes declarations ([], d.type)

section Throughout

variable {P : List String → TypeExpr → Prop}

/-- All types of a declaration have a property, and so have those of the declarations nested in
it. -/
inductive EntityDecl.Throughout (P : List String → TypeExpr → Prop) :
    List String → EntityDecl → Prop
  | node {around : List String} {d : EntityDecl} (own : ∀ t ∈ d.typesIn around, P t.1 t.2)
      (inner : ∀ e, .nested e ∈ d.members →
        EntityDecl.Throughout P (typeParamNames d.typeParams) e) : Throughout P around d

/-- All types of a declaration at the top level of a file have a property. -/
def Declaration.Throughout (P : List String → TypeExpr → Prop) : Declaration → Prop
  | .entity d => d.Throughout P []
  | .global d => P [] d.type

/-- All types of a member have a property, and so have those of a nested declaration. -/
structure Member.Throughout (P : List String → TypeExpr → Prop) (scope : List String)
    (m : Member) : Prop where
  types : ∀ t ∈ m.typesIn scope, P t.1 t.2
  nested : ∀ d, m = .nested d → d.Throughout P scope

/-- The property holds at every declaration that the file holds at any depth. -/
theorem throughout_of_declares {declarations : List Declaration}
    (h : ∀ d ∈ declarations, d.Throughout P) {around : List String} {d : EntityDecl}
    (hd : Declares declarations around d) : d.Throughout P around := by
  induction hd with
  | outermost hmem => exact h _ hmem
  | nested _ he ih =>
    obtain ⟨_, hinner⟩ := ih
    exact hinner _ he

theorem of_writes {declarations : List Declaration} (h : ∀ d ∈ declarations, d.Throughout P)
    {t : TypeIn} (ht : Writes declarations t) : P t.1 t.2 := by
  cases ht with
  | entity hd hmem =>
    obtain ⟨hown, _⟩ := throughout_of_declares h hd
    exact hown _ hmem
  | global hd => exact h _ hd

/-- A declaration has the property throughout if what stands in front of its body has it and every
member does. -/
theorem EntityDecl.throughout_of_members {around : List String} {d : EntityDecl}
    (hbounds : ∀ t ∈ boundsIn [] d.typeParams, P t.1 t.2)
    (hhead : ∀ t ∈ d.headTypesIn around, P t.1 t.2)
    (hmembers : ∀ m ∈ d.members, m.Throughout P (typeParamNames d.typeParams)) :
    d.Throughout P around := by
  refine .node (fun t ht => ?_) fun e he => (hmembers _ he).nested e rfl
  rw [typesIn, List.append_assoc] at ht
  rcases List.mem_append.1 ht with ht | ht
  · exact hbounds t ht
  · rcases List.mem_append.1 ht with ht | ht
    · exact hhead t ht
    · obtain ⟨m, hm, ht⟩ := List.mem_flatMap.1 ht
      exact (hmembers m hm).types t ht

end Throughout

end RubySig
