import RubySig.OrderedMap
import RubySig.TypeExpr.Printer
import RubySig.TypeExpr.Traversal

/-!
# Substitutions

A substitution maps type parameter names to the types that they stand for, in the order
of the parameter list, so the arguments of `::Set[A]` can be read back from its values.

* `identity`, `bind`: substitutions made from a parameter list.
* `apply`, `applyMethod`: the replacement in a type and in an overload.
* `compose`, `rebind`, `without`: new substitutions from old ones.
-/

namespace RubySig

/-- What type parameters stand for. -/
structure Substitution where
  /-- The bindings in the order of the parameters. -/
  bindings : OrderedMap String TypeExpr
  deriving Repr, Inhabited

namespace Substitution

/-- Nothing is replaced. -/
def empty : Substitution := ⟨.empty⟩

/-- The substitution that makes the given bindings one after the other. -/
def ofList (bindings : List (String × TypeExpr)) : Substitution := ⟨.ofList bindings⟩

/-- Every parameter stands for itself. -/
def identity (params : List String) : Substitution := ofList (params.map fun p => (p, .var p))

/-- Every parameter with its argument, `untyped` where the arguments have run out. -/
def pairArgs : List String → List TypeExpr → List (String × TypeExpr)
  | [], _ => []
  | p :: params, [] => (p, .untyped) :: pairArgs params []
  | p :: params, a :: args => (p, a) :: pairArgs params args

/-- Parameters stand for arguments. Surplus arguments are dropped, missing ones are
`untyped`. -/
def bind (params : List String) (args : List TypeExpr) : Substitution :=
  ofList (pairArgs params args)

/-- Whether nothing is replaced. -/
def isEmpty (s : Substitution) : Bool := s.bindings.isEmpty

/-- What a parameter stands for. -/
def get? (s : Substitution) (name : String) : Option TypeExpr := s.bindings.get? name

/-- The parameters, in order. -/
def names (s : Substitution) : List String := s.bindings.keys

/-- The types that the parameters stand for, in order. -/
def values (s : Substitution) : List TypeExpr := s.bindings.values

/-- The replacement at one node: a parameter with a binding is replaced. -/
def applyNode (s : Substitution) : TypeExpr → TypeExpr
  | .var name => (s.get? name).getD (.var name)
  | other => other

/-- Replaces the parameters in a type. What is put in is not searched again. -/
def apply (s : Substitution) (type : TypeExpr) : TypeExpr :=
  if s.isEmpty then type else type.map s.applyNode

/-- The substitution on all other parameters. -/
def without (s : Substitution) (names : List String) : Substitution :=
  ⟨s.bindings.filterKeys fun name => !names.contains name⟩

/-- Replaces the parameters in an overload, but not the overload's own type parameters. -/
def applyMethod (s : Substitution) (method : MethodType) : MethodType :=
  let inner := s.without (typeParamNames method.typeParams)
  if inner.isEmpty then method else method.map inner.applyNode

/-- First `inner`, then `outer`: `outer` is applied to every value of `inner`. -/
def compose (outer inner : Substitution) : Substitution := ⟨inner.bindings.mapValues outer.apply⟩

/-- Gives the values new names, in order. -/
def rebind (s : Substitution) (names : List String) : Substitution := ofList (names.zip s.values)

/-- The bindings in braces. -/
def render (s : Substitution) : String :=
  "\x7b" ++ commaSeparated (s.bindings.pairs.map fun p => p.1 ++ " => " ++ p.2.render) ++ "\x7d"

end Substitution

end RubySig
