import RubySig.Name
import RubySig.Source

/-!
# Type expressions

* `TypeExpr` and the records inside it: `NamedType`, `RecordField`, `Param`,
  `FunctionType`, `Block`.
* `FunctionType.arrange`: sorts the parameters of a list into their slots.
* `TypeParam`, `MethodType`: one overload of a method.
-/

namespace RubySig

/-! ## Leaves -/

/-- A literal type. -/
inductive Literal
  /-- A quoted text, with its quotes. -/
  | string (quoted : String)
  /-- A symbol, without its colon. -/
  | symbol (name : String)
  /-- A signed 64-bit integer. -/
  | integer (value : Int)
  /-- `true` or `false`. -/
  | bool (value : Bool)
  deriving Repr, Inhabited, DecidableEq

/-- A type with a reserved name. -/
inductive SpecialType
  | untyped | void | selfType | instanceType | classType | bot | top | nil | bool
  deriving Repr, Inhabited, DecidableEq

/-- The key of a record field. -/
inductive RecordKey
  /-- `name: T` -/
  | symbol (name : String)
  /-- `"name" => T`, with the quotes. -/
  | string (quoted : String)
  deriving Repr, Inhabited, DecidableEq

/-- `singleton(::Foo)` -/
structure SingletonType where
  /-- The class or module. -/
  name : TypeName
  /-- Where the type is written. -/
  span : Span
  deriving Repr, Inhabited, DecidableEq

/-- The part of a parameter list that a parameter belongs to. -/
inductive Slot
  /-- A positional parameter before the optional ones. -/
  | required
  /-- `?T` -/
  | optional
  /-- `*T` -/
  | rest
  /-- A positional parameter after an optional or rest parameter. -/
  | trailing
  /-- `key: T` -/
  | requiredKeyword (key : String)
  /-- `?key: T` -/
  | optionalKeyword (key : String)
  /-- `**T` -/
  | restKeywords
  deriving Repr, Inhabited, DecidableEq

namespace Slot

/-- The place of a slot in a parameter list. -/
def rank : Slot → Nat
  | required => 0
  | optional => 1
  | rest => 2
  | trailing => 3
  | requiredKeyword _ => 4
  | optionalKeyword _ => 5
  | restKeywords => 6

/-- Whether a list holds at most one parameter of this slot. -/
def isSingle : Slot → Bool
  | rest | restKeywords => true
  | _ => false

end Slot

/-! ## Types -/

mutual

/-- A type as it is written. -/
inductive TypeExpr
  /-- A class instance, interface or alias: `::Array[Integer]`. -/
  | named (target : NamedType)
  /-- The class or module object itself: `singleton(::Foo)`. -/
  | singleton (target : SingletonType)
  /-- A type parameter in scope. -/
  | var (name : String)
  /-- `A | B` -/
  | union (types : List TypeExpr)
  /-- `A & B` -/
  | intersection (types : List TypeExpr)
  /-- `A?` -/
  | optional (inner : TypeExpr)
  /-- `[A, B]` -/
  | tuple (types : List TypeExpr)
  /-- A record with typed fields. -/
  | record (fields : List RecordField)
  /-- `^(A) -> B` -/
  | proc (function : FunctionType) (block : Option Block)
  /-- A literal. -/
  | literal (value : Literal)
  /-- A type with a reserved name. -/
  | special (type : SpecialType)

/-- A name with type arguments. -/
structure NamedType where
  /-- The name as written. -/
  name : TypeName
  /-- The type arguments. -/
  args : List TypeExpr
  /-- Where the name and its arguments are written. -/
  span : Span

/-- One field of a record. -/
structure RecordField where
  /-- The key. -/
  key : RecordKey
  /-- The type of the value. -/
  type : TypeExpr

/-- One parameter: its slot, its type and an optional variable name. -/
structure Param where
  /-- Its place in the list. -/
  slot : Slot
  /-- Its type. -/
  type : TypeExpr
  /-- The variable name. -/
  name : Option String

/-- Parameters, in the order of their slots, and a return type. -/
structure FunctionType where
  /-- The parameters. -/
  params : List Param
  /-- The return type. -/
  returnType : TypeExpr

/-- The block that a method or proc takes. -/
structure Block where
  /-- Whether the block has to be given. -/
  required : Bool
  /-- Its parameters and return type. -/
  function : FunctionType

end

deriving instance Repr, Inhabited for TypeExpr, NamedType, RecordField, Param, FunctionType, Block

/-- The type that says nothing. -/
def TypeExpr.untyped : TypeExpr := .special .untyped

namespace FunctionType

/-- `() -> returnType` -/
def returning (returnType : TypeExpr) : FunctionType := ⟨[], returnType⟩

/-- The slot in which a parameter ends up behind `params`: one that is written without any
mark is trailing once an optional or rest parameter was written. -/
def settledSlot (params : List Param) : Slot → Slot
  | .required =>
    if params.any fun p => p.slot == .optional || p.slot == .rest then .trailing else .required
  | slot => slot

/-- Puts a parameter behind those of its own and earlier slots. A rest parameter takes the
place of an earlier one of the same kind. -/
def addParam (params : List Param) (p : Param) : List Param :=
  let slot := settledSlot params p.slot
  let kept := if slot.isSingle then params.filter fun q => q.slot != slot else params
  kept.filter (fun q => q.slot.rank ≤ slot.rank) ++ ⟨slot, p.type, p.name⟩ ::
    kept.filter fun q => !(q.slot.rank ≤ slot.rank)

/-- Sorts parameters into their slots. They are given in the order in which they are
written, with the slots that their marks ask for. -/
def arrange (written : List Param) : List Param := written.foldl addParam []

end FunctionType

/-! ## Method types -/

/-- How a type parameter may vary. -/
inductive Variance
  | invariant
  /-- `out T` -/
  | covariant
  /-- `in T` -/
  | contravariant
  deriving Repr, Inhabited, DecidableEq

/-- A declared type parameter. -/
structure TypeParam where
  /-- Its name. -/
  name : String
  /-- Its variance. -/
  variance : Variance
  /-- Whether its variance is exempt from checks. -/
  unchecked : Bool
  /-- The upper bound. -/
  upperBound : Option TypeExpr
  /-- Where it is written. -/
  span : Span
  deriving Repr, Inhabited

/-- One overload of a method. -/
structure MethodType where
  /-- The overload's own type parameters. -/
  typeParams : List TypeParam
  /-- Parameters and return type. -/
  function : FunctionType
  /-- The block. -/
  block : Option Block
  /-- Where the overload is written. -/
  span : Span
  deriving Repr, Inhabited

/-- The names of type parameters. -/
def typeParamNames (params : List TypeParam) : List String := params.map (·.name)

end RubySig
