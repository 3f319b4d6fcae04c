import RubySig.TypeExpr

/-!
# Printed types

* `TypeExpr.render`, `FunctionType.render`, `MethodType.render`: the text of a type.
* `TypeExpr.needsParens`: which operands stand in parentheses.
-/

namespace RubySig

/-- The text of a literal. -/
def Literal.render : Literal → String
  | string quoted => quoted
  | symbol name => ":" ++ name
  | integer value => toString value
  | bool true => "true"
  | bool false => "false"

/-- The reserved name of a special type. -/
def SpecialType.render : SpecialType → String
  | untyped => "untyped"
  | void => "void"
  | selfType => "self"
  | instanceType => "instance"
  | classType => "class"
  | bot => "bot"
  | top => "top"
  | nil => "nil"
  | bool => "bool"

/-- The text of a record key and of the mark behind it. -/
def RecordKey.render : RecordKey → String
  | symbol name => name ++ ": "
  | string quoted => quoted ++ " => "

/-- The text in front of a parameter of a slot. -/
def Slot.render : Slot → String
  | required => ""
  | optional => "?"
  | rest => "*"
  | trailing => ""
  | requiredKeyword key => key ++ ": "
  | optionalKeyword key => "?" ++ key ++ ": "
  | restKeywords => "**"

/-! ## Types -/

/-- The operators that a printed type can be an operand of. -/
inductive OperandOf
  /-- `|` -/
  | union
  /-- `&` -/
  | intersection
  /-- The mark `?`, or the place of a return type. -/
  | optional
  deriving Repr, Inhabited, DecidableEq

/-- Whether a type stands in parentheses as an operand: procs and unions always, an
intersection except in a union. -/
def TypeExpr.needsParens (operator : OperandOf) : TypeExpr → Bool
  | .proc _ _ | .union _ => true
  | .intersection _ => operator != .union
  | _ => false

/-- Puts a text into parentheses if asked. -/
def parenthesized (wanted : Bool) (text : String) : String :=
  if wanted then "(" ++ text ++ ")" else text

/-- The texts of a list with commas between them. -/
def commaSeparated (texts : List String) : String := ", ".intercalate texts

mutual

/-- The text of a type. -/
def TypeExpr.render : TypeExpr → String
  | .named target => target.render
  | .singleton target => "singleton(" ++ target.name.render ++ ")"
  | .var name => name
  | .union types => " | ".intercalate (renderOperands .union types)
  | .intersection types => " & ".intercalate (renderOperands .intersection types)
  | .optional inner => parenthesized (inner.needsParens .optional) inner.render ++ "?"
  | .tuple [] => "[ ]"
  | .tuple (type :: rest) => "[" ++ commaSeparated (type.render :: renderTypes rest) ++ "]"
  | .record [] => "\x7b \x7d"
  | .record (field :: rest) =>
    "\x7b " ++ commaSeparated (field.render :: renderFields rest) ++ " \x7d"
  | .proc function block => "^" ++ function.renderParams ++ " " ++ renderBlock block ++
      function.renderArrow
  | .literal value => value.render
  | .special type => type.render

/-- The name, and the arguments in brackets if there are any. -/
def NamedType.render : NamedType → String
  | ⟨name, [], _⟩ => name.render
  | ⟨name, type :: rest, _⟩ =>
    name.render ++ "[" ++ commaSeparated (type.render :: renderTypes rest) ++ "]"

/-- Key and type of a field. -/
def RecordField.render : RecordField → String
  | ⟨key, type⟩ => key.render ++ type.render

/-- The parameter list in parentheses. -/
def FunctionType.renderParams : FunctionType → String
  | ⟨params, _⟩ => "(" ++ commaSeparated (renderParamList params) ++ ")"

/-- The return type behind its arrow, as an operand. -/
def FunctionType.renderArrow : FunctionType → String
  | ⟨_, returnType⟩ => "-> " ++ parenthesized (returnType.needsParens .optional) returnType.render

/-- A block with its parameters and its return type, and a blank behind it. -/
def renderBlock : Option Block → String
  | none => ""
  | some ⟨required, ⟨params, returnType⟩⟩ =>
    (if required then "" else "?") ++ "\x7b (" ++ commaSeparated (renderParamList params) ++
      ") -> " ++ returnType.render ++ " \x7d "

/-- The texts of operands. -/
def renderOperands (operator : OperandOf) : List TypeExpr → List String
  | [] => []
  | type :: rest =>
    parenthesized (type.needsParens operator) type.render :: renderOperands operator rest

/-- The texts of types. -/
def renderTypes : List TypeExpr → List String
  | [] => []
  | type :: rest => type.render :: renderTypes rest

/-- The texts of record fields. -/
def renderFields : List RecordField → List String
  | [] => []
  | field :: rest => field.render :: renderFields rest

/-- The texts of parameters with the marks of their slots. -/
def renderParamList : List Param → List String
  | [] => []
  | ⟨slot, type, name⟩ :: rest =>
    (slot.render ++ type.render ++ (match name with
      | none => ""
      | some name => " " ++ name)) :: renderParamList rest

end

/-- The text of a parameter without the mark of its slot. -/
def Param.render (p : Param) : String :=
  p.type.render ++ (match p.name with
    | none => ""
    | some name => " " ++ name)

/-! ## Functions and methods -/

/-- `(A) ?{ (B) -> C } -> D` -/
def renderCallable (function : FunctionType) (block : Option Block) : String :=
  function.renderParams ++ " " ++ renderBlock block ++ function.renderArrow

/-- `(A) -> B` -/
def FunctionType.render (function : FunctionType) : String := renderCallable function none

/-- A type parameter with its modifiers and its bound. -/
def TypeParam.render (p : TypeParam) : String :=
  (if p.unchecked then "unchecked " else "") ++
    (match p.variance with
      | .invariant => ""
      | .covariant => "out "
      | .contravariant => "in ") ++
    p.name ++
    (match p.upperBound with
      | none => ""
      | some bound => " < " ++ bound.render)

/-- Type parameters in brackets, then the callable. -/
def MethodType.render (method : MethodType) : String :=
  (if method.typeParams.isEmpty then ""
    else "[" ++ commaSeparated (method.typeParams.map TypeParam.render) ++ "] ") ++
    renderCallable method.function method.block

end RubySig
