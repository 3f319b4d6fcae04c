import RubySig.Declaration
import RubySig.Json
import RubySig.TypeExpr.Printer

/-!
# Declarations as JSON

An object's fields are those of the record it encodes, and a value with several shapes
carries a tag that names the shape. Names are written as they print.

* `TypeExpr.toJson`, `MethodType.toJson`: types.
* `EntityDecl.toJson`, `Member.toJson`, `Declaration.toJson`: declarations.
-/

namespace RubySig

open Json (nat optional list)

/-! ## Leaves -/

/-- `[start, end]` -/
def TextRange.toJson (r : TextRange) : Json := .array [nat r.start, nat r.stop]

/-- Source number and range. -/
def Span.toJson (s : Span) : Json :=
  .object [("source", nat s.source), ("range", s.range.toJson)]

/-- A name as it prints. -/
def TypeName.toJson (n : TypeName) : Json := .string n.render

/-- `true` and `false` are words, the others objects with the shape as their key. -/
def Literal.toJson : Literal → Json
  | string quoted => .object [("string", .string quoted)]
  | symbol name => .object [("symbol", .string name)]
  | integer value => .object [("integer", .int value)]
  | bool true => .string "true"
  | bool false => .string "false"

/-- The word for a special type in machine-readable output. -/
def SpecialType.label : SpecialType → String
  | selfType => "self_type"
  | other => other.render

/-- An object with the shape of the key as its key. -/
def RecordKey.toJson : RecordKey → Json
  | symbol name => .object [("symbol", .string name)]
  | string quoted => .object [("string", .string quoted)]

/-! ## Types -/

/-- A parameter that is already encoded, with its slot. -/
structure EncodedParam where
  /-- The slot. -/
  slot : Slot
  /-- Type and name. -/
  json : Json
  deriving Repr, Inhabited

namespace EncodedParam

/-- The parameters of the slots with the given rank. -/
def ofRank (rank : Nat) (params : List EncodedParam) : List EncodedParam :=
  params.filter fun p => p.slot.rank == rank

/-- A list of positional parameters. -/
def positional (rank : Nat) (params : List EncodedParam) : Json :=
  .array ((ofRank rank params).map (·.json))

/-- The only parameter of a slot, or `null`. -/
def single (rank : Nat) (params : List EncodedParam) : Json :=
  ((ofRank rank params).map (·.json)).headD .null

/-- The key of a keyword slot; other slots have none. -/
def key : Slot → String
  | .requiredKeyword key | .optionalKeyword key => key
  | _ => ""

/-- Pairs of a key and a parameter. -/
def keywords (rank : Nat) (params : List EncodedParam) : Json :=
  .array ((ofRank rank params).map fun p => .array [.string (key p.slot), p.json])

end EncodedParam

/-- The fields of a function, its parameters sorted by slot. -/
def functionJson (params : List EncodedParam) (returnType : Json) : Json :=
  .object
    [("required", EncodedParam.positional Slot.required.rank params),
      ("optional", EncodedParam.positional Slot.optional.rank params),
      ("rest", EncodedParam.single Slot.rest.rank params),
      ("trailing", EncodedParam.positional Slot.trailing.rank params),
      ("required_keywords", EncodedParam.keywords (Slot.requiredKeyword "").rank params),
      ("optional_keywords", EncodedParam.keywords (Slot.optionalKeyword "").rank params),
      ("rest_keywords", EncodedParam.single Slot.restKeywords.rank params),
      ("return_type", returnType)]

mutual

/-- A type; its tag is `kind`. -/
def TypeExpr.toJson : TypeExpr → Json
  | .named target => .object (("kind", .string "named") :: target.toFields)
  | .singleton target =>
    .object [("kind", .string "singleton"), ("name", target.name.toJson),
      ("span", target.span.toJson)]
  | .var name => .object [("kind", .string "var"), ("name", .string name)]
  | .union types => .object [("kind", .string "union"), ("types", .array (jsonOfTypes types))]
  | .intersection types =>
    .object [("kind", .string "intersection"), ("types", .array (jsonOfTypes types))]
  | .optional inner => .object [("kind", .string "optional"), ("inner", inner.toJson)]
  | .tuple types => .object [("kind", .string "tuple"), ("types", .array (jsonOfTypes types))]
  | .record fields => .object [("kind", .string "record"), ("fields", .array (jsonOfFields fields))]
  | .proc function block =>
    .object [("kind", .string "proc"), ("function", function.toJson), ("block", jsonOfBlock block)]
  | .literal value => .object [("kind", .string "literal"), ("value", value.toJson)]
  | .special type => .object [("kind", .string "special"), ("special", .string type.label)]

/-- The fields of a name with arguments. -/
def NamedType.toFields : NamedType → List (String × Json)
  | ⟨name, args, span⟩ =>
    [("name", name.toJson), ("args", .array (jsonOfTypes args)), ("span", span.toJson)]

/-- Parameters by slot and return type. -/
def FunctionType.toJson : FunctionType → Json
  | ⟨params, returnType⟩ => functionJson (encodeParams params) returnType.toJson

/-- Several types. -/
def jsonOfTypes : List TypeExpr → List Json
  | [] => []
  | type :: rest => type.toJson :: jsonOfTypes rest

/-- Record fields. -/
def jsonOfFields : List RecordField → List Json
  | [] => []
  | ⟨key, type⟩ :: rest =>
    .object [("key", key.toJson), ("ty", type.toJson)] :: jsonOfFields rest

/-- Parameters, each with its slot. -/
def encodeParams : List Param → List EncodedParam
  | [] => []
  | ⟨slot, type, name⟩ :: rest =>
    ⟨slot, .object [("ty", type.toJson), ("name", optional .string name)]⟩ :: encodeParams rest

/-- A block or `null`. -/
def jsonOfBlock : Option Block → Json
  | none => .null
  | some ⟨required, function⟩ =>
    .object [("required", .bool required), ("function", function.toJson)]

end

/-- A name with arguments, without a tag. -/
def NamedType.toJson (type : NamedType) : Json := .object type.toFields

/-- The word for a variance in machine-readable output. -/
def Variance.label : Variance → String
  | invariant => "invariant"
  | covariant => "covariant"
  | contravariant => "contravariant"

/-- A type parameter. -/
def TypeParam.toJson (p : TypeParam) : Json :=
  .object [("name", .string p.name), ("variance", .string p.variance.label),
    ("unchecked", .bool p.unchecked), ("upper_bound", optional TypeExpr.toJson p.upperBound),
    ("span", p.span.toJson)]

/-- An overload. -/
def MethodType.toJson (m : MethodType) : Json :=
  .object [("type_params", list TypeParam.toJson m.typeParams), ("function", m.function.toJson),
    ("block", jsonOfBlock m.block), ("span", m.span.toJson)]

/-! ## Members without nested declarations -/

/-- A visibility or `null`. -/
def jsonOfVisibility (v : Option Visibility) : Json := optional (fun v => .string v.render) v

/-- The fields of a method. -/
def MethodMember.toFields (m : MethodMember) : List (String × Json) :=
  [("name", .string m.name), ("kind", .string m.kind.label),
    ("overloads", list MethodType.toJson m.overloads),
    ("visibility", jsonOfVisibility m.visibility), ("span", m.span.toJson)]

/-- The fields of an attribute. -/
def AttributeMember.toFields (m : AttributeMember) : List (String × Json) :=
  [("kind", .string m.kind.label), ("name", .string m.name), ("ty", m.type.toJson),
    ("singleton", .bool m.singleton), ("visibility", jsonOfVisibility m.visibility),
    ("span", m.span.toJson)]

/-- The fields of an alias. -/
def AliasMember.toFields (m : AliasMember) : List (String × Json) :=
  [("new_name", .string m.newName), ("old_name", .string m.oldName),
    ("singleton", .bool m.singleton), ("span", m.span.toJson)]

/-- The fields of a mixin. -/
def Mixin.toFields (m : Mixin) : List (String × Json) :=
  [("kind", .string m.kind.keyword), ("target", m.target.toJson), ("span", m.span.toJson)]

/-- The fields of a section marker. -/
def VisibilityMarker.toFields (m : VisibilityMarker) : List (String × Json) :=
  [("visibility", .string m.visibility.render), ("span", m.span.toJson)]

/-- The fields of a variable. -/
def VariableMember.toFields (m : VariableMember) : List (String × Json) :=
  [("kind", .string m.kind.label), ("name", .string m.name), ("ty", m.type.toJson),
    ("span", m.span.toJson)]

/-! ## Declarations -/

/-- The fields of an alias declaration. -/
def AliasDecl.toFields (d : AliasDecl) : List (String × Json) :=
  [("name", d.name.toJson), ("type_params", list TypeParam.toJson d.typeParams),
    ("ty", d.type.toJson), ("name_span", d.nameSpan.toJson), ("span", d.span.toJson)]

/-- The fields of a constant declaration. -/
def ConstantDecl.toFields (d : ConstantDecl) : List (String × Json) :=
  [("name", d.name.toJson), ("ty", d.type.toJson), ("name_span", d.nameSpan.toJson),
    ("span", d.span.toJson)]

/-- The fields of a global declaration. -/
def GlobalDecl.toFields (d : GlobalDecl) : List (String × Json) :=
  [("name", .string d.name), ("ty", d.type.toJson), ("span", d.span.toJson)]

mutual

/-- The fields of an entity; the tag `declaration` comes first. -/
def EntityDecl.toFields : EntityDecl → List (String × Json)
  | .klass d => ("declaration", .string "class") :: d.toFields
  | .module d => ("declaration", .string "module") :: d.toFields
  | .interface d => ("declaration", .string "interface") :: d.toFields
  | .typeAlias d => ("declaration", .string "alias") :: d.toFields
  | .constant d => ("declaration", .string "constant") :: d.toFields

/-- The fields of a class. -/
def ClassDecl.toFields : ClassDecl → List (String × Json)
  | ⟨name, typeParams, superClass, members, nameSpan, span⟩ =>
    [("name", name.toJson), ("type_params", list TypeParam.toJson typeParams),
      ("super_class", optional NamedType.toJson superClass),
      ("members", .array (jsonOfMembers members)), ("name_span", nameSpan.toJson),
      ("span", span.toJson)]

/-- The fields of a module. -/
def ModuleDecl.toFields : ModuleDecl → List (String × Json)
  | ⟨name, typeParams, selfTypes, members, nameSpan, span⟩ =>
    [("name", name.toJson), ("type_params", list TypeParam.toJson typeParams),
      ("self_types", list NamedType.toJson selfTypes),
      ("members", .array (jsonOfMembers members)), ("name_span", nameSpan.toJson),
      ("span", span.toJson)]

/-- The fields of an interface. -/
def InterfaceDecl.toFields : InterfaceDecl → List (String × Json)
  | ⟨name, typeParams, members, nameSpan, span⟩ =>
    [("name", name.toJson), ("type_params", list TypeParam.toJson typeParams),
      ("members", .array (jsonOfMembers members)), ("name_span", nameSpan.toJson),
      ("span", span.toJson)]

/-- The elements of a body; the tag is `member`. -/
def jsonOfMembers : List Member → List Json
  | [] => []
  | .method m :: rest =>
    .object (("member", .string "method") :: m.toFields) :: jsonOfMembers rest
  | .attr m :: rest =>
    .object (("member", .string "attribute") :: m.toFields) :: jsonOfMembers rest
  | .methodAlias m :: rest =>
    .object (("member", .string "alias") :: m.toFields) :: jsonOfMembers rest
  | .mixin m :: rest =>
    .object (("member", .string "mixin") :: m.toFields) :: jsonOfMembers rest
  | .marker m :: rest =>
    .object (("member", .string "visibility") :: m.toFields) :: jsonOfMembers rest
  | .typedVar m :: rest =>
    .object (("member", .string "variable") :: m.toFields) :: jsonOfMembers rest
  | .nested d :: rest =>
    .object (("member", .string "declaration") :: d.toFields) :: jsonOfMembers rest

end

/-- A declaration of a file. -/
def Declaration.toJson : Declaration → Json
  | entity d => .object d.toFields
  | global d => .object (("declaration", .string "global") :: d.toFields)

end RubySig
