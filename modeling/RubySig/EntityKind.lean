import RubySig.Name

/-!
# Kinds of declared entities

* `EntityKind`: what a declaration introduces.
* `EntityKind.accepts`: whether a reference of a given spelling can denote it.
-/

namespace RubySig

/-- The kind of a declared entity. -/
inductive EntityKind
  /-- A class. -/
  | klass
  /-- A module. -/
  | module
  /-- An interface. -/
  | interface
  /-- A type alias. -/
  | typeAlias
  /-- A constant. -/
  | constant
  deriving Repr, Inhabited, DecidableEq

namespace EntityKind

/-- Every kind, in the order in which they are listed. -/
def all : List EntityKind := [klass, module, interface, typeAlias, constant]

/-- The word for a kind in messages. -/
def render : EntityKind → String
  | klass => "class"
  | module => "module"
  | interface => "interface"
  | typeAlias => "type alias"
  | constant => "constant"

/-- The word for a kind in machine-readable output. -/
def label : EntityKind → String
  | klass => "class"
  | module => "module"
  | interface => "interface"
  | typeAlias => "alias"
  | constant => "constant"

/-- Only classes and modules can enclose other declarations. -/
def isNamespace : EntityKind → Bool
  | klass | module => true
  | interface | typeAlias | constant => false

/-- Whether a type reference of the given spelling can denote an entity of this kind. -/
def accepts (kind : EntityKind) : NameKind → Bool
  | .classLike => kind.isNamespace
  | .interface => kind == interface
  | .typeAlias => kind == typeAlias

end EntityKind

end RubySig
