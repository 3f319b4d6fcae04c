import RubySig.EntityKind
import RubySig.TypeExpr.Traversal

/-!
# Declarations

What a signature file declares, as it is written. Whatever can fail to resolve carries
its span.

* `EntityDecl`: a class, module, interface, type alias or constant.
* `Member`: what stands in the body of a class, module or interface.
* `Declaration`: an entity or a global variable at the top level of a file.
-/

namespace RubySig

/-! ## Members without nested declarations -/

/-- Who may call a method. -/
inductive Visibility
  | publicAccess | privateAccess
  deriving Repr, Inhabited, DecidableEq

/-- The word for a visibility. -/
def Visibility.render : Visibility → String
  | publicAccess => "public"
  | privateAccess => "private"

/-- Which sides of an entity a method belongs to. -/
inductive MethodKind
  /-- `def foo` -/
  | onInstance
  /-- `def self.foo` -/
  | onSingleton
  /-- `def self?.foo`: a public singleton method and a private instance method. -/
  | onBoth
  deriving Repr, Inhabited, DecidableEq

namespace MethodKind

/-- Whether instances have the method. -/
def hasInstanceSide : MethodKind → Bool
  | onInstance | onBoth => true
  | onSingleton => false

/-- Whether the class or module object has the method. -/
def hasSingletonSide : MethodKind → Bool
  | onSingleton | onBoth => true
  | onInstance => false

/-- The word for a method kind in machine-readable output. -/
def label : MethodKind → String
  | onInstance => "instance"
  | onSingleton => "singleton"
  | onBoth => "singleton_instance"

end MethodKind

/-- A method with its overloads. -/
structure MethodMember where
  /-- The method name. -/
  name : String
  /-- The sides it belongs to. -/
  kind : MethodKind
  /-- The overloads as written. -/
  overloads : List MethodType
  /-- An explicit `private` or `public` in front; otherwise the section decides. -/
  visibility : Option Visibility
  /-- Where it is written. -/
  span : Span
  deriving Repr, Inhabited

/-- Which accessors an attribute has. -/
inductive AttributeKind
  | reader | writer | accessor
  deriving Repr, Inhabited, DecidableEq

namespace AttributeKind

/-- Whether there is a reader. -/
def hasReader : AttributeKind → Bool
  | reader | accessor => true
  | writer => false

/-- Whether there is a writer. -/
def hasWriter : AttributeKind → Bool
  | writer | accessor => true
  | reader => false

/-- The word for an attribute kind in machine-readable output. -/
def label : AttributeKind → String
  | reader => "reader"
  | writer => "writer"
  | accessor => "accessor"

end AttributeKind

/-- An attribute, which stands for one or two accessor methods. -/
structure AttributeMember where
  /-- Which accessors. -/
  kind : AttributeKind
  /-- The attribute name. -/
  name : String
  /-- The type of the value. -/
  type : TypeExpr
  /-- Whether the attribute belongs to the class or module object. -/
  singleton : Bool
  /-- An explicit `private` or `public` in front. -/
  visibility : Option Visibility
  /-- Where it is written. -/
  span : Span
  deriving Repr, Inhabited

/-- A second name for a method. -/
structure AliasMember where
  /-- The name that is added. -/
  newName : String
  /-- The name of the method that it stands for. -/
  oldName : String
  /-- Whether both are singleton methods. -/
  singleton : Bool
  /-- Where it is written. -/
  span : Span
  deriving Repr, Inhabited

/-- How a module or interface is mixed in. -/
inductive MixinKind
  | included | extended | prepended
  deriving Repr, Inhabited, DecidableEq

/-- The directive that is written. -/
def MixinKind.keyword : MixinKind → String
  | included => "include"
  | extended => "extend"
  | prepended => "prepend"

/-- A directive that mixes in a module or interface. -/
structure Mixin where
  /-- The directive. -/
  kind : MixinKind
  /-- The module or interface. -/
  target : NamedType
  /-- Where the directive is written. -/
  span : Span
  deriving Repr, Inhabited

/-- `private` or `public` alone, which opens a section. -/
structure VisibilityMarker where
  /-- The visibility of the section. -/
  visibility : Visibility
  /-- Where it is written. -/
  span : Span
  deriving Repr, Inhabited

/-- Whose variable is declared. -/
inductive VariableKind
  /-- `@name: T` -/
  | ofInstance
  /-- `@@name: T` -/
  | ofClass
  deriving Repr, Inhabited, DecidableEq

/-- The word for a variable kind in machine-readable output. -/
def VariableKind.label : VariableKind → String
  | ofInstance => "instance"
  | ofClass => "class"

/-- The type of a variable. -/
structure VariableMember where
  /-- Whose variable. -/
  kind : VariableKind
  /-- The name with its leading signs. -/
  name : String
  /-- The type. -/
  type : TypeExpr
  /-- Where it is written. -/
  span : Span
  deriving Repr, Inhabited

/-! ## Declarations without members -/

/-- `type name = T` -/
structure AliasDecl where
  /-- The name as written. -/
  name : TypeName
  /-- The type parameters. -/
  typeParams : List TypeParam
  /-- The type that the name stands for. -/
  type : TypeExpr
  /-- Where the name is written. -/
  nameSpan : Span
  /-- Where the declaration is written. -/
  span : Span
  deriving Repr, Inhabited

/-- `NAME: T` -/
structure ConstantDecl where
  /-- The name as written. -/
  name : TypeName
  /-- The type. -/
  type : TypeExpr
  /-- Where the name is written. -/
  nameSpan : Span
  /-- Where the declaration is written. -/
  span : Span
  deriving Repr, Inhabited

/-- `$name: T` -/
structure GlobalDecl where
  /-- The name with its dollar sign. -/
  name : String
  /-- The type. -/
  type : TypeExpr
  /-- Where the declaration is written. -/
  span : Span
  deriving Repr, Inhabited

/-! ## Declarations with members -/

mutual

/-- A declaration of a named entity. -/
inductive EntityDecl
  | klass (decl : ClassDecl)
  | module (decl : ModuleDecl)
  | interface (decl : InterfaceDecl)
  | typeAlias (decl : AliasDecl)
  | constant (decl : ConstantDecl)

/-- A class body with its header. -/
structure ClassDecl where
  /-- The name as written. -/
  name : TypeName
  /-- The type parameters. -/
  typeParams : List TypeParam
  /-- The superclass, if one is written. -/
  superClass : Option NamedType
  /-- The body. -/
  members : List Member
  /-- Where the name is written. -/
  nameSpan : Span
  /-- Where the declaration is written. -/
  span : Span

/-- A module body with its header. -/
structure ModuleDecl where
  /-- The name as written. -/
  name : TypeName
  /-- The type parameters. -/
  typeParams : List TypeParam
  /-- The types that a class including the module has to have. -/
  selfTypes : List NamedType
  /-- The body. -/
  members : List Member
  /-- Where the name is written. -/
  nameSpan : Span
  /-- Where the declaration is written. -/
  span : Span

/-- An interface body with its header. -/
structure InterfaceDecl where
  /-- The name as written. -/
  name : TypeName
  /-- The type parameters. -/
  typeParams : List TypeParam
  /-- The body. -/
  members : List Member
  /-- Where the name is written. -/
  nameSpan : Span
  /-- Where the declaration is written. -/
  span : Span

/-- An element of a body. -/
inductive Member
  | method (member : MethodMember)
  | attr (member : AttributeMember)
  | methodAlias (member : AliasMember)
  | mixin (member : Mixin)
  | marker (marker : VisibilityMarker)
  | typedVar (member : VariableMember)
  | nested (decl : EntityDecl)

end

deriving instance Repr, Inhabited for
  AliasDecl, EntityDecl, ClassDecl, ModuleDecl, InterfaceDecl, Member

/-- A declaration at the top level of a file. -/
inductive Declaration
  /-- A named entity. -/
  | entity (decl : EntityDecl)
  /-- A global variable. -/
  | global (decl : GlobalDecl)
  deriving Repr, Inhabited

namespace EntityDecl

/-- What is declared. -/
def kind : EntityDecl → EntityKind
  | klass _ => .klass
  | module _ => .module
  | interface _ => .interface
  | typeAlias _ => .typeAlias
  | constant _ => .constant

/-- The name as written. -/
def name : EntityDecl → TypeName
  | klass d => d.name
  | module d => d.name
  | interface d => d.name
  | typeAlias d => d.name
  | constant d => d.name

/-- The type parameters; a constant has none. -/
def typeParams : EntityDecl → List TypeParam
  | klass d => d.typeParams
  | module d => d.typeParams
  | interface d => d.typeParams
  | typeAlias d => d.typeParams
  | constant _ => []

/-- The body; aliases and constants have none. -/
def members : EntityDecl → List Member
  | klass d => d.members
  | module d => d.members
  | interface d => d.members
  | typeAlias _ => []
  | constant _ => []

/-- The superclass that a class writes. -/
def superClass? : EntityDecl → Option NamedType
  | klass d => d.superClass
  | module _ | interface _ | typeAlias _ | constant _ => none

/-- Where the name is written. -/
def nameSpan : EntityDecl → Span
  | klass d => d.nameSpan
  | module d => d.nameSpan
  | interface d => d.nameSpan
  | typeAlias d => d.nameSpan
  | constant d => d.nameSpan

/-- Where the declaration is written. -/
def span : EntityDecl → Span
  | klass d => d.span
  | module d => d.span
  | interface d => d.span
  | typeAlias d => d.span
  | constant d => d.span

end EntityDecl

namespace Declaration

/-- The kind of the entity; a global variable has none. -/
def kind? : Declaration → Option EntityKind
  | entity d => some d.kind
  | global _ => none

/-- The name as written; a global variable has no type name. -/
def name? : Declaration → Option TypeName
  | entity d => some d.name
  | global _ => none

/-- Where the declaration is written. -/
def span : Declaration → Span
  | entity d => d.span
  | global d => d.span

end Declaration

/-! ## Types in members -/

/-- Replaces every type written in a member. Nested declarations are kept as they are. -/
def Member.mapTypes (f : TypeExpr → TypeExpr) : Member → Member
  | method m => method { m with overloads := m.overloads.map (·.map f) }
  | attr m => attr { m with type := m.type.map f }
  | typedVar m => typedVar { m with type := m.type.map f }
  | mixin m => mixin { m with target := m.target.mapArgs f }
  | methodAlias m => methodAlias m
  | marker m => marker m
  | nested d => nested d

end RubySig
