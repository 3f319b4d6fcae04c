import RubySig.Declaration
import RubySig.Nesting
import RubySig.OrderedMap

/-!
# Environments

All loaded declarations under their absolute names. A class or module that is reopened
is one entry with a fragment for each declaration, in load order.

* `Fragment`: a declaration with the scopes around it.
* `Entry`: all fragments of one entity. `Entry.typeParams` are its type parameters.
* `Body`: the members of a fragment with the scopes in which they are read.
* `Environment`: the entries and global variables in declaration order.
-/

namespace RubySig

/-- A declaration and where it was written. -/
structure Fragment (δ : Type) where
  /-- The declaration. -/
  decl : δ
  /-- The scopes around it. -/
  nesting : Nesting
  /-- The source that it comes from. -/
  source : SourceId
  deriving Repr, Inhabited

/-- The members of a fragment. -/
structure Body where
  /-- The members. -/
  members : List Member
  /-- The type parameters as this fragment spells them. -/
  typeParams : List TypeParam
  /-- The entity itself and the scopes around its declaration. -/
  nesting : Nesting
  /-- The source that the members come from. -/
  source : SourceId
  deriving Repr, Inhabited

/-! ## Entries -/

/-- A declared entity. -/
structure Entry where
  /-- The absolute name. -/
  name : TypeName
  /-- The fragment that was loaded first. -/
  primary : Fragment EntityDecl
  /-- The other fragments in load order. -/
  reopenings : List (Fragment EntityDecl)
  deriving Repr, Inhabited

/-- The first parameter list that is not empty. -/
def firstDeclared (params : List (List TypeParam)) : List TypeParam :=
  (params.find? fun ps => !ps.isEmpty).getD []

namespace Entry

/-- All fragments in load order. -/
def fragments (e : Entry) : List (Fragment EntityDecl) := e.primary :: e.reopenings

/-- What the entity is. -/
def kind (e : Entry) : EntityKind := e.primary.decl.kind

/-- Where the name is written first. -/
def nameSpan (e : Entry) : Span := e.primary.decl.nameSpan

/-- The type parameters of the first fragment that declares any. -/
def typeParams (e : Entry) : List TypeParam := firstDeclared (e.fragments.map (·.decl.typeParams))

/-- The names of the type parameters. -/
def paramNames (e : Entry) : List String := typeParamNames e.typeParams

/-- Whether the entity has members. -/
def hasBodies (e : Entry) : Bool :=
  match e.kind with
  | .klass | .module | .interface => true
  | .typeAlias | .constant => false

/-- The members of a fragment of the entity. -/
def bodyOf (e : Entry) (f : Fragment EntityDecl) : Body :=
  ⟨f.decl.members, f.decl.typeParams, f.nesting.enter e.name.toNamespace, f.source⟩

/-- The members of all fragments. -/
def bodies (e : Entry) : List Body := if e.hasBodies then e.fragments.map e.bodyOf else []

/-- The number of members of all fragments. -/
def memberCount (e : Entry) : Nat :=
  (e.bodies.map fun b => b.members.length).foldr (· + ·) 0

/-- The superclass that is written first, with the fragment that writes it. -/
def superClass? (e : Entry) : Option (NamedType × Fragment EntityDecl) :=
  e.fragments.findSome? fun f => f.decl.superClass?.map fun s => (s, f)

end Entry

/-! ## Environments -/

/-- All declarations of a session. -/
structure Environment where
  /-- The entities by absolute name. -/
  entries : OrderedMap TypeName Entry
  /-- The global variables by name. -/
  globals : OrderedMap String (Fragment GlobalDecl)
  deriving Repr, Inhabited

namespace Environment

/-- Nothing is declared. -/
def empty : Environment := ⟨.empty, .empty⟩

/-- The entity with an absolute name. -/
def get? (env : Environment) (name : TypeName) : Option Entry := env.entries.get? name

/-- Whether an absolute name is declared. -/
def contains (env : Environment) (name : TypeName) : Bool := (env.get? name).isSome

/-- The kind of the entity with an absolute name. -/
def kind? (env : Environment) (name : TypeName) : Option EntityKind := (env.get? name).map (·.kind)

/-- The entity with an absolute name, if it is of a kind. -/
def lookup? (env : Environment) (name : TypeName) (kind : EntityKind) : Option Entry :=
  (env.get? name).filter fun e => e.kind == kind

/-- Whether an absolute name is a class. -/
def isClass (env : Environment) (name : TypeName) : Bool := env.kind? name == some .klass

/-- Whether an absolute name is a class or module. -/
def isNamespace (env : Environment) (name : TypeName) : Bool :=
  ((env.kind? name).map EntityKind.isNamespace).getD false

/-- The type parameters of an entity; an undeclared one has none. -/
def paramsOf (env : Environment) (name : TypeName) : List TypeParam :=
  ((env.get? name).map (·.typeParams)).getD []

/-- All entities in declaration order. -/
def entities (env : Environment) : List Entry := env.entries.values

/-- All absolute names in declaration order. -/
def names (env : Environment) : List TypeName := env.entries.keys

/-- The enclosing names of an absolute name, outermost first, with their kinds. -/
def namespaceChain (env : Environment) (name : TypeName) : List (TypeName × Option EntityKind) :=
  name.enclosing.map fun n => (n, env.kind? n)

end Environment

end RubySig
