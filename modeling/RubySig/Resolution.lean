import RubySig.Environment

/-!
# Name resolution

A name written inside `module A; class B` is looked up as `::A::B::Name`, then as
`::A::Name`, then as `::Name`. The first candidate wins whose enclosing names are
classes or modules and that is declared with a fitting kind.

* `Usage`: what a name is used as.
* `Environment.resolve`: the declared name, or the name that is missing.
* `Environment.absolutize`: a type with its names resolved.
-/

namespace RubySig

/-- What a name is used as. -/
inductive Usage
  /-- A type: the spelling says whether a class, an interface or an alias. -/
  | asType
  /-- A constant: a class, a module or a declared constant. -/
  | asConstant
  /-- The operand of `singleton`: a class or a module. -/
  | asNamespace
  deriving Repr, Inhabited, DecidableEq

/-- Whether a name can be used to denote an entity of a kind. -/
def Usage.accepts (usage : Usage) (name : TypeName) (kind : EntityKind) : Bool :=
  match usage with
  | asType => kind.accepts name.kind
  | asConstant => name.kind == .classLike && (kind.isNamespace || kind == .constant)
  | asNamespace => kind.isNamespace

namespace Environment

variable (env : Environment)

/-! ## Names -/

/-- Whether every enclosing name is a class or module. -/
def hasNamespaces (name : TypeName) : Bool := name.enclosing.all env.isNamespace

/-- Whether an absolute name denotes something that fits the usage. -/
def denotes (usage : Usage) (name : TypeName) : Bool :=
  env.hasNamespaces name && ((env.kind? name).map (usage.accepts name)).getD false

/-- The outermost enclosing name that is not a class or module, or the name itself. -/
def missingPart (name : TypeName) : TypeName :=
  (name.enclosing.find? fun n => !env.isNamespace n).getD name

/-- The innermost scope in which the first segment of a name is declared. -/
def headScope (name : TypeName) (nesting : Nesting) : Namespace :=
  (nesting.scopes.find? fun scope => env.contains ((TypeName.bare name.head).placedIn scope)).getD
    .root

/-- The candidate that a name is blamed on if none denotes anything. -/
def closest (name : TypeName) (nesting : Nesting) : TypeName :=
  if name.isAbsolute then name else name.placedIn (env.headScope name nesting)

/-- The first candidate that denotes something, or the name that is missing. -/
def resolve (name : TypeName) (nesting : Nesting) (usage : Usage) : Except TypeName TypeName :=
  match (nesting.candidates name).find? (env.denotes usage) with
  | some found => .ok found
  | none => .error (env.missingPart (env.closest name nesting))

/-- The first candidate that denotes something. -/
def resolve? (name : TypeName) (nesting : Nesting) (usage : Usage) : Option TypeName :=
  (env.resolve name nesting usage).toOption

/-! ## Types -/

/-- Resolves the name at a node. A name that denotes nothing is kept as it is written. -/
def absolutizeNode (nesting : Nesting) : TypeExpr → TypeExpr
  | .named ⟨name, args, span⟩ => .named ⟨(env.resolve? name nesting .asType).getD name, args, span⟩
  | .singleton ⟨name, span⟩ => .singleton ⟨(env.resolve? name nesting .asNamespace).getD name, span⟩
  | other => other

/-- Resolves all names in a type. -/
def absolutize (nesting : Nesting) (type : TypeExpr) : TypeExpr :=
  type.map (env.absolutizeNode nesting)

/-- Resolves all names in an overload. -/
def absolutizeMethod (nesting : Nesting) (method : MethodType) : MethodType :=
  method.map (env.absolutizeNode nesting)

end Environment

end RubySig
