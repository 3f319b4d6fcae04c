/-!
# Qualified names

`::Foo::Bar::baz` is the namespace `::Foo::Bar::` and the simple name `baz`. A
leading `::` anchors a name at the top level; a name without it is relative and
gets its meaning from the scopes around it.

* `NameKind.ofName`: what a simple name can denote, read off its spelling.
* `Namespace`, `TypeName`: the names, with their printed form `render`.
* `TypeName.parse?`: reads a printed name back.
* `TypeName.compare`: the order in which names are listed.
-/

namespace RubySig

/-! ## Spelling -/

/-- What a simple name can denote, judged by its spelling alone. -/
inductive NameKind
  /-- `Foo`: a class, a module or a constant. -/
  | classLike
  /-- `_Foo`: an interface. -/
  | interface
  /-- `foo`: a type alias. -/
  | typeAlias
  deriving Repr, Inhabited, DecidableEq

namespace NameKind

/-- The word for a kind in machine-readable output. -/
def label : NameKind → String
  | classLike => "class"
  | interface => "interface"
  | typeAlias => "alias"

/-- An underscore before a capital letter spells an interface, a capital letter alone a
class, everything else an alias. Only ASCII letters count as capitals. -/
def ofChars : List Char → NameKind
  | '_' :: c :: _ => if c.isUpper then interface else typeAlias
  | c :: _ => if c.isUpper then classLike else typeAlias
  | [] => typeAlias

/-- The kind a simple name is spelled with. -/
def ofName (name : String) : NameKind := ofChars name.toList

end NameKind

/-- A letter or underscore, as it may begin an identifier. -/
def isIdentifierStart (c : Char) : Bool := c.isAlpha || c == '_'

/-- A letter, digit or underscore, as it may continue an identifier. -/
def isIdentifierRest (c : Char) : Bool := c.isAlphanum || c == '_'

/-- Whether the text is an ASCII identifier. -/
def isIdentifier : List Char → Bool
  | [] => false
  | c :: cs => isIdentifierStart c && cs.all isIdentifierRest

/-! ## Namespaces -/

/-- The part of a qualified name in front of its last segment. -/
structure Namespace where
  /-- The segments, outermost first. -/
  path : List String
  /-- Whether the path starts at the top level. -/
  absolute : Bool
  deriving Repr, Inhabited, DecidableEq

namespace Namespace

/-- The top level, `::`. -/
def root : Namespace := ⟨[], true⟩

/-- The empty relative namespace. -/
def relative : Namespace := ⟨[], false⟩

/-- Whether there is no segment. -/
def isEmpty (ns : Namespace) : Bool := ns.path.isEmpty

/-- Adds an innermost segment. -/
def append (ns : Namespace) (segment : String) : Namespace :=
  ⟨ns.path ++ [segment], ns.absolute⟩

/-- Places `other` inside `ns`. An absolute `other` stands for itself. -/
def join (ns other : Namespace) : Namespace :=
  if other.absolute then other else ⟨ns.path ++ other.path, ns.absolute⟩

/-- The namespace without its innermost segment. -/
def parent? (ns : Namespace) : Option Namespace :=
  if ns.path.isEmpty then none else some ⟨ns.path.dropLast, ns.absolute⟩

/-- Every segment is followed by `::`, and an absolute path starts with one. -/
def render (ns : Namespace) : String :=
  (if ns.absolute then "::" else "") ++ String.join (ns.path.map (· ++ "::"))

/-- Segment lists in dictionary order; of two equal lists the relative one comes first. -/
def compare (a b : Namespace) : Ordering :=
  (List.compareLex Ord.compare a.path b.path).then (Ord.compare a.absolute b.absolute)

end Namespace

/-! ## Type names -/

/-- A name of a class, module, interface, alias or constant. -/
structure TypeName where
  /-- The enclosing segments. -/
  scope : Namespace
  /-- The last segment. -/
  name : String
  deriving Repr, Inhabited

/-- Two names are compared by their last segments first, in which most names differ. -/
instance : DecidableEq TypeName := fun a b =>
  if hname : a.name = b.name then
    if hscope : a.scope = b.scope then
      isTrue (by obtain ⟨_, _⟩ := a; obtain ⟨_, _⟩ := b; subst hname; subst hscope; rfl)
    else isFalse fun h => hscope (congrArg TypeName.scope h)
  else isFalse fun h => hname (congrArg TypeName.name h)

/-- The name of a namespace that has at least one segment: `::A::B::` becomes `::A::B`. -/
def Namespace.toTypeName? (ns : Namespace) : Option TypeName :=
  ns.path.getLast?.map fun last => ⟨⟨ns.path.dropLast, ns.absolute⟩, last⟩

namespace TypeName

/-- A name at the top level. -/
def topLevel (name : String) : TypeName := ⟨.root, name⟩

/-- A name without any namespace. -/
def bare (name : String) : TypeName := ⟨.relative, name⟩

/-- What the last segment can denote. -/
def kind (n : TypeName) : NameKind := .ofName n.name

/-- Whether the name is anchored at the top level. -/
def isAbsolute (n : TypeName) : Bool := n.scope.absolute

/-- Whether the name is one relative segment. -/
def isBare (n : TypeName) : Bool := !n.isAbsolute && n.scope.isEmpty

/-- The same path anchored at the top level. -/
def anchored (n : TypeName) : TypeName := ⟨⟨n.scope.path, true⟩, n.name⟩

/-- Places the name inside a namespace. An absolute name stands for itself. -/
def placedIn (n : TypeName) (ns : Namespace) : TypeName := ⟨ns.join n.scope, n.name⟩

/-- The namespace that the name opens when it is used as a class or module. -/
def toNamespace (n : TypeName) : Namespace := n.scope.append n.name

/-- The first segment as written: `A` for `A::B::C`, `C` for `C`. -/
def head (n : TypeName) : String := n.scope.path.headD n.name

/-- The names of the enclosing namespaces, outermost first: `::A::B::C` has `::A` and
`::A::B`. -/
def enclosing (n : TypeName) : List TypeName :=
  (List.range n.scope.path.length).filterMap fun i =>
    (⟨n.scope.path.take (i + 1), n.scope.absolute⟩ : Namespace).toTypeName?

/-- All segments, outermost first. -/
def segments (n : TypeName) : List String := n.scope.path ++ [n.name]

/-- The namespace directly followed by the simple name. -/
def render (n : TypeName) : String := n.scope.render ++ n.name

/-- Names are listed by namespace and then by simple name. -/
def compare (a b : TypeName) : Ordering :=
  (a.scope.compare b.scope).then (Ord.compare a.name b.name)

/-- Drops every name that repeats its predecessor. -/
def dropRepeats : List TypeName → List TypeName
  | [] => []
  | [n] => [n]
  | n :: m :: rest => if n = m then dropRepeats (m :: rest) else n :: dropRepeats (m :: rest)

/-- The names in order, each once. -/
def sortUnique (names : List TypeName) : List TypeName :=
  dropRepeats (names.mergeSort fun a b => (a.compare b).isLE)

/-! ## Reading names -/

/-- Puts a character in front of the first segment. -/
def consHead (c : Char) : List (List Char) → List (List Char)
  | [] => [[c]]
  | s :: rest => (c :: s) :: rest

/-- Cuts a text at every `::`, from left to right. -/
def splitSegments : List Char → List (List Char)
  | [] => [[]]
  | ':' :: ':' :: rest => [] :: splitSegments rest
  | c :: rest => consHead c (splitSegments rest)

/-- Whether the text can name a class or module. -/
def isClassSegment (segment : List Char) : Bool :=
  isIdentifier segment && NameKind.ofChars segment == .classLike

/-- The name whose segments are given, if the last one is an identifier and all others
can name a class or module. -/
def ofSegments? (absolute : Bool) (segments : List (List Char)) : Option TypeName :=
  match segments.getLast? with
  | none => none
  | some last =>
    if isIdentifier last && segments.dropLast.all isClassSegment then
      some ⟨⟨segments.dropLast.map String.ofList, absolute⟩, String.ofList last⟩
    else none

/-- Reads `Foo`, `::Foo::Bar`, `Foo::_Each` or `::Foo::t`. -/
def parse? (text : String) : Option TypeName :=
  match text.toList with
  | ':' :: ':' :: rest => ofSegments? true (splitSegments rest)
  | chars => ofSegments? false (splitSegments chars)

end TypeName

end RubySig
