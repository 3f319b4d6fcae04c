import RubySig.Diagnostic
import RubySig.Resolution
import RubySig.Substitution

/-!
# Ancestor chains

The chain of a class on its instance side: the prepended modules in declared order, the
class itself, the included modules with the last one nearest to the class, and the chain
of the superclass. A module has no superclass; an interface has only the interfaces that
it includes. On the singleton side: the class or module object, the extended modules, and
the singleton chain of the superclass; the last class goes on with the instance chain of
`::Class`, a module with that of `::Module`.

Each chain is built once for the entity's own type parameters. Where it becomes part of
another chain, the arguments written there are put into it.

* `Environment.blueprint`: the pieces of a chain in terms of other chains.
* `Blueprint.assemble`: the chain made of these pieces.
* `Environment.dependencies`: the chains that a chain is made of.
* `Environment.chain`: the chain by plain recursion.
-/

namespace RubySig

/-! ## Chains -/

/-- A side of a class or module. -/
inductive Context
  /-- Its instances. -/
  | onInstance
  /-- The class or module object itself. -/
  | onSingleton
  deriving Repr, Inhabited, DecidableEq

/-- The word for a side. -/
def Context.render : Context → String
  | onInstance => "instance"
  | onSingleton => "singleton"

/-- How an entry came into a chain. -/
inductive Origin
  /-- It is the entity whose chain it is. -/
  | own
  | superclass
  | included
  | extended
  | prepended
  /-- It is an interface that was included. -/
  | interfaceIncluded
  /-- It comes from `::Class` or `::Module` at the end of a singleton chain. -/
  | metaclass
  deriving Repr, Inhabited, DecidableEq

/-- The name of an origin in machine-readable output. -/
def Origin.label : Origin → String
  | own => "Own"
  | superclass => "Superclass"
  | included => "Include"
  | extended => "Extend"
  | prepended => "Prepend"
  | interfaceIncluded => "InterfaceInclude"
  | metaclass => "Metaclass"

/-- A side of an entity. -/
structure ChainKey where
  /-- The absolute name of the entity. -/
  name : TypeName
  /-- The side. -/
  context : Context
  deriving Repr, Inhabited, DecidableEq

/-- One ancestor. -/
structure AncestorEntry where
  /-- Its absolute name. -/
  name : TypeName
  /-- Its side. -/
  context : Context
  /-- What its own type parameters stand for in this chain. -/
  substitution : Substitution
  /-- How it came into the chain. -/
  origin : Origin
  deriving Repr, Inhabited

namespace AncestorEntry

/-- Name and side. -/
def key (e : AncestorEntry) : ChainKey := ⟨e.name, e.context⟩

/-- `::Set[A]`, or `singleton(::Set)` on the singleton side. -/
def render (e : AncestorEntry) : String :=
  match e.context with
  | .onSingleton => "singleton(" ++ e.name.render ++ ")"
  | .onInstance =>
    if e.substitution.isEmpty then e.name.render
    else e.name.render ++ "[" ++ commaSeparated (e.substitution.values.map TypeExpr.render) ++ "]"

end AncestorEntry

/-- The ancestors of a side of an entity, nearest first. -/
structure Chain where
  /-- The absolute name of the entity. -/
  name : TypeName
  /-- The side. -/
  context : Context
  /-- The ancestors. -/
  entries : List AncestorEntry
  deriving Repr, Inhabited

/-- Keeps the first of several entries with one key; `seen` lists the keys already kept. -/
def dedupeEntries (seen : List ChainKey) : List AncestorEntry → List AncestorEntry
  | [] => []
  | e :: rest =>
    if e.key ∈ seen then dedupeEntries seen rest else e :: dedupeEntries (e.key :: seen) rest

/-! ## Sites -/

/-- Whether a directive in an entity of kind `owner` may name a target of kind `target`. -/
def mixinAllowed (owner : EntityKind) (directive : MixinKind) (target : EntityKind) : Bool :=
  match owner, directive with
  | .interface, .included => target == .interface
  | .interface, _ => false
  | _, .included | _, .extended => target == .module || target == .interface
  | _, .prepended => target == .module

/-- The origin of what a directive mixes in. -/
def mixinOrigin (directive : MixinKind) (target : EntityKind) : Origin :=
  match directive with
  | .included => if target == .interface then .interfaceIncluded else .included
  | .extended => .extended
  | .prepended => .prepended

/-- A place where another chain becomes part of a chain. -/
structure Splice where
  /-- The chain that is put in. -/
  key : ChainKey
  /-- What the type parameters of its entity stand for here. -/
  binding : Substitution
  /-- The origin of the entity itself. -/
  origin : Origin
  deriving Repr, Inhabited

/-- A chain as part of another one: the arguments are put into it, and the entity itself
gets the origin of the place. -/
def Splice.expand (s : Splice) (chain : Chain) : List AncestorEntry :=
  chain.entries.map fun e =>
    { e with
      substitution := s.binding.compose e.substitution
      origin := if e.origin = .own then s.origin else e.origin }

/-- Maps the type parameters as a fragment spells them to those of the entity. -/
def renameParams (canonical : List String) (params : List TypeParam) : Substitution :=
  if params.isEmpty then .empty
  else (Substitution.identity canonical).rebind (typeParamNames params)

/-- The directives of one kind in a body. -/
def Body.mixins (b : Body) (directive : MixinKind) : List Mixin :=
  b.members.filterMap fun
    | .mixin m => if m.kind = directive then some m else none
    | _ => none

namespace Environment

variable (env : Environment)

/-- Parameters of a target stand for arguments. -/
def bindArgs (target : TypeName) (args : List TypeExpr) : Substitution :=
  .bind (typeParamNames (env.paramsOf target)) args

/-- Arguments as they are written in a fragment, with resolved names and in terms of the
entity's own type parameters. -/
def siteArgs (e : Entry) (params : List TypeParam) (nesting : Nesting) (args : List TypeExpr) :
    List TypeExpr :=
  args.map fun a => (renameParams e.paramNames params).apply (env.absolutize nesting a)

/-- What a directive puts into a chain. A target that does not resolve or is of the wrong
kind is left out. -/
def mixinSplice? (e : Entry) (b : Body) (m : Mixin) : Option Splice :=
  match env.resolve? m.target.name b.nesting .asType with
  | none => none
  | some target =>
    match env.kind? target with
    | none => none
    | some kind =>
      if mixinAllowed e.kind m.kind kind then
        some ⟨⟨target, .onInstance⟩,
          env.bindArgs target (env.siteArgs e b.typeParams b.nesting m.target.args),
          mixinOrigin m.kind kind⟩
      else none

/-- What the directives of one kind put into a chain, in declared order. -/
def mixinSplices (e : Entry) (directive : MixinKind) : List Splice :=
  e.bodies.flatMap fun b => (b.mixins directive).filterMap (env.mixinSplice? e b)

/-- The superclass that a class writes, if it resolves to a class, with its arguments. -/
def writtenSuperClass? (e : Entry) : Option (TypeName × List TypeExpr) :=
  match e.superClass? with
  | none => none
  | some (s, f) =>
    match env.resolve? s.name f.nesting .asType with
    | none => none
    | some name =>
      if env.isClass name then
        some (name, env.siteArgs e f.decl.typeParams f.nesting s.args)
      else none

/-- The class from which all others inherit. -/
def objectName : TypeName := .topLevel "Object"

/-- The class above it. -/
def basicObjectName : TypeName := .topLevel "BasicObject"

/-- The superclass of a class that writes none. -/
def defaultSuperClass? (name : TypeName) : Option (TypeName × List TypeExpr) :=
  if name = objectName || name = basicObjectName || !env.isClass objectName then none
  else some (objectName, [])

/-- The superclass of a class with its arguments. -/
def superClass? (e : Entry) : Option (TypeName × List TypeExpr) :=
  (env.writtenSuperClass? e).or (env.defaultSuperClass? e.name)

/-- The instance chain of `::Class` or `::Module`, if that class is declared. -/
def metaclassSplices (name : String) : List Splice :=
  if env.isClass (.topLevel name) then
    [⟨⟨.topLevel name, .onInstance⟩, .empty, .metaclass⟩]
  else []

/-- The superclass chain on the instance side. -/
def superClassSplices (e : Entry) : List Splice :=
  match env.superClass? e with
  | none => []
  | some (name, args) => [⟨⟨name, .onInstance⟩, env.bindArgs name args, .superclass⟩]

/-- The superclass chain on the singleton side, or the chain of `::Class`. -/
def singletonSuperSplices (e : Entry) : List Splice :=
  match env.superClass? e with
  | none => env.metaclassSplices "Class"
  | some (name, _) => [⟨⟨name, .onSingleton⟩, .empty, .superclass⟩]

end Environment

/-! ## Blueprints -/

/-- The pieces of a chain. -/
structure Blueprint where
  /-- What stands in front of the entity, in order. -/
  front : List Splice
  /-- The entity itself. -/
  own : AncestorEntry
  /-- What stands behind it; the last one is nearest. -/
  behind : List Splice
  /-- The end of the chain. -/
  tail : List Splice
  deriving Repr, Inhabited

namespace Blueprint

/-- The chains that are needed, in the order in which they are asked for. -/
def keys (b : Blueprint) : List ChainKey := (b.front ++ b.behind ++ b.tail).map (·.key)

/-- Asks for the chains of some splices and expands them. -/
def expandAll {m : Type → Type} [Monad m] (ask : ChainKey → m Chain) :
    List Splice → m (List (List AncestorEntry))
  | [] => pure []
  | s :: rest => do
    let chain ← ask s.key
    return s.expand chain :: (← expandAll ask rest)

/-- Asks for all chains that are needed and puts the pieces together. -/
def assemble {m : Type → Type} [Monad m] (b : Blueprint) (ask : ChainKey → m Chain) :
    m (List AncestorEntry) := do
  let front ← expandAll ask b.front
  let behind ← expandAll ask b.behind
  let tail ← expandAll ask b.tail
  return dedupeEntries [] (front.flatten ++ b.own :: (behind.reverse.flatten ++ tail.flatten))

end Blueprint

/-- The entry of an entity in its own chain. -/
def ownEntry (e : Entry) (context : Context) : AncestorEntry :=
  match context with
  | .onInstance => ⟨e.name, context, .identity e.paramNames, .own⟩
  | .onSingleton => ⟨e.name, context, .empty, .own⟩

namespace Environment

variable (env : Environment)

/-- The pieces of the chain of a side of an entity. Aliases and constants have no chain, and
an interface has none on its singleton side. -/
def entryBlueprint (e : Entry) (context : Context) : Except Failure Blueprint :=
  match e.kind, context with
  | .klass, .onInstance =>
    .ok ⟨env.mixinSplices e .prepended, ownEntry e context, env.mixinSplices e .included,
      env.superClassSplices e⟩
  | .klass, .onSingleton =>
    .ok ⟨[], ownEntry e context, env.mixinSplices e .extended, env.singletonSuperSplices e⟩
  | .module, .onInstance =>
    .ok ⟨env.mixinSplices e .prepended, ownEntry e context, env.mixinSplices e .included, []⟩
  | .module, .onSingleton =>
    .ok ⟨[], ownEntry e context, env.mixinSplices e .extended, env.metaclassSplices "Module"⟩
  | .interface, .onInstance =>
    .ok ⟨[], ownEntry e context, env.mixinSplices e .included, []⟩
  | .interface, .onSingleton => .error (.diagnostic ⟨.noSingletonChain e.name, e.nameSpan⟩)
  | .typeAlias, _ => .error (.unknownType e.name)
  | .constant, _ => .error (.unknownType e.name)

/-- The pieces of a chain. -/
def blueprint (key : ChainKey) : Except Failure Blueprint :=
  match env.get? key.name with
  | none => .error (.unknownType key.name)
  | some e => env.entryBlueprint e key.context

/-- The chains that a chain is made of, in the order in which they are asked for. -/
def dependencies (key : ChainKey) : List ChainKey :=
  match env.blueprint key with
  | .ok b => b.keys
  | .error _ => []

/-- The failure for a chain that would be part of itself: the names from its first
occurrence on the path, and the name again. -/
def cycle (path : List ChainKey) (revisited : ChainKey) : Failure :=
  match env.get? revisited.name with
  | none => .unknownType revisited.name
  | some e =>
    let around := path.dropWhile (· != revisited)
    .diagnostic ⟨.cyclicAncestor (around.map (·.name) ++ [revisited.name]), e.nameSpan⟩

/-! ## Chains by recursion -/

/-- All keys of declared entities. -/
def allKeys : List ChainKey :=
  env.names.flatMap fun n => [⟨n, .onInstance⟩, ⟨n, .onSingleton⟩]

/-- The declared keys that are not on a path. They bound the depth of the recursion. -/
def keysOff (path : List ChainKey) : List ChainKey := env.allKeys.filter fun k => !path.contains k

end Environment

/-! ## The recursion ends -/

namespace Environment

variable (env : Environment)

theorem mem_allKeys {key : ChainKey} {e : Entry} (h : env.get? key.name = some e) :
    key ∈ env.allKeys := by
  have hn : key.name ∈ env.names := OrderedMap.mem_keys_of_get? h
  refine List.mem_flatMap.2 ⟨key.name, hn, ?_⟩
  obtain ⟨name, context⟩ := key
  cases context <;> simp

/-- One more key on the path leaves fewer off it. -/
theorem keysOff_append_lt {path : List ChainKey} {key : ChainKey} {e : Entry}
    (hpath : key ∉ path) (h : env.get? key.name = some e) :
    (env.keysOff (path ++ [key])).length < (env.keysOff path).length := by
  have hmem : key ∈ env.keysOff path := by
    simp [keysOff, env.mem_allKeys h, hpath]
  have hsub : env.keysOff (path ++ [key]) = (env.keysOff path).filter fun k => k != key := by
    simp only [keysOff, List.filter_filter]
    refine List.filter_congr fun k _ => ?_
    by_cases h1 : k ∈ path <;> by_cases h2 : k = key <;> simp [h1, h2, hpath]
  rw [hsub]
  refine List.length_filter_lt_length_iff_exists.2 ⟨key, hmem, by simp⟩

/-- The chain of a side of an entity. The path holds the chains that are under construction,
outermost first; asking for one of them is a cycle. -/
def chain (path : List ChainKey) (key : ChainKey) : Except Failure Chain :=
  if key ∈ path then .error (env.cycle path key)
  else
    match _ : env.get? key.name with
    | none => .error (.unknownType key.name)
    | some e => do
      let b ← env.entryBlueprint e key.context
      let entries ← b.assemble fun dependency => chain (path ++ [key]) dependency
      return ⟨key.name, key.context, entries⟩
  termination_by (env.keysOff path).length
  decreasing_by
    exact env.keysOff_append_lt (by assumption) (by assumption)

end Environment

end RubySig
