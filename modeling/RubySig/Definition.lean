import RubySig.Ancestry.Table

/-!
# Method tables

The methods of a side of an entity come from its chain, read from the farthest ancestor to
the nearest, so a nearer ancestor overwrites what a farther one defines. Of one ancestor
the methods and attributes are taken first, and then the aliases, each looked up in the
table as it stands.

* `MethodDefinition`: a method with the signature that it has here.
* `MethodTable.overlay`: what one ancestor adds.
* `Environment.definition`: the methods of a side of an entity.
-/

namespace RubySig

/-! ## Methods -/

/-- A method of a side of an entity. -/
structure MethodDefinition where
  /-- The method name. -/
  name : String
  /-- The ancestor whose member gives the method this name. -/
  owner : TypeName
  /-- The ancestor that has the method itself; for an alias, that of the method meant. -/
  implementation : TypeName
  /-- Who may call it. -/
  accessibility : Visibility
  /-- The overloads, with resolved names and in terms of the entity's type parameters. -/
  overloads : List MethodType
  /-- Where the member is written. -/
  span : Span
  deriving Repr, Inhabited

/-- An alias for a method that is not in the table when the alias is read. -/
structure MissingAlias where
  /-- The ancestor that writes the alias. -/
  owner : TypeName
  /-- The name that is missing in the table. -/
  newName : String
  /-- The method that was looked up. -/
  oldName : String
  /-- Where the alias is written. -/
  span : Span
  deriving Repr, Inhabited

/-- The accessibility of a method on a side, given that of its section. There is none if
the method does not belong to the side. -/
def MethodMember.accessibility? (m : MethodMember) (context : Context) (sect : Visibility) :
    Option Visibility :=
  match m.kind, context with
  | .onInstance, .onInstance => some (m.visibility.getD sect)
  | .onSingleton, .onSingleton => some (m.visibility.getD sect)
  | .onBoth, .onInstance => some .privateAccess
  | .onBoth, .onSingleton => some .publicAccess
  | .onInstance, .onSingleton => none
  | .onSingleton, .onInstance => none

namespace AttributeMember

/-- The reader `name: () -> T`. -/
def readerType (a : AttributeMember) : MethodType := ⟨[], .returning a.type, none, a.span⟩

/-- The writer `name=: (T name) -> T`. -/
def writerType (a : AttributeMember) : MethodType :=
  ⟨[], ⟨[⟨.required, a.type, some a.name⟩], a.type⟩, none, a.span⟩

/-- The name of the writer. -/
def writerName (a : AttributeMember) : String := a.name ++ "="

/-- The accessor methods of an attribute. -/
def accessors (a : AttributeMember) : List (String × MethodType) :=
  (if a.kind.hasReader then [(a.name, a.readerType)] else []) ++
    (if a.kind.hasWriter then [(a.writerName, a.writerType)] else [])

end AttributeMember

/-! ## What an ancestor contributes -/

/-- Whether a side is that of the class or module object. -/
def Context.isSingleton : Context → Bool
  | onInstance => false
  | onSingleton => true

/-- A member's overload as it appears in a chain: names are resolved, the type parameters of
the fragment become those of the entity, and these become what they stand for. -/
def prepareOverload (env : Environment) (entry : AncestorEntry) (canonical : List String) (b : Body)
    (m : MethodType) : MethodType :=
  entry.substitution.applyMethod
    ((renameParams canonical b.typeParams).applyMethod (env.absolutizeMethod b.nesting m))

/-- The methods and accessors in some members of a body. The visibility of the section is
that of the last marker. -/
def contributedFrom (entry : AncestorEntry) (prepare : MethodType → MethodType)
    (sect : Visibility) : List Member → List MethodDefinition
  | [] => []
  | .marker m :: rest => contributedFrom entry prepare m.visibility rest
  | .method m :: rest =>
    match m.accessibility? entry.context sect with
    | none => contributedFrom entry prepare sect rest
    | some accessibility =>
      ⟨m.name, entry.name, entry.name, accessibility, m.overloads.map prepare, m.span⟩ ::
        contributedFrom entry prepare sect rest
  | .attr a :: rest =>
    (if a.singleton = entry.context.isSingleton then
        a.accessors.map fun p =>
          ⟨p.1, entry.name, entry.name, a.visibility.getD sect, [prepare p.2], a.span⟩
      else []) ++ contributedFrom entry prepare sect rest
  | .methodAlias _ :: rest => contributedFrom entry prepare sect rest
  | .mixin _ :: rest => contributedFrom entry prepare sect rest
  | .typedVar _ :: rest => contributedFrom entry prepare sect rest
  | .nested _ :: rest => contributedFrom entry prepare sect rest

/-- The methods and accessors that an ancestor writes on its side. -/
def contributed (env : Environment) (entry : AncestorEntry) (declared : Entry) :
    List MethodDefinition :=
  declared.bodies.flatMap fun b =>
    contributedFrom entry (prepareOverload env entry declared.paramNames b) .publicAccess b.members

/-- The aliases that an ancestor writes on its side. -/
def contributedAliases (entry : AncestorEntry) (declared : Entry) : List AliasMember :=
  declared.bodies.flatMap fun b => b.members.filterMap fun
    | .methodAlias a => if a.singleton = entry.context.isSingleton then some a else none
    | _ => none

/-! ## Tables -/

/-- A method table under construction. -/
structure MethodTable where
  /-- The methods by name. -/
  methods : OrderedMap String MethodDefinition
  /-- The aliases that stand for no method, in the order in which they were read. -/
  missing : List MissingAlias
  deriving Repr, Inhabited

namespace MethodTable

/-- No methods. -/
def empty : MethodTable := ⟨.empty, []⟩

/-- Writes a method. -/
def define (t : MethodTable) (d : MethodDefinition) : MethodTable :=
  { t with methods := t.methods.insert d.name d }

/-- Gives the method that an alias stands for a second name. -/
def addAlias (owner : TypeName) (t : MethodTable) (a : AliasMember) : MethodTable :=
  match t.methods.get? a.oldName with
  | none => { t with missing := t.missing ++ [⟨owner, a.newName, a.oldName, a.span⟩] }
  | some target =>
    t.define ⟨a.newName, owner, target.implementation, target.accessibility, target.overloads,
      a.span⟩

/-- Adds what one ancestor contributes. -/
def overlay (env : Environment) (t : MethodTable) (entry : AncestorEntry) : MethodTable :=
  match env.get? entry.name with
  | none => t
  | some declared =>
    (contributedAliases entry declared).foldl (addAlias entry.name)
      ((contributed env entry declared).foldl define t)

/-- The table of a chain. -/
def ofEntries (env : Environment) (entries : List AncestorEntry) : MethodTable :=
  entries.reverse.foldl (overlay env) empty

/-- The methods sorted by name. -/
def sorted (t : MethodTable) : List MethodDefinition :=
  t.methods.values.mergeSort fun a b => a.name ≤ b.name

end MethodTable

/-! ## Definitions -/

/-- The methods of a side of an entity. -/
structure Definition where
  /-- The absolute name of the entity. -/
  name : TypeName
  /-- The side. -/
  context : Context
  /-- The chain that the methods come from. -/
  ancestors : Chain
  /-- The methods, sorted by name. -/
  methods : List MethodDefinition
  /-- The aliases that stand for no method. -/
  missingAliases : List MissingAlias
  deriving Repr, Inhabited

/-- The method with a name. -/
def Definition.method? (d : Definition) (name : String) : Option MethodDefinition :=
  d.methods.find? fun m => m.name == name

/-- The methods that a chain gives. -/
def Environment.definitionOf (env : Environment) (chain : Chain) : Definition :=
  let table := MethodTable.ofEntries env chain.entries
  ⟨chain.name, chain.context, chain, table.sorted, table.missing⟩

/-- The methods of a side of an entity. -/
def Environment.definition (env : Environment) (key : ChainKey) : Except Failure Definition :=
  (env.ancestors key).map env.definitionOf

end RubySig
