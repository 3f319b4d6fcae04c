import RubySig.Definition

/-!
# Validation

Checks every entity and every reference that it makes, and collects what is wrong:

* the enclosing names of a declared name are classes or modules;
* every named type, `singleton` operand, superclass and mixin target is declared;
* the number of arguments is that of the type parameters;
* a superclass is a class, and a mixin target is of a kind that the directive allows;
* an interface has no singleton methods;
* no method is defined twice, and every alias stands for a method;
* no entity is among its own ancestors.

The main definition is `Environment.findings`, the diagnostics in the order in which they
are found, each kind once at each place.
-/

namespace RubySig

namespace Environment

variable (env : Environment)

/-! ## References -/

/-- A name that denotes nothing. -/
def unresolved (missing : TypeName) (span : Span) : List Diagnostic :=
  [⟨.noTypeFound missing, span⟩]

/-- The number of arguments has to be that of the type parameters. -/
def arityFindings (resolved : TypeName) (type : NamedType) : List Diagnostic :=
  let expected := (env.paramsOf resolved).length
  if expected = type.args.length then []
  else [⟨.arityMismatch resolved expected type.args.length, type.span⟩]

/-- One reference. -/
def referenceFindings (nesting : Nesting) : Reference → List Diagnostic
  | .named type =>
    match env.resolve type.name nesting .asType with
    | .ok resolved => env.arityFindings resolved type
    | .error missing => unresolved missing type.span
  | .singleton type =>
    match env.resolve type.name nesting .asNamespace with
    | .ok _ => []
    | .error missing => unresolved missing type.span

/-- Several references in the same scopes. -/
def referencesFindings (nesting : Nesting) (references : List Reference) : List Diagnostic :=
  references.flatMap (env.referenceFindings nesting)

/-- A superclass and its arguments. -/
def superClassFindings (name : TypeName) (nesting : Nesting) (type : NamedType) : List Diagnostic :=
  (match env.resolve type.name nesting .asType with
    | .error missing => unresolved missing type.span
    | .ok resolved =>
      if env.isClass resolved then env.arityFindings resolved type
      else [⟨.invalidSuperclass name resolved, type.span⟩]) ++
    env.referencesFindings nesting type.argReferences

/-- A mixin target and its arguments. -/
def mixinFindings (owner : Entry) (nesting : Nesting) (m : Mixin) : List Diagnostic :=
  (match env.resolve m.target.name nesting .asType with
    | .error missing => unresolved missing m.target.span
    | .ok resolved =>
      if ((env.kind? resolved).map (mixinAllowed owner.kind m.kind)).getD true then
        env.arityFindings resolved m.target
      else [⟨.invalidMixinTarget owner.name resolved m.kind, m.target.span⟩]) ++
    env.referencesFindings nesting m.target.argReferences

/-! ## Headers -/

/-- The outermost enclosing name that is not a class or module. -/
def namespaceFindings (e : Entry) : List Diagnostic :=
  match e.name.enclosing.find? fun n => !env.isNamespace n with
  | none => []
  | some missing => unresolved missing e.nameSpan

/-- What a fragment writes outside of its body. -/
def headerFindings (e : Entry) (f : Fragment EntityDecl) : List Diagnostic :=
  env.referencesFindings f.nesting (referencesOfTypeParams f.decl.typeParams) ++
    match f.decl with
    | .klass d =>
      (d.superClass.map (env.superClassFindings e.name f.nesting)).getD []
    | .module d => env.referencesFindings f.nesting (d.selfTypes.flatMap NamedType.references)
    | .interface _ => []
    | .typeAlias d => env.referencesFindings f.nesting d.type.references
    | .constant d => env.referencesFindings f.nesting d.type.references

/-! ## Bodies -/

/-- The references that a member makes, and its target if it is a mixin. -/
def memberFindings (owner : Entry) (nesting : Nesting) : Member → List Diagnostic
  | .method m => env.referencesFindings nesting (m.overloads.flatMap MethodType.references)
  | .attr a => env.referencesFindings nesting a.type.references
  | .typedVar v => env.referencesFindings nesting v.type.references
  | .mixin m => env.mixinFindings owner nesting m
  | .methodAlias _ | .marker _ | .nested _ => []

end Environment

/-- A singleton method in an interface of the given name. -/
def singletonMethodFindings (interface : TypeName) : Member → List Diagnostic
  | .method m =>
    if m.kind.hasSingletonSide then [⟨.interfaceSingletonMethod interface m.name, m.span⟩] else []
  | _ => []

namespace Environment

variable (env : Environment)

/-- What the bodies of an entity write. -/
def bodyFindings (e : Entry) : List Diagnostic :=
  e.bodies.flatMap fun b => b.members.flatMap fun m =>
    (if e.kind = .interface then singletonMethodFindings e.name m else []) ++
      env.memberFindings e b.nesting m

end Environment

/-! ## Methods that are defined twice -/

/-- A method name that a member defines, with the sides on which it does. -/
structure MethodSite where
  /-- The method name. -/
  name : String
  /-- Whether instances get the method. -/
  onInstance : Bool
  /-- Whether the class or module object gets the method. -/
  onSingleton : Bool
  /-- Where the member is written. -/
  span : Span
  deriving Repr, Inhabited, DecidableEq

/-- The method names that a member defines. -/
def Member.methodSites : Member → List MethodSite
  | .method m => [⟨m.name, m.kind.hasInstanceSide, m.kind.hasSingletonSide, m.span⟩]
  | .attr a => a.accessors.map fun p => ⟨p.1, !a.singleton, a.singleton, a.span⟩
  | _ => []

/-- Whether two sites define one method on one side. -/
def MethodSite.collides (a b : MethodSite) : Bool :=
  a.name == b.name && (a.onInstance && b.onInstance || a.onSingleton && b.onSingleton)

/-- The sites that collide with an earlier one; `seen` lists the earlier ones. -/
def duplicatesFrom (seen : List MethodSite) : List MethodSite → List MethodSite
  | [] => []
  | site :: rest =>
    if seen.any site.collides then site :: duplicatesFrom (site :: seen) rest
    else duplicatesFrom (site :: seen) rest

/-- The method names that an entity defines, in the order in which they are written. -/
def Entry.methodSites (e : Entry) : List MethodSite :=
  e.bodies.flatMap fun b => b.members.flatMap Member.methodSites

/-- The methods that an entity defines more than once. -/
def duplicateFindings (e : Entry) : List Diagnostic :=
  (duplicatesFrom [] e.methodSites).map fun site =>
    ⟨.duplicatedMethodDefinition e.name site.name, site.span⟩

namespace Environment

variable (env : Environment)

/-! ## Ancestors and aliases -/

/-- The sides on which an entity of a kind has methods. -/
def sides : EntityKind → List Context
  | .klass | .module => [.onInstance, .onSingleton]
  | .interface => [.onInstance]
  | .typeAlias | .constant => []

/-- The keys of all sides that have methods. -/
def sideKeys : List ChainKey := env.entities.flatMap fun e => (sides e.kind).map (⟨e.name, ·⟩)

/-- The chains of all sides that have methods, found in one go. -/
def sideChains : OrderedMap ChainKey (Except Failure Chain) :=
  .ofList (env.sideKeys.zip (AncestryTable.askAll env .empty env.sideKeys))

/-- The issue that keeps a side from having methods, or its own aliases that stand for
nothing. -/
def sideFindings (e : Entry) : Except Failure Chain → List Diagnostic
  | .ok chain =>
    ((env.definitionOf chain).missingAliases.filter fun a => a.owner = e.name).map fun a =>
      ⟨.unknownMethodAlias a.owner a.oldName, a.span⟩
  | .error (.diagnostic d) => [d]
  | .error _ => []

/-- `sideFindings` for all sides, of which the chains are given. -/
def ancestryFindings (chains : OrderedMap ChainKey (Except Failure Chain)) (e : Entry) :
    List Diagnostic :=
  (sides e.kind).flatMap fun context =>
    ((chains.get? ⟨e.name, context⟩).map (env.sideFindings e)).getD []

/-! ## Everything -/

/-- All findings about one entity. -/
def entryFindings (chains : OrderedMap ChainKey (Except Failure Chain)) (e : Entry) :
    List Diagnostic :=
  env.namespaceFindings e ++ e.fragments.flatMap (env.headerFindings e) ++ env.bodyFindings e ++
    duplicateFindings e ++ env.ancestryFindings chains e

/-- The findings about a global variable. -/
def globalFindings (f : Fragment GlobalDecl) : List Diagnostic :=
  env.referencesFindings f.nesting f.decl.type.references

/-- All findings, each kind once at each place. -/
def findings : List Diagnostic :=
  let chains := env.sideChains
  Diagnostic.dedupe
    (env.entities.flatMap (env.entryFindings chains) ++
      env.globals.values.flatMap env.globalFindings)

end Environment

end RubySig
