import RubySig.Bundled
import RubySig.Declaration.Encode
import RubySig.Environment.Merge
import RubySig.Parser.File
import RubySig.Validation

/-!
# Sessions

* `SessionSetup`: which signatures to load, and with which limits.
* `SessionSetup.checkSources`: what each source gets wrong on its own.
* `SessionSetup.build`: the `Session` of all sources together.
* `Session.validate`, `Session.constant?`, `Session.entities`, `Session.dump`: questions
  that a session answers.
-/

namespace RubySig

/-! ## Setting up -/

/-- Which signatures to load. -/
structure SessionSetup where
  /-- Whether to load the built-in classes. -/
  stdlib : Bool
  /-- The bundled libraries to load, in order, each once. -/
  libraries : List String
  /-- The caller's own sources. -/
  sources : List Source
  /-- The budgets for each source. -/
  limits : Limits
  deriving Repr, Inhabited

namespace SessionSetup

/-- The limits of a session that asks for no others. -/
def defaultLimits : Limits := ⟨some 1000000, some 128⟩

/-- The built-in classes alone. -/
def default : SessionSetup := ⟨true, [], [], defaultLimits⟩

/-- Asks for a library, unless it is asked for already. -/
def library (setup : SessionSetup) (name : String) : SessionSetup :=
  if setup.libraries.contains name then setup
  else { setup with libraries := setup.libraries ++ [name] }

/-- Adds a source. -/
def addSource (setup : SessionSetup) (source : Source) : SessionSetup :=
  { setup with sources := setup.sources ++ [source] }

/-- The files of several libraries as sources. The first library that does not exist is a
failure. -/
def librarySources : List String → Except Failure (List Source)
  | [] => .ok []
  | name :: rest =>
    match Bundled.library? name with
    | none => .error (.unknownLibrary name)
    | some files =>
      (librarySources rest).map fun others =>
        files.map (·.toSource (Bundled.libraryProvenance name)) ++ others

/-- All sources that are loaded, bundled ones first. -/
def sourceMap (setup : SessionSetup) : Except Failure SourceMap :=
  (librarySources setup.libraries).map fun libraries =>
    let core := if setup.stdlib then Bundled.core.map (·.toSource .stdlib) else []
    ⟨core ++ libraries ++ setup.sources⟩

end SessionSetup

/-! ## Reading all sources -/

/-- The declarations of numbered sources. -/
abbrev ParsedSources := List (SourceId × List Declaration)

/-- Reads sources in order, each with the full budgets. The first failure ends it; syntax
errors are collected. -/
def parseSources (limits : Limits) :
    List (SourceId × Source) → Except Failure (ParsedSources × List Diagnostic)
  | [] => .ok ([], [])
  | (id, source) :: rest =>
    match parseSource limits id source.content with
    | .error failure => .error failure
    | .ok (declarations, errors) =>
      (parseSources limits rest).map fun others =>
        ((id, declarations) :: others.1, errors ++ others.2)

/-! ## Checking sources one by one -/

mutual

/-- The singleton methods of interfaces in a declaration. -/
def interfaceSingletons (ns : Namespace) : EntityDecl → List Diagnostic
  | .klass d => classSingletons ns d
  | .module d => moduleSingletons ns d
  | .interface d => interfaceOwnSingletons ns d
  | .typeAlias _ => []
  | .constant _ => []

/-- The singleton methods of the interfaces in a class. -/
def classSingletons (ns : Namespace) : ClassDecl → List Diagnostic
  | ⟨name, _, _, members, _, _⟩ => memberSingletons (name.placedIn ns) false members

/-- The singleton methods of the interfaces in a module. -/
def moduleSingletons (ns : Namespace) : ModuleDecl → List Diagnostic
  | ⟨name, _, _, members, _, _⟩ => memberSingletons (name.placedIn ns) false members

/-- The singleton methods of an interface. -/
def interfaceOwnSingletons (ns : Namespace) : InterfaceDecl → List Diagnostic
  | ⟨name, _, members, _, _⟩ => memberSingletons (name.placedIn ns) true members

/-- The singleton methods in a body, if it is that of an interface, and those of the
interfaces nested in it. -/
def memberSingletons (owner : TypeName) (isInterface : Bool) : List Member → List Diagnostic
  | [] => []
  | .nested d :: rest =>
    interfaceSingletons owner.toNamespace d ++ memberSingletons owner isInterface rest
  | .method m :: rest =>
    (if isInterface then singletonMethodFindings owner (.method m) else []) ++
      memberSingletons owner isInterface rest
  | .attr _ :: rest => memberSingletons owner isInterface rest
  | .methodAlias _ :: rest => memberSingletons owner isInterface rest
  | .mixin _ :: rest => memberSingletons owner isInterface rest
  | .marker _ :: rest => memberSingletons owner isInterface rest
  | .typedVar _ :: rest => memberSingletons owner isInterface rest

end

/-- The singleton methods of the interfaces in a file. -/
def fileSingletons (declarations : List Declaration) : List Diagnostic :=
  declarations.flatMap fun
    | .entity d => interfaceSingletons .root d
    | .global _ => []

/-! ## Sessions -/

/-- A loaded set of signatures. -/
structure Session where
  /-- The sources. -/
  sources : SourceMap
  /-- Their declarations. -/
  declarations : ParsedSources
  /-- The declarations merged. -/
  env : Environment
  /-- The conflicts between them, sorted. -/
  conflicts : List Diagnostic
  deriving Repr, Inhabited

namespace SessionSetup

/-- What each source gets wrong on its own, sorted: syntax errors and singleton methods in
interfaces. -/
def checkSources (setup : SessionSetup) : Except Failure (SourceMap × List Diagnostic) := do
  let sources ← setup.sourceMap
  let (parsed, errors) ← parseSources setup.limits sources.numbered
  let singletons := parsed.flatMap fun p => fileSingletons p.2
  return (sources, Diagnostic.sort sources (errors ++ singletons))

/-- Loads all sources. A syntax error in any of them is a failure. -/
def build (setup : SessionSetup) : Except Failure Session := do
  let sources ← setup.sourceMap
  let (parsed, errors) ← parseSources setup.limits sources.numbered
  if errors.isEmpty then
    let (env, conflicts) := mergeSources parsed
    return ⟨sources, parsed, env, Diagnostic.sort sources conflicts⟩
  else throw (.parseFailed (Diagnostic.sort sources errors))

end SessionSetup

namespace Session

/-- Everything that is wrong in the loaded set, sorted. -/
def validate (s : Session) : List Diagnostic :=
  Diagnostic.sort s.sources (s.conflicts ++ s.env.findings)

/-- The type of a constant as seen from some scopes: that of a class or module is its
`singleton`, that of a declared constant is the one written, with its names resolved. -/
def constant? (s : Session) (name : TypeName) (nesting : Nesting) : Option TypeExpr :=
  match s.env.resolve? name nesting .asConstant with
  | none => none
  | some resolved =>
    match s.env.get? resolved with
    | none => none
    | some e =>
      match e.primary.decl with
      | .constant d => some (s.env.absolutize e.primary.nesting d.type)
      | .klass _ | .module _ => some (.singleton ⟨resolved, e.nameSpan⟩)
      | .interface _ | .typeAlias _ => none

/-- The entities in load order, all or those of one kind. -/
def entities (s : Session) (kind : Option EntityKind) : List Entry :=
  s.env.entities.filter fun e => kind.all fun k => e.kind == k

/-- The declarations of all sources as indented JSON. -/
def dump (s : Session) : String :=
  (Json.array ((s.declarations.flatMap (·.2)).map Declaration.toJson)).pretty 0

end Session

end RubySig
