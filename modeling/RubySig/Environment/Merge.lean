import RubySig.Diagnostic
import RubySig.Resolution

/-!
# Merging declarations

* `placements`: every declaration of a source under its absolute name, nested ones right
  after the one around them.
* `Merge.insert`: adds one placement to an environment, or reports a conflict.
* `mergeSources`: the environment of several sources with all conflicts.

When all names are known, the superclasses of reopened classes are compared, and a
fragment without a parameter list gets to see the parameters of its entity.
-/

namespace RubySig

/-! ## Placements -/

/-- A declaration with its absolute name. -/
inductive Placement
  /-- A named entity. -/
  | entity (name : TypeName) (fragment : Fragment EntityDecl)
  /-- A global variable. -/
  | global (fragment : Fragment GlobalDecl)
  deriving Repr, Inhabited

mutual

/-- A declaration and those nested in it. A name is placed in the innermost scope. -/
def placeEntity (source : SourceId) (nesting : Nesting) : EntityDecl → List Placement
  | .klass d => placeClass source nesting d
  | .module d => placeModule source nesting d
  | .interface d =>
    [.entity (d.name.placedIn nesting.innermost) ⟨.interface d, nesting, source⟩]
  | .typeAlias d =>
    [.entity (d.name.placedIn nesting.innermost) ⟨.typeAlias d, nesting, source⟩]
  | .constant d =>
    [.entity (d.name.placedIn nesting.innermost) ⟨.constant d, nesting, source⟩]

/-- A class and the declarations in its body. -/
def placeClass (source : SourceId) (nesting : Nesting) : ClassDecl → List Placement
  | ⟨name, typeParams, superClass, members, nameSpan, span⟩ =>
    let placed := name.placedIn nesting.innermost
    .entity placed
        ⟨.klass ⟨name, typeParams, superClass, members, nameSpan, span⟩, nesting, source⟩ ::
      placeMembers source (nesting.enter placed.toNamespace) members

/-- A module and the declarations in its body. -/
def placeModule (source : SourceId) (nesting : Nesting) : ModuleDecl → List Placement
  | ⟨name, typeParams, selfTypes, members, nameSpan, span⟩ =>
    let placed := name.placedIn nesting.innermost
    .entity placed
        ⟨.module ⟨name, typeParams, selfTypes, members, nameSpan, span⟩, nesting, source⟩ ::
      placeMembers source (nesting.enter placed.toNamespace) members

/-- The declarations in a body. -/
def placeMembers (source : SourceId) (nesting : Nesting) : List Member → List Placement
  | [] => []
  | .nested d :: rest => placeEntity source nesting d ++ placeMembers source nesting rest
  | .method _ :: rest => placeMembers source nesting rest
  | .attr _ :: rest => placeMembers source nesting rest
  | .methodAlias _ :: rest => placeMembers source nesting rest
  | .mixin _ :: rest => placeMembers source nesting rest
  | .marker _ :: rest => placeMembers source nesting rest
  | .typedVar _ :: rest => placeMembers source nesting rest

end

/-- All declarations of a source, in the order in which they are inserted. -/
def placements (source : SourceId) (declarations : List Declaration) : List Placement :=
  declarations.flatMap fun
    | .entity d => placeEntity source .topLevel d
    | .global d => [.global ⟨d, .topLevel, source⟩]

/-! ## Inserting -/

/-- An environment under construction, with the conflicts found so far. -/
structure Merge where
  /-- The declarations accepted so far. -/
  env : Environment
  /-- The conflicts, in the order in which they were found. -/
  conflicts : List Diagnostic
  deriving Repr, Inhabited

namespace Merge

/-- Nothing has been inserted. -/
def empty : Merge := ⟨.empty, []⟩

/-- Reports a conflict. -/
def conflict (m : Merge) (name : TypeName) (reason : String) (span : Span) : Merge :=
  { m with conflicts := m.conflicts ++ [⟨.declarationConflict name reason, span⟩] }

/-- Writes an entry. -/
def write (m : Merge) (e : Entry) : Merge :=
  { m with env := { m.env with entries := m.env.entries.insert e.name e } }

/-- Whether declarations of a kind can be reopened. -/
def canReopen : EntityKind → Bool
  | .klass | .module => true
  | .interface | .typeAlias | .constant => false

/-- The number of type parameters that counts against a reopening. -/
def arityOf (decl : EntityDecl) : Nat := if canReopen decl.kind then decl.typeParams.length else 0

/-- Why a fragment does not fit to the entry that has its name. -/
def clash? (existing : Entry) (decl : EntityDecl) : Option String :=
  let before := existing.typeParams.length
  let here := arityOf decl
  if existing.kind != decl.kind then
    some ("both " ++ existing.kind.render ++ " and " ++ decl.kind.render)
  else if before > 0 && here > 0 && before != here then
    some (toString here ++ " type parameters here, " ++ toString before ++ " before")
  else if canReopen decl.kind then none
  else some (decl.kind.render ++ " declared more than once")

/-- Adds a fragment under its absolute name. -/
def insertEntity (m : Merge) (name : TypeName) (f : Fragment EntityDecl) : Merge :=
  match m.env.get? name with
  | none => m.write ⟨name, f, []⟩
  | some existing =>
    match clash? existing f.decl with
    | some reason => m.conflict name reason f.decl.nameSpan
    | none => m.write { existing with reopenings := existing.reopenings ++ [f] }

/-- Adds a global variable. -/
def insertGlobal (m : Merge) (f : Fragment GlobalDecl) : Merge :=
  if m.env.globals.contains f.decl.name then
    m.conflict (.bare f.decl.name) "global declared more than once" f.decl.span
  else { m with env := { m.env with globals := m.env.globals.insert f.decl.name f } }

/-- Adds one placement. -/
def insert (m : Merge) : Placement → Merge
  | .entity name f => m.insertEntity name f
  | .global f => m.insertGlobal f

/-- Adds placements in order. -/
def insertAll (m : Merge) (ps : List Placement) : Merge := ps.foldl insert m

end Merge

/-! ## Superclasses of reopened classes -/

/-- Compares the superclasses that fragments write with the first one that resolves. -/
def superClassConflicts (env : Environment) (name : TypeName) (first : Option TypeName) :
    List (Fragment EntityDecl) → List Diagnostic
  | [] => []
  | f :: rest =>
    let written := f.decl.superClass?.bind fun s =>
      (env.resolve? s.name f.nesting .asType).map fun resolved => (s, resolved)
    match written, first with
    | none, _ => superClassConflicts env name first rest
    | some (_, resolved), none => superClassConflicts env name (some resolved) rest
    | some (s, resolved), some expected =>
      if expected = resolved then superClassConflicts env name first rest
      else
        ⟨.declarationConflict name
            ("superclass `" ++ resolved.render ++ "` here, `" ++ expected.render ++ "` before"),
          s.span⟩ :: superClassConflicts env name first rest

/-- The conflicts between the superclasses of all classes. -/
def allSuperClassConflicts (env : Environment) : List Diagnostic :=
  env.entities.flatMap fun e =>
    if e.kind = .klass then superClassConflicts env e.name none e.fragments else []

/-! ## Fragments without a parameter list -/

/-- Reads a bare name without arguments as the type parameter of that name. -/
def adoptNode (params : List String) : TypeExpr → TypeExpr
  | .named ⟨name, args, span⟩ =>
    if args.isEmpty && name.isBare && params.contains name.name then .var name.name
    else .named ⟨name, args, span⟩
  | other => other

/-- Reads the names of type parameters in a declaration without a parameter list. -/
def adoptDecl (params : List String) : EntityDecl → EntityDecl
  | .klass d =>
    if d.typeParams.isEmpty then
      .klass { d with
        members := d.members.map (·.mapTypes (adoptNode params))
        superClass := d.superClass.map (·.mapArgs (adoptNode params)) }
    else .klass d
  | .module d =>
    if d.typeParams.isEmpty then
      .module { d with
        members := d.members.map (·.mapTypes (adoptNode params))
        selfTypes := d.selfTypes.map (·.mapArgs (adoptNode params)) }
    else .module d
  | .interface d => .interface d
  | .typeAlias d => .typeAlias d
  | .constant d => .constant d

/-- `adoptDecl` on a fragment. -/
def adoptFragment (params : List String) (f : Fragment EntityDecl) : Fragment EntityDecl :=
  { f with decl := adoptDecl params f.decl }

/-- Lets every fragment of an entity see the entity's type parameters. -/
def adoptEntry (e : Entry) : Entry :=
  if e.paramNames.isEmpty then e
  else
    { e with
      primary := adoptFragment e.paramNames e.primary
      reopenings := e.reopenings.map (adoptFragment e.paramNames) }

/-- `adoptEntry` on all entries. -/
def adoptTypeParams (env : Environment) : Environment :=
  { env with entries := env.entries.mapValues adoptEntry }

/-! ## Environments of sources -/

/-- The environment of several sources, in load order, and all conflicts. -/
def mergeSources (sources : List (SourceId × List Declaration)) : Environment × List Diagnostic :=
  let merged := Merge.empty.insertAll (sources.flatMap fun s => placements s.1 s.2)
  (adoptTypeParams merged.env, merged.conflicts ++ allSuperClassConflicts merged.env)

end RubySig
