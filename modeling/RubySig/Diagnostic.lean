import RubySig.Declaration
import RubySig.Parser.Cursor

/-!
# Diagnostics

* `Issue`: what is wrong, with the names that are involved. `Issue.message` words it.
* `Diagnostic`: an issue and its place.
* `Diagnostic.sort`, `Diagnostic.dedupe`: the order in which a batch is shown.
* `Diagnostic.renderAll`: a batch as plain lines.
* `Failure`: what makes a whole operation fail.
-/

namespace RubySig

/-! ## Issues -/

/-- The sort of an issue. The order is that of the stages that find them. -/
inductive IssueKind
  | syntaxError
  | declarationConflict
  | noTypeFound
  | arityMismatch
  | invalidSuperclass
  | invalidMixinTarget
  | interfaceSingletonMethod
  | duplicatedMethodDefinition
  | unknownMethodAlias
  | cyclicAncestor
  | noSingletonChain
  deriving Repr, Inhabited, DecidableEq

namespace IssueKind

/-- The name under which issues of a kind are listed. -/
def label : IssueKind → String
  | syntaxError => "SyntaxError"
  | declarationConflict => "DeclarationConflictError"
  | noTypeFound => "NoTypeFoundError"
  | arityMismatch => "ArityMismatchError"
  | invalidSuperclass => "InvalidSuperclassError"
  | invalidMixinTarget => "InvalidMixinTargetError"
  | interfaceSingletonMethod => "InterfaceSingletonMethodError"
  | duplicatedMethodDefinition => "DuplicatedMethodDefinitionError"
  | unknownMethodAlias => "UnknownMethodAliasError"
  | cyclicAncestor => "CyclicAncestorError"
  | noSingletonChain => "NoSingletonChainError"

/-- The place of a kind in the order of stages. -/
def rank (kind : IssueKind) : Nat := kind.ctorIdx

/-- Kinds in the order of stages. -/
def sort (kinds : List IssueKind) : List IssueKind := kinds.mergeSort fun a b => a.rank ≤ b.rank

end IssueKind

/-- Something that is wrong in a set of signatures. -/
inductive Issue
  /-- A text is not in the language. -/
  | syntaxError (message : String)
  /-- Two declarations of one name do not fit together. -/
  | declarationConflict (typeName : TypeName) (reason : String)
  /-- A name is not declared. -/
  | noTypeFound (typeName : TypeName)
  /-- A name has another number of arguments than type parameters. -/
  | arityMismatch (typeName : TypeName) (expected actual : Nat)
  /-- A superclass is not a class. -/
  | invalidSuperclass (typeName superClass : TypeName)
  /-- A directive cannot mix in its target. -/
  | invalidMixinTarget (typeName target : TypeName) (directive : MixinKind)
  /-- An interface declares a singleton method. -/
  | interfaceSingletonMethod (interface : TypeName) (method : String)
  /-- An entity defines a method twice. -/
  | duplicatedMethodDefinition (typeName : TypeName) (method : String)
  /-- An alias stands for a method that is not defined. -/
  | unknownMethodAlias (typeName : TypeName) (method : String)
  /-- An entity is among its own ancestors. -/
  | cyclicAncestor (path : List TypeName)
  /-- An interface has no singleton side. -/
  | noSingletonChain (typeName : TypeName)
  deriving Repr, Inhabited, DecidableEq

namespace Issue

/-- The sort of an issue. -/
def kind : Issue → IssueKind
  | syntaxError _ => .syntaxError
  | declarationConflict _ _ => .declarationConflict
  | noTypeFound _ => .noTypeFound
  | arityMismatch _ _ _ => .arityMismatch
  | invalidSuperclass _ _ => .invalidSuperclass
  | invalidMixinTarget _ _ _ => .invalidMixinTarget
  | interfaceSingletonMethod _ _ => .interfaceSingletonMethod
  | duplicatedMethodDefinition _ _ => .duplicatedMethodDefinition
  | unknownMethodAlias _ _ => .unknownMethodAlias
  | cyclicAncestor _ => .cyclicAncestor
  | noSingletonChain _ => .noSingletonChain

/-- A text between backticks. -/
def ticked (text : String) : String := "`" ++ text ++ "`"

/-- The wording of an issue. -/
def message : Issue → String
  | syntaxError message => message
  | declarationConflict typeName reason =>
    ticked typeName.render ++ " is declared inconsistently: " ++ reason
  | noTypeFound typeName => "Could not find " ++ typeName.render
  | arityMismatch typeName expected actual =>
    ticked typeName.render ++ " expects " ++ toString expected ++ " type arguments, but " ++
      toString actual ++ " given"
  | invalidSuperclass typeName superClass =>
    "superclass of " ++ ticked typeName.render ++ " must be a class, but " ++
      ticked superClass.render ++ " is not"
  | invalidMixinTarget typeName target directive =>
    ticked target.render ++ " cannot be used with " ++ directive.keyword ++ " in " ++
      ticked typeName.render
  | interfaceSingletonMethod _ _ => "Interface cannot have singleton method"
  | duplicatedMethodDefinition typeName method =>
    ticked typeName.render ++ " defines method " ++ ticked method ++ " more than once"
  | unknownMethodAlias typeName method =>
    "alias target " ++ ticked method ++ " is not defined for " ++ ticked typeName.render
  | cyclicAncestor path => "cyclic ancestors: " ++ " -> ".intercalate (path.map TypeName.render)
  | noSingletonChain typeName =>
    "interface " ++ ticked typeName.render ++ " has no singleton ancestors"

end Issue

/-! ## Diagnostics -/

/-- An issue and where it is. -/
structure Diagnostic where
  /-- What is wrong. -/
  issue : Issue
  /-- Where. -/
  span : Span
  deriving Repr, Inhabited, DecidableEq

namespace Diagnostic

/-- The sort of the issue. -/
def kind (d : Diagnostic) : IssueKind := d.issue.kind

/-- The wording of the issue. -/
def message (d : Diagnostic) : String := d.issue.message

/-- Compares two optional paths; the missing one comes first. -/
def comparePaths : Option String → Option String → Ordering
  | none, none => .eq
  | none, some _ => .lt
  | some _, none => .gt
  | some a, some b => Ord.compare a b

/-- Diagnostics are shown by path and then by offset; unknown sources come first. -/
def compareIn (sources : SourceMap) (a b : Diagnostic) : Ordering :=
  (comparePaths (sources.path? a.span.source) (sources.path? b.span.source)).then
    (Ord.compare a.span.start b.span.start)

/-- Sorts a batch. Diagnostics at one place keep their order. -/
def sort (sources : SourceMap) (batch : List Diagnostic) : List Diagnostic :=
  batch.mergeSort fun a b => (compareIn sources a b).isLE

/-- Keeps the first of several diagnostics of one kind at one place; `seen` lists the kinds
and places that are already reported. -/
def dedupeFrom (seen : List (IssueKind × Span)) : List Diagnostic → List Diagnostic
  | [] => []
  | d :: rest =>
    if (d.kind, d.span) ∈ seen then dedupeFrom seen rest
    else d :: dedupeFrom ((d.kind, d.span) :: seen) rest

/-- Keeps the first of several diagnostics of one kind at one place. -/
def dedupe (batch : List Diagnostic) : List Diagnostic := dedupeFrom [] batch

/-- `path:line:column: message`, or the message alone if the source is unknown. -/
def render (sources : SourceMap) (d : Diagnostic) : String :=
  match sources.location? d.span with
  | some location => location.render ++ ": " ++ d.message
  | none => d.message

/-- One line for each diagnostic. -/
def renderAll (sources : SourceMap) (batch : List Diagnostic) : String :=
  "\n".intercalate (batch.map (render sources))

end Diagnostic

/-! ## Failures -/

/-- Why a whole operation fails. -/
inductive Failure
  /-- The step budget of the parser is used up. -/
  | execFuelExhausted
  /-- A text is nested too deeply. -/
  | recursionLimitExceeded
  /-- Some texts are not in the language. -/
  | parseFailed (batch : List Diagnostic)
  /-- A library that does not exist was asked for. -/
  | unknownLibrary (name : String)
  /-- A question names an entity that is not declared. -/
  | unknownType (name : TypeName)
  /-- An answer does not exist because of an issue in the signatures. -/
  | diagnostic (d : Diagnostic)
  /-- The grammar is at fault. -/
  | fault (f : Fault)
  deriving Repr, Inhabited, DecidableEq

/-- The wording of a failure. -/
def Failure.message : Failure → String
  | execFuelExhausted => "execution limit exceeded"
  | recursionLimitExceeded => "recursion limit exceeded"
  | parseFailed batch => "parsing failed with " ++ toString batch.length ++ " errors"
  | unknownLibrary name => "unknown library " ++ Issue.ticked name
  | unknownType name => Issue.ticked name.render ++ " is not declared"
  | diagnostic d => d.message
  | fault _ => "internal error"

end RubySig
