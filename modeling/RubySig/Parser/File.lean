import RubySig.Diagnostic
import RubySig.Parser.Members

/-!
# Grammar of files

* `Parser.entityDecl`, `Parser.declaration`: a declaration inside a body and at the top
  level.
* `parseSource`: the declarations of a text, or its first syntax error. A text with a
  syntax error contributes no declaration.
* `Limits`: the step budget and the greatest depth, each of which may be missing.
-/

namespace RubySig

namespace Parser

/-! ## Declarations -/

/-- The bodies of a class or module and of an interface, in which the given type
parameters are in scope. -/
structure Bodies where
  /-- A body of a class or module. -/
  klass : List String → Parser (List Member)
  /-- A body of an interface. -/
  interface : List String → Parser (List Member)

/-- `class Foo < Bar … end` -/
def classDecl (levels : Nat) (bodies : Bodies) : Parser ClassDecl := do
  let start ← startOffset
  assertAt (.keyword .kwClass)
  let _ ← bump
  let (name, nameRange) ← typeName "a class name" acceptsUpper
  let params ← typeParams true [] levels
  let vars := typeParamNames params
  let superClass ← (do
    if ← eat .lt then return some (← namedType vars levels "a superclass name") else return none)
  let members ← bodies.klass vars
  return ⟨name, params, superClass, members, ← spanOf nameRange, ← spanFrom start⟩

/-- `module Foo : Bar … end` -/
def moduleDecl (levels : Nat) (bodies : Bodies) : Parser ModuleDecl := do
  let start ← startOffset
  assertAt (.keyword .kwModule)
  let _ ← bump
  let (name, nameRange) ← typeName "a module name" acceptsUpper
  let params ← typeParams true [] levels
  let vars := typeParamNames params
  let selfTypes ← (do
    if ← eat .colon then separated .comma (namedType vars levels "a self type") else return [])
  let members ← bodies.klass vars
  return ⟨name, params, selfTypes, members, ← spanOf nameRange, ← spanFrom start⟩

/-- `interface _Foo … end` -/
def interfaceDecl (levels : Nat) (bodies : Bodies) : Parser InterfaceDecl := do
  let start ← startOffset
  assertAt (.keyword .kwInterface)
  let _ ← bump
  let (name, nameRange) ← typeName "an interface name" acceptsInterface
  let params ← typeParams true [] levels
  let members ← bodies.interface (typeParamNames params)
  return ⟨name, params, members, ← spanOf nameRange, ← spanFrom start⟩

/-- `type foo = T` -/
def aliasDecl (levels : Nat) : Parser AliasDecl := do
  let start ← startOffset
  assertAt (.keyword .kwType)
  let _ ← bump
  let (name, nameRange) ← typeName "a type alias name" acceptsLower
  let params ← typeParams true [] levels
  let _ ← expect .equals "`=`"
  let type ← typeExpr (typeParamNames params) levels
  return ⟨name, params, type, ← spanOf nameRange, ← spanFrom start⟩

/-- `FOO: T` -/
def constantDecl (vars : List String) (levels : Nat) : Parser ConstantDecl := do
  let start ← startOffset
  let (name, nameRange) ← typeName "a constant name" acceptsUpper
  let _ ← expect .colon "`:`"
  let type ← typeExpr vars levels
  return ⟨name, type, ← spanOf nameRange, ← spanFrom start⟩

/-- `$foo: T` -/
def globalDecl (levels : Nat) : Parser GlobalDecl := do
  let start ← startOffset
  assertAt .globalVar
  let name ← bump
  let _ ← expect .colon "`:`"
  let type ← typeExpr [] levels
  return ⟨name, type, ← spanFrom start⟩

/-- A declaration of an entity whose first lexeme is of the given kind. Only a constant can
see the type parameters around it. -/
def entityDeclAt (vars : List String) (levels : Nat) (bodies : Bodies) :
    TokenKind → Parser EntityDecl
  | .keyword .kwClass => return .klass (← classDecl levels bodies)
  | .keyword .kwModule => return .module (← moduleDecl levels bodies)
  | .keyword .kwInterface => return .interface (← interfaceDecl levels bodies)
  | .keyword .kwType => return .typeAlias (← aliasDecl levels)
  | .upperIdent | .doubleColon => return .constant (← constantDecl vars levels)
  | _ => unexpected "a declaration"

/-- A declaration inside a body. -/
def entityDecl (vars : List String) (levels : Nat) (bodies : Bodies) : Parser EntityDecl := do
  entityDeclAt vars levels bodies (← look)

/-- The bodies of declarations, while at most `levels` further levels may be opened. Every
element of a body opens a level. -/
def bodiesWithin (levels : Nat) : Bodies :=
  match levels with
  | 0 => ⟨fun _ => memberList tooDeep, fun _ => memberList tooDeep⟩
  | n + 1 =>
    ⟨fun vars => memberList (nested (bodyMember vars n (entityDecl vars n (bodiesWithin n)))),
      fun vars => memberList (nested (interfaceMember vars n))⟩

/-- A declaration at the top level of a file. -/
def declaration (levels : Nat) : Parser Declaration := do
  match ← look with
  | .globalVar => return .global (← globalDecl levels)
  | kind => return .entity (← entityDeclAt [] levels (bodiesWithin levels) kind)

/-! ## Files -/

/-- `file` for at most a given number of rounds. -/
def fileWithin (levels : Nat) : Nat → Parser (List Declaration)
  | 0 => throw (.fault .endlessRepetition)
  | n + 1 => do
    if ← atEnd then return []
    else
      let d ← declaration levels
      return d :: (← fileWithin levels n)

/-- All declarations up to the end of the text. -/
def file (levels : Nat) : Parser (List Declaration) := do fileWithin levels (← rounds)

end Parser

/-! ## Reading a source -/

/-- The budgets of the parser. A missing budget is no limit. -/
structure Limits where
  /-- How many lexemes may be taken. -/
  execFuel : Option Nat
  /-- How many levels may be open at once. -/
  recursion : Option Nat
  deriving Repr, Inhabited, DecidableEq

/-- No limits. -/
def Limits.unlimited : Limits := ⟨none, none⟩

/-- How often a rule may look at lexemes before it takes one. -/
def lookBudget : Nat := 256

/-- The cursor in front of the first lexeme. -/
def Cursor.start (source : SourceId) (text : String) (execFuel : Option Nat) : Cursor :=
  { source := source, textEnd := text.utf8ByteSize, rest := Lexeme.ofText text, lastEnd := 0,
    fuel := execFuel, depth := 0, deepest := 0, looks := 0, mostLooks := 0 }

/-- The number of levels that the parser may open. Every level but the first lies behind a
lexeme of its own, so without a limit one more than there are lexemes is never reached. -/
def Limits.levels (limits : Limits) (c : Cursor) : Nat :=
  limits.recursion.getD (c.rest.length + 1)

/-- Runs the grammar over a text. -/
def runFile (limits : Limits) (source : SourceId) (text : String) :
    EStateM.Result Stop Cursor (List Declaration) :=
  let c := Cursor.start source text limits.execFuel
  Parser.file (limits.levels c) c

/-- The declarations of a text and its syntax errors, of which there is at most one; with an
error there are no declarations. Running out of a budget is a failure. -/
def parseSource (limits : Limits) (source : SourceId) (text : String) :
    Except Failure (List Declaration × List Diagnostic) :=
  match runFile limits source text with
  | .ok declarations c =>
    if c.mostLooks ≤ lookBudget then .ok (declarations, []) else .error (.fault .lookedTooOften)
  | .error stop c =>
    if c.mostLooks ≤ lookBudget then
      match stop with
      | .syntaxError message range => .ok ([], [⟨.syntaxError message, ⟨source, range⟩⟩])
      | .execFuelExhausted => .error .execFuelExhausted
      | .recursionLimitExceeded => .error .recursionLimitExceeded
      | .fault f => .error (.fault f)
    else .error (.fault .lookedTooOften)

end RubySig
