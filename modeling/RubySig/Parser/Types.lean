import RubySig.Parser.Cursor
import RubySig.TypeExpr

/-!
# Grammar of types

The rules take the type parameters in scope, `vars`, and the number of levels that may
still be opened. Every type and every return type opens a level, so the recursion goes
down with that number.

* `typeName`: a qualified name.
* `typeExpr`: a type. `returnType`: a type that stops before `|` and `&`.
* `namedType`: a name with arguments, as superclasses and mixins are written.
* `typeParams`, `methodType`: the parts of an overload.
-/

namespace RubySig

namespace Parser

/-! ## Names -/

/-- The segments in front of the last one, for at most a given number of rounds. -/
def enclosingSegmentsWithin : Nat → Parser (List String)
  | 0 => throw (.fault .endlessRepetition)
  | n + 1 => do
    if ← isAtPair .upperIdent .doubleColon then
      let segment ← bump
      let _ ← bump
      return segment :: (← enclosingSegmentsWithin n)
    else return []

/-- The segments in front of the last one. -/
def enclosingSegments : Parser (List String) := do enclosingSegmentsWithin (← rounds)

/-- A qualified name whose last segment has to be of an accepted kind, and its range. -/
def typeName (what : String) (accept : TokenKind → Bool) : Parser (TypeName × TextRange) := do
  let start ← startOffset
  let absolute ← eat .doubleColon
  let path ← enclosingSegments
  if accept (← look) then
    let last ← bump
    return (⟨⟨path, absolute⟩, last⟩, ← rangeFrom start)
  else unexpected what

/-- The last segment of a class, module or constant name. -/
def acceptsUpper (kind : TokenKind) : Bool := kind == .upperIdent

/-- The last segment of an interface name. -/
def acceptsInterface (kind : TokenKind) : Bool := kind == .interfaceIdent

/-- The last segment of an alias name. -/
def acceptsLower (kind : TokenKind) : Bool := kind == .lowerIdent

/-- The last segment of the name of a class, module or interface. -/
def acceptsMixin (kind : TokenKind) : Bool := kind == .upperIdent || kind == .interfaceIdent

/-- The last segment of any type name. -/
def acceptsAny (kind : TokenKind) : Bool := acceptsMixin kind || kind == .lowerIdent

/-- A name with arguments in brackets. -/
def namedWith (type : Parser TypeExpr) (what : String) (accept : TokenKind → Bool) :
    Parser NamedType := do
  let start ← startOffset
  let (name, _) ← typeName what accept
  if ← eat .bracketOpen then
    let args ← separated .comma type
    let _ ← expect .bracketClose "`,` or `]`"
    return ⟨name, args, ← spanFrom start⟩
  else return ⟨name, [], ← spanFrom start⟩

/-! ## Literals -/

/-- The special type that a keyword names. -/
def specialOf? : TokenKind → Option SpecialType
  | .keyword .kwUntyped => some .untyped
  | .keyword .kwVoid => some .void
  | .keyword .kwSelf => some .selfType
  | .keyword .kwInstance => some .instanceType
  | .keyword .kwClass => some .classType
  | .keyword .kwBot => some .bot
  | .keyword .kwTop => some .top
  | .keyword .kwNil => some .nil
  | .keyword .kwBool => some .bool
  | _ => none

/-- The value of decimal digits. -/
def decimalValue (digits : List Char) : Nat :=
  digits.foldl (fun n c => 10 * n + (c.toNat - '0'.toNat)) 0

/-- The value of digits behind an optional minus sign. -/
def integerValue : List Char → Int
  | '-' :: digits => -(decimalValue digits : Int)
  | digits => decimalValue digits

/-- Whether a number is a signed 64-bit integer. -/
def fitsInt64 (value : Int) : Bool :=
  -9223372036854775808 ≤ value && value ≤ 9223372036854775807

/-- An integer literal. -/
def integerType : Parser TypeExpr := do
  let range ← currentRange
  let value := integerValue (← bump).toList
  if fitsInt64 value then return .literal (.integer value)
  else failAt range "integer literal out of range"

/-- The name in a symbol, without its colon. -/
def symbolName (text : String) : String := String.ofList (text.toList.drop 1)

/-! ## Parameters and blocks -/

/-- A parameter's type and an optional variable name. -/
def paramOf (slot : Slot) (type : Parser TypeExpr) : Parser Param := do
  let type ← type
  if ← isAt .lowerIdent then return ⟨slot, type, some (← bump)⟩
  else return ⟨slot, type, none⟩

/-- The name of a keyword parameter and its colon. -/
def keywordName : Parser String := do
  let name ← bump
  let _ ← expect .colon "`:`"
  return name

/-- Whether `?` is followed by the name of a keyword parameter. -/
def isOptionalKeyword : Parser Bool := do
  if (← peek 1).isWord then return (← peek 2) == .colon else return false

/-- A parameter as it is written. -/
def param (type : Parser TypeExpr) : Parser Param := do
  match ← look with
  | .question =>
    if ← isOptionalKeyword then
      let _ ← bump
      let key ← keywordName
      paramOf (.optionalKeyword key) type
    else
      let _ ← bump
      paramOf .optional type
  | .starStar =>
    let _ ← bump
    paramOf .restKeywords type
  | .star =>
    let _ ← bump
    paramOf .rest type
  | kind =>
    if kind.isWord then
      if ← isFollowedBy .colon then
        let key ← keywordName
        paramOf (.requiredKeyword key) type
      else paramOf .required type
    else paramOf .required type

/-- A parameter list in parentheses, which may be missing. -/
def params (type : Parser TypeExpr) : Parser (List Param) := do
  if ← eat .parenOpen then
    let written ← separatedUntil .parenClose .comma (param type)
    let _ ← expect .parenClose "`,` or `)`"
    return FunctionType.arrange written
  else return []

/-- The rest of a block behind its opening brace. -/
def blockBody (required : Bool) (type : Parser TypeExpr) : Parser (Option Block) := do
  let params ← params type
  let _ ← expect .arrow "`->`"
  let returnType ← type
  let _ ← expect .braceClose "`\x7d`"
  return some ⟨required, ⟨params, returnType⟩⟩

/-- A block, which may be missing. -/
def block (type : Parser TypeExpr) : Parser (Option Block) := do
  match ← look with
  | .braceOpen =>
    let _ ← bump
    blockBody true type
  | .question =>
    if ← isFollowedBy .braceOpen then
      let _ ← bump
      let _ ← bump
      blockBody false type
    else return none
  | _ => return none

/-- Parameters, block and return type. -/
def callable (type returnType : Parser TypeExpr) : Parser (FunctionType × Option Block) := do
  let params ← params type
  let block ← block type
  let _ ← expect .arrow "`->`"
  let returnType ← returnType
  return (⟨params, returnType⟩, block)

/-! ## Types without operators -/

/-- `[A, B]` -/
def tupleType (type : Parser TypeExpr) : Parser TypeExpr := do
  assertAt .bracketOpen
  let _ ← bump
  let types ← separatedUntil .bracketClose .comma type
  let _ ← expect .bracketClose "`,` or `]`"
  return .tuple types

/-- A key that is a word with a colon behind it, if that is what is written. -/
def wordKey? (kind : TokenKind) : Parser Bool := do
  if kind.isWord then isFollowedBy .colon else return false

/-- The key of a record field and the mark behind it. -/
def recordKey : Parser RecordKey := do
  let kind ← look
  if ← wordKey? kind then
    let name ← bump
    let _ ← bump
    return .symbol name
  else if kind == .stringLit then
    let quoted ← bump
    let _ ← expect .fatArrow "`=>`"
    return .string quoted
  else if kind == .symbolLit then
    let text ← bump
    let _ ← expect .fatArrow "`=>`"
    return .symbol (symbolName text)
  else unexpected "a record key"

/-- One field of a record. -/
def recordField (type : Parser TypeExpr) : Parser RecordField := do
  let key ← recordKey
  return ⟨key, ← type⟩

/-- A record in braces. -/
def recordType (type : Parser TypeExpr) : Parser TypeExpr := do
  assertAt .braceOpen
  let _ ← bump
  let fields ← separatedUntil .braceClose .comma (recordField type)
  let _ ← expect .braceClose "`,` or `\x7d`"
  return .record fields

/-- `^(A) -> B` -/
def procType (type returnType : Parser TypeExpr) : Parser TypeExpr := do
  assertAt .caret
  let _ ← bump
  let (function, block) ← callable type returnType
  return .proc function block

/-- `singleton(Foo)` -/
def singletonType : Parser TypeExpr := do
  let start ← startOffset
  assertAt (.keyword .kwSingleton)
  let _ ← bump
  let _ ← expect .parenOpen "`(`"
  let (name, _) ← typeName "a class or module name" acceptsUpper
  let _ ← expect .parenClose "`)`"
  return .singleton ⟨name, ← spanFrom start⟩

/-- Whether the next lexeme is a bare capitalized name of a type parameter in scope. -/
def isAtTypeVar (vars : List String) : Parser Bool := do
  let text ← currentText
  if ← isFollowedBy .doubleColon then return false else return vars.contains text

/-- A name of any kind, with arguments. -/
def anyNamed (type : Parser TypeExpr) : Parser TypeExpr := do
  return .named (← namedWith type "a type" acceptsAny)

/-- A type without operators. -/
def simpleType (vars : List String) (type returnType : Parser TypeExpr) : Parser TypeExpr := do
  let kind ← look
  match specialOf? kind with
  | some special =>
    let _ ← bump
    return .special special
  | none =>
    match kind with
    | .parenOpen =>
      let _ ← bump
      let inner ← type
      let _ ← expect .parenClose "`)`"
      return inner
    | .bracketOpen => tupleType type
    | .braceOpen => recordType type
    | .caret => procType type returnType
    | .stringLit => return .literal (.string (← bump))
    | .symbolLit => return .literal (.symbol (symbolName (← bump)))
    | .integerLit => integerType
    | .keyword .kwTrue =>
      let _ ← bump
      return .literal (.bool true)
    | .keyword .kwFalse =>
      let _ ← bump
      return .literal (.bool false)
    | .keyword .kwSingleton => singletonType
    | .upperIdent =>
      if ← isAtTypeVar vars then return .var (← bump) else anyNamed type
    | .interfaceIdent | .lowerIdent | .doubleColon => anyNamed type
    | _ => unexpected "a type"

/-! ## Operators -/

/-- Whether the next lexeme is a mark `?` that belongs to the type before it, not to a
block behind it. -/
def isAtOptionalMark : Parser Bool := do
  if ← isAt .question then return !(← isFollowedBy .braceOpen) else return false

/-- The marks `?` behind a type, for at most a given number of rounds. -/
def optionalMarksWithin (type : TypeExpr) : Nat → Parser TypeExpr
  | 0 => throw (.fault .endlessRepetition)
  | n + 1 => do
    if ← isAtOptionalMark then
      let _ ← bump
      optionalMarksWithin (.optional type) n
    else return type

/-- A type with any number of marks `?` behind it. -/
def optionalType (simple : Parser TypeExpr) : Parser TypeExpr := do
  let type ← simple
  optionalMarksWithin type (← rounds)

/-- Operands with a binary operator between them; one operand stands for itself. -/
def operands (mark : TokenKind) (build : List TypeExpr → TypeExpr) (operand : Parser TypeExpr) :
    Parser TypeExpr := do
  let first ← operand
  if ← isAt mark then return build (first :: (← repeatedAfter mark operand))
  else return first

/-- A type with all operators: `&` binds tighter than `|`. -/
def unionType (simple : Parser TypeExpr) : Parser TypeExpr :=
  operands .pipe .union (operands .amp .intersection (optionalType simple))

mutual

/-- A type, while at most `levels` further levels may be opened. -/
def typeExpr (vars : List String) (levels : Nat) (c : Cursor) :
    EStateM.Result Stop Cursor TypeExpr :=
  match levels with
  | 0 => tooDeep c
  | n + 1 => nested (unionType (simpleType vars (typeExpr vars n) (returnType vars n))) c

/-- A return type, which is not a union or intersection unless it is in parentheses. -/
def returnType (vars : List String) (levels : Nat) (c : Cursor) :
    EStateM.Result Stop Cursor TypeExpr :=
  match levels with
  | 0 => tooDeep c
  | n + 1 => nested (optionalType (simpleType vars (typeExpr vars n) (returnType vars n))) c

end

/-- The name of a class, module or interface, with arguments. -/
def namedType (vars : List String) (levels : Nat) (what : String) : Parser NamedType :=
  namedWith (typeExpr vars levels) what acceptsMixin

/-! ## Method types -/

/-- `in` or `out` in front of a type parameter, where they are allowed. -/
def variance (allowed : Bool) : Parser Variance := do
  match ← look with
  | .keyword .kwIn =>
    if allowed then
      let _ ← bump
      return .contravariant
    else return .invariant
  | .keyword .kwOut =>
    if allowed then
      let _ ← bump
      return .covariant
    else return .invariant
  | _ => return .invariant

/-- The upper bound of a type parameter, which may be missing. -/
def upperBound (type : Parser TypeExpr) : Parser (Option TypeExpr) := do
  if ← eat .lt then return some (← type) else return none

/-- `unchecked` in front of a type parameter, where it is allowed. -/
def uncheckedMark (allowed : Bool) : Parser Bool := do
  if allowed then eat (.keyword .kwUnchecked) else return false

/-- One type parameter. Its own name and those before it are in scope in its bound. -/
def typeParam (allowVariance : Bool) (vars : List String) (levels : Nat) : Parser TypeParam := do
  let start ← startOffset
  let unchecked ← uncheckedMark allowVariance
  let variance ← variance allowVariance
  if ← isAt .upperIdent then
    let name ← bump
    let bound ← upperBound (typeExpr (name :: vars) levels)
    return ⟨name, variance, unchecked, bound, ← spanFrom start⟩
  else unexpected "a type parameter name"

/-- Type parameters with commas between them, for at most a given number of rounds. -/
def typeParamsWithin (allowVariance : Bool) (levels : Nat) (vars : List String) :
    Nat → Parser (List TypeParam)
  | 0 => throw (.fault .endlessRepetition)
  | n + 1 => do
    let p ← typeParam allowVariance vars levels
    if ← eat .comma then
      return p :: (← typeParamsWithin allowVariance levels (p.name :: vars) n)
    else return [p]

/-- Type parameters in brackets, which may be missing. -/
def typeParams (allowVariance : Bool) (vars : List String) (levels : Nat) :
    Parser (List TypeParam) := do
  if ← eat .bracketOpen then
    let params ← typeParamsWithin allowVariance levels vars (← rounds)
    let _ ← expect .bracketClose "`,` or `]`"
    return params
  else return []

/-- One overload of a method. Its type parameters are added to those in scope. -/
def methodType (vars : List String) (levels : Nat) : Parser MethodType := do
  let start ← startOffset
  let typeParams ← typeParams false vars levels
  let vars := typeParamNames typeParams ++ vars
  let (function, block) ← callable (typeExpr vars levels) (returnType vars levels)
  return ⟨typeParams, function, block, ← spanFrom start⟩

end Parser

end RubySig
