import RubySig.Declaration
import RubySig.Parser.Types

/-!
# Grammar of bodies

* `methodName`: words with a suffix, operators, `[]` and `[]=`.
* `memberOf`: one element of the body of a class, module or interface.
* `memberList`: all elements up to the closing `end`.

As in the grammar of types, `levels` is the number of levels that may still be opened.
-/

namespace RubySig

namespace Parser

/-! ## Method names -/

/-- Whether a lexeme alone can be the name of a method. -/
def isOperatorName : TokenKind → Bool
  | .operator | .lt | .gt | .bang | .star | .starStar | .pipe | .amp | .caret | .backtick => true
  | _ => false

/-- Whether a lexeme can end the name of a method. -/
def isNameSuffix : TokenKind → Bool
  | .question | .bang | .equals => true
  | _ => false

/-- Whether the next lexeme is of an accepted kind and touches the one before it. -/
def isTouching (accept : TokenKind → Bool) : Parser Bool := do
  if accept (← look) then isAdjacent else return false

/-- `[]` or `[]=`, behind the opening bracket. -/
def indexName : Parser String := do
  if ← isTouching (· == .bracketClose) then
    let _ ← bump
    if ← isTouching (· == .equals) then
      let _ ← bump
      return "[]="
    else return "[]"
  else unexpected "`]`"

/-- The name of a method. -/
def methodName : Parser String := do
  let kind ← look
  if kind.isWord then
    let word ← bump
    if ← isTouching isNameSuffix then return word ++ (← bump) else return word
  else if isOperatorName kind then bump
  else if kind == .bracketOpen then
    let _ ← bump
    indexName
  else unexpected "a method name"

/-- Takes `self.` if it is written, and says whether it was. -/
def eatSelfDot : Parser Bool := do
  if ← isAtPair (.keyword .kwSelf) .dot then
    let _ ← bump
    let _ ← bump
    return true
  else return false

/-- `self.` or `self?.` in front of the name of a method. -/
def methodKind : Parser MethodKind := do
  if ← isAt (.keyword .kwSelf) then
    let first ← peek 1
    let second ← peek 2
    if first == .dot then
      let _ ← bump
      let _ ← bump
      return .onSingleton
    else if first == .question && second == .dot then
      let _ ← bump
      let _ ← bump
      let _ ← bump
      return .onBoth
    else return .onInstance
  else return .onInstance

/-! ## Members -/

/-- A method with its overloads. -/
def methodMember (vars : List String) (levels : Nat) (visibility : Option Visibility)
    (start : Nat) : Parser MethodMember := do
  assertAt (.keyword .kwDef)
  let _ ← bump
  let kind ← methodKind
  let name ← methodName
  let _ ← expect .colon "`:`"
  let first ← methodType vars levels
  let others ← repeatedAfter .pipe (methodType vars levels)
  return ⟨name, kind, first :: others, visibility, ← spanFrom start⟩

/-- The directive of an attribute. -/
def attributeKind : Parser AttributeKind := do
  match ← look with
  | .keyword .kwAttrReader => return .reader
  | .keyword .kwAttrWriter => return .writer
  | _ =>
    assertAt (.keyword .kwAttrAccessor)
    return .accessor

/-- An attribute. -/
def attributeMember (vars : List String) (levels : Nat) (visibility : Option Visibility)
    (start : Nat) : Parser AttributeMember := do
  let kind ← attributeKind
  let _ ← bump
  let singleton ← eatSelfDot
  if (← look).isWord then
    let name ← bump
    let _ ← expect .colon "`:`"
    let type ← typeExpr vars levels
    return ⟨kind, name, type, singleton, visibility, ← spanFrom start⟩
  else unexpected "an attribute name"

/-- A second name for a method of the same side. -/
def aliasMember : Parser AliasMember := do
  let start ← startOffset
  assertAt (.keyword .kwAlias)
  let _ ← bump
  let singleton ← eatSelfDot
  let newName ← methodName
  let oldStart ← currentRange
  if (← eatSelfDot) == singleton then
    let oldName ← methodName
    return ⟨newName, oldName, singleton, ← spanFrom start⟩
  else failAt oldStart "alias must name two instance methods or two singleton methods"

/-- A directive that mixes in a module or interface. -/
def mixinMember (vars : List String) (levels : Nat) (kind : MixinKind) : Parser Mixin := do
  let start ← startOffset
  let _ ← bump
  let target ← namedType vars levels "a module or interface name"
  return ⟨kind, target, ← spanFrom start⟩

/-- The type of a variable. -/
def variableMember (vars : List String) (levels : Nat) : Parser VariableMember := do
  let start ← startOffset
  let isInstance ← isAt .instanceVar
  let name ← bump
  let _ ← expect .colon "`:`"
  let type ← typeExpr vars levels
  return ⟨if isInstance then .ofInstance else .ofClass, name, type, ← spanFrom start⟩

/-- Whether a lexeme begins a member that can have a visibility of its own. -/
def takesVisibility : TokenKind → Bool
  | .keyword .kwDef | .keyword .kwAttrReader | .keyword .kwAttrWriter
  | .keyword .kwAttrAccessor => true
  | _ => false

/-- Whether a visibility applies to the member behind it on the same line. -/
def prefixesMember : Parser Bool := do
  if ← nextOnSameLine then return takesVisibility (← peek 1) else return false

/-- A visibility, which belongs to the member behind it on the same line or opens a
section. -/
def visibilityMember (vars : List String) (levels : Nat) : Parser Member := do
  let start ← startOffset
  let range ← currentRange
  let isPrivate ← isAt (.keyword .kwPrivate)
  let visibility : Visibility := if isPrivate then .privateAccess else .publicAccess
  let applies ← prefixesMember
  let _ ← bump
  if applies then
    if ← isAt (.keyword .kwDef) then
      return .method (← methodMember vars levels (some visibility) start)
    else return .attr (← attributeMember vars levels (some visibility) start)
  else return .marker ⟨visibility, ← spanOf range⟩

/-- An element of the body of a class or module. -/
def bodyMember (vars : List String) (levels : Nat) (declaration : Parser EntityDecl) :
    Parser Member := do
  match ← look with
  | .keyword .kwDef =>
    let start ← startOffset
    return .method (← methodMember vars levels none start)
  | .keyword .kwAlias => return .methodAlias (← aliasMember)
  | .keyword .kwInclude => return .mixin (← mixinMember vars levels .included)
  | .keyword .kwExtend => return .mixin (← mixinMember vars levels .extended)
  | .keyword .kwPrepend => return .mixin (← mixinMember vars levels .prepended)
  | .keyword .kwAttrReader | .keyword .kwAttrWriter | .keyword .kwAttrAccessor =>
    let start ← startOffset
    return .attr (← attributeMember vars levels none start)
  | .keyword .kwPrivate | .keyword .kwPublic => visibilityMember vars levels
  | .instanceVar | .classVar => return .typedVar (← variableMember vars levels)
  | .keyword .kwClass | .keyword .kwModule | .keyword .kwInterface | .keyword .kwType
  | .upperIdent | .doubleColon => return .nested (← declaration)
  | _ => unexpected "a member or `end`"

/-- An element of the body of an interface. -/
def interfaceMember (vars : List String) (levels : Nat) : Parser Member := do
  match ← look with
  | .keyword .kwDef =>
    let start ← startOffset
    return .method (← methodMember vars levels none start)
  | .keyword .kwAlias => return .methodAlias (← aliasMember)
  | .keyword .kwInclude => return .mixin (← mixinMember vars levels .included)
  | _ => unexpected "an interface member or `end`"

/-! ## Bodies -/

/-- `memberList` for at most a given number of rounds. -/
def memberListWithin (member : Parser Member) : Nat → Parser (List Member)
  | 0 => throw (.fault .endlessRepetition)
  | n + 1 => do
    if ← eat (.keyword .kwEnd) then return []
    else if ← atEnd then unexpected "`end`"
    else
      let m ← member
      return m :: (← memberListWithin member n)

/-- The elements of a body and the closing `end`. -/
def memberList (member : Parser Member) : Parser (List Member) := do
  memberListWithin member (← rounds)

end Parser

end RubySig
