import RubySig.Text.Position
import RubySig.Token.Pattern

/-!
# Tokens of the signature language

* `Keyword`, `TokenKind`: what a token is.
* `tokenRules`: the pattern of every kind. At one place of the text the rule that reads
  the longest piece wins; of two equally long ones the earlier rule wins, so keywords
  stand before identifiers.
* `Token`: a piece of the text with its kind and range.
-/

namespace RubySig

/-! ## Kinds -/

/-- A reserved word. -/
inductive Keyword
  | kwClass | kwModule | kwInterface | kwType | kwDef | kwSelf | kwAlias | kwInclude
  | kwExtend | kwPrepend | kwAttrReader | kwAttrWriter | kwAttrAccessor | kwEnd | kwPrivate
  | kwPublic | kwSingleton | kwUntyped | kwVoid | kwInstance | kwBot | kwTop | kwNil | kwBool
  | kwTrue | kwFalse | kwIn | kwOut | kwUnchecked
  deriving Repr, Inhabited, DecidableEq

namespace Keyword

/-- Every keyword. -/
def all : List Keyword :=
  [kwClass, kwModule, kwInterface, kwType, kwDef, kwSelf, kwAlias, kwInclude, kwExtend,
    kwPrepend, kwAttrReader, kwAttrWriter, kwAttrAccessor, kwEnd, kwPrivate, kwPublic,
    kwSingleton, kwUntyped, kwVoid, kwInstance, kwBot, kwTop, kwNil, kwBool, kwTrue, kwFalse,
    kwIn, kwOut, kwUnchecked]

/-- How a keyword is written. -/
def text : Keyword → String
  | kwClass => "class"
  | kwModule => "module"
  | kwInterface => "interface"
  | kwType => "type"
  | kwDef => "def"
  | kwSelf => "self"
  | kwAlias => "alias"
  | kwInclude => "include"
  | kwExtend => "extend"
  | kwPrepend => "prepend"
  | kwAttrReader => "attr_reader"
  | kwAttrWriter => "attr_writer"
  | kwAttrAccessor => "attr_accessor"
  | kwEnd => "end"
  | kwPrivate => "private"
  | kwPublic => "public"
  | kwSingleton => "singleton"
  | kwUntyped => "untyped"
  | kwVoid => "void"
  | kwInstance => "instance"
  | kwBot => "bot"
  | kwTop => "top"
  | kwNil => "nil"
  | kwBool => "bool"
  | kwTrue => "true"
  | kwFalse => "false"
  | kwIn => "in"
  | kwOut => "out"
  | kwUnchecked => "unchecked"

/-- The name of a keyword's token kind. -/
def label : Keyword → String
  | kwClass => "KwClass"
  | kwModule => "KwModule"
  | kwInterface => "KwInterface"
  | kwType => "KwType"
  | kwDef => "KwDef"
  | kwSelf => "KwSelf"
  | kwAlias => "KwAlias"
  | kwInclude => "KwInclude"
  | kwExtend => "KwExtend"
  | kwPrepend => "KwPrepend"
  | kwAttrReader => "KwAttrReader"
  | kwAttrWriter => "KwAttrWriter"
  | kwAttrAccessor => "KwAttrAccessor"
  | kwEnd => "KwEnd"
  | kwPrivate => "KwPrivate"
  | kwPublic => "KwPublic"
  | kwSingleton => "KwSingleton"
  | kwUntyped => "KwUntyped"
  | kwVoid => "KwVoid"
  | kwInstance => "KwInstance"
  | kwBot => "KwBot"
  | kwTop => "KwTop"
  | kwNil => "KwNil"
  | kwBool => "KwBool"
  | kwTrue => "KwTrue"
  | kwFalse => "KwFalse"
  | kwIn => "KwIn"
  | kwOut => "KwOut"
  | kwUnchecked => "KwUnchecked"

end Keyword

/-- What a token is. -/
inductive TokenKind
  | parenOpen | parenClose | bracketOpen | bracketClose | braceOpen | braceClose
  | doubleColon | colon | comma | dot | arrow | fatArrow | caret | pipe | amp | question | bang
  | star | starStar | lt | gt | equals | backtick
  /-- An operator that is only a method name: `==`, `<=>`, `+`. -/
  | operator
  /-- A reserved word. -/
  | keyword (word : Keyword)
  /-- `Foo` -/
  | upperIdent
  /-- `foo` or `_foo` -/
  | lowerIdent
  /-- `_Foo` -/
  | interfaceIdent
  /-- `@foo` -/
  | instanceVar
  /-- `@@foo` -/
  | classVar
  /-- `$foo` -/
  | globalVar
  /-- `:foo` -/
  | symbolLit
  /-- `-12` -/
  | integerLit
  /-- A quoted text. -/
  | stringLit
  /-- Blanks and tabs. -/
  | whitespace
  /-- One line break. -/
  | newline
  /-- `#` up to the end of the line. -/
  | comment
  /-- Text that no rule reads. -/
  | garbage
  /-- The absence of a token, after the end of the text. -/
  | endOfText
  deriving Repr, Inhabited, DecidableEq

namespace TokenKind

/-- The name of a token kind. -/
def label : TokenKind → String
  | parenOpen => "ParenOpen"
  | parenClose => "ParenClose"
  | bracketOpen => "BracketOpen"
  | bracketClose => "BracketClose"
  | braceOpen => "BraceOpen"
  | braceClose => "BraceClose"
  | doubleColon => "DoubleColon"
  | colon => "Colon"
  | comma => "Comma"
  | dot => "Dot"
  | arrow => "Arrow"
  | fatArrow => "FatArrow"
  | caret => "Caret"
  | pipe => "Pipe"
  | amp => "Amp"
  | question => "Question"
  | bang => "Bang"
  | star => "Star"
  | starStar => "StarStar"
  | lt => "Lt"
  | gt => "Gt"
  | equals => "Equals"
  | backtick => "Backtick"
  | operator => "Operator"
  | keyword word => word.label
  | upperIdent => "UIdent"
  | lowerIdent => "LIdent"
  | interfaceIdent => "InterfaceIdent"
  | instanceVar => "IVar"
  | classVar => "CVar"
  | globalVar => "GVar"
  | symbolLit => "SymbolLit"
  | integerLit => "IntegerLit"
  | stringLit => "StringLit"
  | whitespace => "Whitespace"
  | newline => "Newline"
  | comment => "Comment"
  | garbage => "Garbage"
  | endOfText => "Error"

/-- Tokens without meaning for the grammar. -/
def isTrivia : TokenKind → Bool
  | whitespace | newline | comment => true
  | _ => false

/-- Tokens that can spell a method or parameter name. -/
def isWord : TokenKind → Bool
  | keyword _ | upperIdent | lowerIdent | interfaceIdent => true
  | _ => false

end TokenKind

/-! ## Rules -/

/-- A kind and the texts that it reads. -/
structure TokenRule where
  /-- The kind of the token. -/
  kind : TokenKind
  /-- Its texts. -/
  pattern : Pattern
  deriving Repr, Inhabited, DecidableEq

namespace TokenRule

/-- Capital letters. -/
def upper : CharClass := .between 'A' 'Z'

/-- Small letters. -/
def lower : CharClass := .between 'a' 'z'

/-- Decimal digits. -/
def digit : CharClass := .between '0' '9'

/-- What may begin a word. -/
def wordStart : CharClass := .either upper (.either lower (.only '_'))

/-- What may continue a word. -/
def wordRest : CharClass := .either wordStart digit

/-- A word after its first character. -/
def tail : Pattern := .many (.one wordRest)

/-- A word. -/
def word : Pattern := .seq (.one wordStart) tail

/-- A text between two quotes. A backslash takes the next character, but no newline. -/
def quoted (quote : Char) : Pattern :=
  .seq (.char quote)
    (.seq
      (.many (.alt (.one (.excluding [quote, '\\']))
        (.seq (.char '\\') (.one (.excluding ['\n'])))))
      (.char quote))

/-- A rule for one spelling. -/
def spelled (kind : TokenKind) (spelling : String) : TokenRule := ⟨kind, .text spelling.toList⟩

/-- Rules for brackets, punctuation and operators. -/
def punctuation : List TokenRule :=
  [spelled .parenOpen "(", spelled .parenClose ")", spelled .bracketOpen "[",
    spelled .bracketClose "]", spelled .braceOpen "\x7b", spelled .braceClose "\x7d",
    spelled .doubleColon "::", spelled .colon ":", spelled .comma ",", spelled .dot ".",
    spelled .arrow "->", spelled .fatArrow "=>", spelled .caret "^", spelled .pipe "|",
    spelled .amp "&", spelled .question "?", spelled .bang "!", spelled .star "*",
    spelled .starStar "**", spelled .lt "<", spelled .gt ">", spelled .equals "=",
    spelled .backtick "`",
    ⟨.operator, .anyOf (["==", "===", "!=", "=~", "!~", "<=", ">=", "<=>", "<<", ">>", "+", "-",
      "/", "%", "~", "+@", "-@"].map fun s => .text s.toList)⟩]

/-- Rules for identifiers and variables. -/
def identifiers : List TokenRule :=
  [⟨.upperIdent, .seq (.one upper) tail⟩,
    ⟨.lowerIdent, .alt (.seq (.one lower) tail)
      (.seq (.char '_')
        (.optional (.seq (.one (.either lower (.either digit (.only '_')))) tail)))⟩,
    ⟨.interfaceIdent, .seq (.char '_') (.seq (.one upper) tail)⟩,
    ⟨.instanceVar, .seq (.char '@') word⟩,
    ⟨.classVar, .seq (.char '@') (.seq (.char '@') word)⟩,
    ⟨.globalVar, .seq (.char '$') word⟩]

/-- Rules for literals. -/
def literals : List TokenRule :=
  [⟨.symbolLit, .seq (.char ':') (.seq (.one wordStart) (.seq tail
      (.optional (.one (.either (.only '?') (.either (.only '!') (.only '=')))))))⟩,
    ⟨.integerLit, .seq (.optional (.char '-')) (.repeated (.one digit))⟩,
    ⟨.stringLit, .alt (quoted '"') (quoted '\'')⟩]

/-- Rules for the text between meaningful tokens. -/
def trivia : List TokenRule :=
  [⟨.whitespace, .repeated (.one (.either (.only ' ') (.only '\t')))⟩,
    ⟨.newline, .alt (.char '\n') (.seq (.char '\r') (.char '\n'))⟩,
    ⟨.comment, .seq (.char '#') (.many (.one (.excluding ['\n'])))⟩]

end TokenRule

/-- All rules, in order of precedence among equally long pieces. -/
def tokenRules : List TokenRule :=
  TokenRule.punctuation ++
    Keyword.all.map (fun k => TokenRule.spelled (.keyword k) k.text) ++
    TokenRule.identifiers ++ TokenRule.literals ++ TokenRule.trivia

/-! ## Tokens -/

/-- A piece of a text. -/
structure Token where
  /-- What the piece is. -/
  kind : TokenKind
  /-- The piece itself. -/
  text : String
  /-- Where it stands. -/
  range : TextRange
  deriving Repr, Inhabited, DecidableEq

end RubySig
