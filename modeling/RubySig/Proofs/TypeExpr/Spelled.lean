import RubySig.Proofs.Token.Kinds
import RubySig.Proofs.TypeExpr.Children
import RubySig.Proofs.TypeExpr.Params

/-!
# Types as they can be written

Not every type is the meaning of a text: names, keys and literals have to be tokens, parameters have
to be in the order of their slots, and what has one operand is no union.

* `TypeExpr.withoutSpans`: a type without the places where its parts are written.
* `TypeExpr.SpelledAt`, `TypeExpr.Spelled`: the types that can be written in a scope.
* `TypeExpr.isGarbled`: the types whose text means something else.
* `TypeExpr.Printable`: the types that can be written without such types in them.
* `TypeExpr.openSet`: what can be read behind the text of a type.
-/

namespace RubySig

/-! ## Places -/

/-- A node without the place where it is written. -/
def TypeExpr.dropSpan : TypeExpr → TypeExpr
  | .named target => .named ⟨target.name, target.args, default⟩
  | .singleton target => .singleton ⟨target.name, default⟩
  | type => type

/-- A type without the places where its parts are written. -/
def TypeExpr.withoutSpans (type : TypeExpr) : TypeExpr := type.map TypeExpr.dropSpan

theorem TypeExpr.withoutSpans_eq (t : TypeExpr) :
    t.withoutSpans = (t.mapChildren TypeExpr.withoutSpans).dropSpan :=
  t.map_eq _

/-! ## Parts that can be written -/

/-- A text that is a word. -/
def IsWord (text : String) : Prop :=
  ∃ kind : TokenKind, kind.isWord = true ∧ kind.Spells text.toList

/-- A text that is a word with a mark behind it. -/
def IsMarkedWord (text : String) : Prop :=
  ∃ (word : String) (mark : Char), IsWord word ∧ isMark mark = true ∧
    text = word ++ String.singleton mark

theorem IsMarkedWord.isMarked {text : String} (h : IsMarkedWord text) : isMarked text = true := by
  obtain ⟨word, mark, -, hmark, rfl⟩ := h
  exact isMarked_append_mark hmark word

theorem IsWord.isMarked {text : String} (h : IsWord text) : isMarked text = false := by
  obtain ⟨kind, hkind, hspells⟩ := h
  obtain ⟨r, hr, rfl, hmatches⟩ := hspells.exists_rule
  exact isMarked_eq_false (Pattern.mem_of_matches hmatches (within_of_isWord r hr hkind))

theorem isMarkedWord_of_symbol {name : String}
    (h : TokenKind.symbolLit.Spells (':' :: name.toList)) (hmarked : isMarked name = true) :
    IsMarkedWord name := by
  obtain ⟨word, mark, hname, hmark, hword⟩ := exists_of_isMarked h hmarked
  exact ⟨word, mark, hword, hmark, hname⟩

/-- A name with capitalized enclosing segments and an accepted last one. -/
structure TypeName.Spelled (accept : TokenKind → Bool) (name : TypeName) : Prop where
  path : ∀ segment ∈ name.scope.path, TokenKind.upperIdent.Spells segment.toList
  last : ∃ kind : TokenKind, accept kind = true ∧ kind.Spells name.name.toList

/-- A literal that can be written. -/
def Literal.Spelled : Literal → Prop
  | string quoted => TokenKind.stringLit.Spells quoted.toList
  | symbol name => TokenKind.symbolLit.Spells (':' :: name.toList)
  | integer value => Parser.fitsInt64 value = true
  | bool _ => True

/-- A record key that can be written: a word, the name of a symbol or a quoted text. -/
def RecordKey.Spelled : RecordKey → Prop
  | symbol name => IsWord name ∨ IsMarkedWord name
  | string quoted => TokenKind.stringLit.Spells quoted.toList

/-- Whether a record key is the name of a symbol with a mark. -/
def RecordKey.isMarked : RecordKey → Bool
  | symbol name => RubySig.isMarked name
  | string _ => false

/-- A slot whose keyword is a word. -/
def Slot.Spelled : Slot → Prop
  | requiredKeyword key | optionalKeyword key => IsWord key
  | _ => True

/-- A parameter that can be written, apart from its type. -/
structure Param.Spelled (p : Param) : Prop where
  slot : p.slot.Spelled
  name : ∀ name ∈ p.name, TokenKind.lowerIdent.Spells name.toList

/-- A parameter list that can be written, apart from its types. -/
structure SpelledParams (ps : List Param) : Prop where
  settled : SettledParams ps
  each : ∀ p ∈ ps, p.Spelled

/-! ## Types that can be written -/

/-- A bare capitalized name is not that of a variable in scope. -/
def NamedType.NotVariable (vars : List String) (target : NamedType) : Prop :=
  target.name.isBare = true → TokenKind.upperIdent.Spells target.name.name.toList →
    target.name.name ∉ vars

/-- A node that can be written in a scope, apart from its children. -/
def TypeExpr.SpelledAt (vars : List String) : TypeExpr → Prop
  | .named target => target.name.Spelled Parser.acceptsAny ∧ target.NotVariable vars
  | .singleton target => target.name.Spelled Parser.acceptsUpper
  | .var name => name ∈ vars ∧ TokenKind.upperIdent.Spells name.toList
  | .union types | .intersection types => 2 ≤ types.length
  | .record fields => ∀ f ∈ fields, f.key.Spelled
  | .proc function block =>
    SpelledParams function.params ∧ ∀ b ∈ block, SpelledParams b.function.params
  | .literal value => value.Spelled
  | .optional _ | .tuple _ | .special _ => True

/-- A type that can be written in a scope. -/
def TypeExpr.Spelled (vars : List String) (t : TypeExpr) : Prop :=
  ∀ u ∈ t.nodes, u.SpelledAt vars

/-- A type whose text means something else: behind a symbol without a mark the mark of an optional
belongs to the symbol, and in front of a colon a marked name is no word. -/
def TypeExpr.isGarbled : TypeExpr → Bool
  | .optional (.literal (.symbol name)) => !isMarked name
  | .record fields => fields.any fun f =>
    match f.key with
    | .symbol name => isMarked name
    | .string _ => false
  | _ => false

/-- A type whose text means the type, in a scope. -/
def TypeExpr.Printable (vars : List String) (t : TypeExpr) : Prop :=
  ∀ u ∈ t.nodes, u.SpelledAt vars ∧ u.isGarbled = false

/-- The characters that the text of a type without operators is open to. -/
def TypeExpr.openSet : TypeExpr → Char → Bool
  | .literal (.symbol name) => if isMarked name then inWord else inSymbol
  | _ => inWord

theorem TypeExpr.forall_nodes_iff {holds : TypeExpr → Prop} (t : TypeExpr) :
    (∀ u ∈ t.nodes, holds u) ↔ holds t ∧ ∀ c ∈ t.children, ∀ u ∈ c.nodes, holds u := by
  rw [TypeExpr.nodes_eq, List.forall_mem_cons]
  simp only [List.mem_flatMap]
  refine and_congr_right' ⟨fun h c hc u hu => h u ⟨c, hc, hu⟩, ?_⟩
  rintro h u ⟨c, hc, hu⟩
  exact h c hc u hu

theorem TypeExpr.spelled_iff {vars : List String} (t : TypeExpr) :
    t.Spelled vars ↔ t.SpelledAt vars ∧ ∀ c ∈ t.children, c.Spelled vars :=
  t.forall_nodes_iff

theorem TypeExpr.printable_iff {vars : List String} (t : TypeExpr) :
    t.Printable vars ↔ (t.SpelledAt vars ∧ t.isGarbled = false) ∧
      ∀ c ∈ t.children, c.Printable vars :=
  t.forall_nodes_iff

theorem TypeExpr.Printable.child {vars : List String} {t c : TypeExpr} (h : t.Printable vars)
    (hc : c ∈ t.children) : c.Printable vars :=
  (t.printable_iff.1 h).2 c hc

theorem TypeExpr.openSet_eq (t : TypeExpr) : t.openSet = inWord ∨ t.openSet = inSymbol := by
  cases t with
  | literal value =>
    cases value with
    | symbol name =>
      rw [TypeExpr.openSet]
      split
      · exact Or.inl rfl
      · exact Or.inr rfl
    | string _ | integer _ | bool _ => exact Or.inl rfl
  | _ => exact Or.inl rfl

/-- The mark of an optional that is not garbled does not belong to the type in front of it. -/
theorem TypeExpr.openSet_of_not_garbled {t : TypeExpr}
    (h : (TypeExpr.optional t).isGarbled = false) : t.openSet = inWord := by
  cases t with
  | literal value =>
    cases value with
    | symbol name =>
      have hmarked : isMarked name = true := by simpa [TypeExpr.isGarbled] using h
      exact if_pos hmarked
    | string _ | integer _ | bool _ => rfl
  | _ => rfl

end RubySig
