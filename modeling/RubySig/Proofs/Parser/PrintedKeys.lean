import RubySig.Proofs.Parser.OperatorReads
import RubySig.Proofs.TypeExpr.Glued

/-!
# The language of printed types

A key that is a symbol is printed as its name and a colon, with or without a mark.  The grammar does
not read such a key if it has a mark.  With a rule that does, it reads every printed type, and what
it reads is the normal form of the type.

* `Parser.printedKey`: the rule for printed keys.
* `Parser.readsKey_printedKey`: it reads the keys of types that can be written.
* `Parser.typeWith_printedKey`: the grammar with this rule reads every printed type.
-/

namespace RubySig

namespace Parser

/-! ## Printed keys -/

/-- What the marks of symbols are where they stand alone. -/
def isMarkKind : TokenKind → Bool
  | .question | .bang | .equals => true
  | _ => false

/-- Whether a word with a mark and a colon behind it comes next. -/
def isAtMarkedKey (ls : List Lexeme) : Bool :=
  (kindOf ls 0).isWord && isMarkKind (kindOf ls 1) && kindOf ls 2 == .colon

/-- A word with a mark, and the colon behind it. -/
def markedKey : Parser RecordKey := do
  let word ← bump
  let mark ← bump
  let _ ← bump
  return .symbol (word ++ mark)

/-- The key of a printed field: never written as a symbol, and perhaps with a mark. -/
def printedKey : Parser RecordKey := fun c =>
  if kindOf c.rest 0 = .symbolLit then unexpected "a record key" c
  else if isAtMarkedKey c.rest then markedKey c
  else recordKey c

theorem isAtMarkedKey_eq (c : Cursor) :
    isAtMarkedKey c.rest = ((kindAt c.words 0).isWord && isMarkKind (kindAt c.words 1) &&
      kindAt c.words 2 == .colon) := by
  rw [isAtMarkedKey, kindOf_eq_kindAt, kindOf_eq_kindAt, kindOf_eq_kindAt]

section Keys

variable {ws left : List Word} {post : RecordKey → Prop}

/-- A key without a mark is read as it always is. -/
theorem reads_printedKey_plain (hsymbol : kindAt ws 0 ≠ .symbolLit)
    (hplain : ((kindAt ws 0).isWord && isMarkKind (kindAt ws 1)) = false)
    (h : Reads recordKey ws post left) : Reads printedKey ws post left := by
  refine ⟨h.suffix, fun c hfuel hws => ?_⟩
  have hnone : isAtMarkedKey c.rest = false := by
    rw [isAtMarkedKey_eq, hws, hplain, Bool.false_and]
  rw [printedKey, if_neg (by rw [kindOf_eq_kindAt, hws]; exact hsymbol), hnone,
    if_neg Bool.false_ne_true]
  exact h.run c hfuel hws

theorem reads_printedKey_marked {kind mark : TokenKind} {word text : String}
    (hkind : kind.isWord = true) (hmark : isMarkKind mark = true) :
    Reads printedKey ((kind, word) :: (mark, text) :: (.colon, ":") :: ws)
      (· = .symbol (word ++ text)) ws := by
  have hread : Reads markedKey ((kind, word) :: (mark, text) :: (.colon, ":") :: ws)
      (· = .symbol (word ++ text)) ws :=
    .exactly reads_bump (.exactly reads_bump (.exactly reads_bump (.pure rfl)))
  refine ⟨hread.suffix, fun c hfuel hws => ?_⟩
  have hnext : isAtMarkedKey c.rest = true := by
    rw [isAtMarkedKey_eq, hws]
    simp [kindAt, hkind, hmark]
  have hsymbol : kindOf c.rest 0 ≠ .symbolLit := by
    rw [kindOf_eq_kindAt, hws]
    exact ne_of_isWord hkind rfl
  rw [printedKey, if_neg hsymbol, if_pos hnext]
  exact hread.run c hfuel hws

end Keys

/-- The mark of a symbol in front of a colon is a word of its own. -/
theorem words_mark {mark : Char} (hmark : isMark mark = true) :
    ∃ kind : TokenKind, isMarkKind kind = true ∧ ∀ rest,
      words (String.singleton mark ++ (": " ++ rest)) =
        (kind, String.singleton mark) :: (.colon, ":") :: words rest := by
  have halone : ∀ (kind : TokenKind), kind.Spells (String.singleton mark).toList →
      OpenTo (· != ':') (String.singleton mark).toList → kind ≠ .garbage ∧ kind.isTrivia = false →
      ∀ rest, words (String.singleton mark ++ (": " ++ rest)) =
        (kind, String.singleton mark) :: (.colon, ":") :: words rest := by
    intro kind hspells hopen hkind rest
    rw [words_append_of_openTo hspells hopen (avoids_append (by decide) _) hkind, words_colon]
  simp only [isMark, Bool.or_eq_true, beq_iff_eq] at hmark
  rcases hmark with (rfl | rfl) | rfl
  · exact ⟨.question, rfl, halone _ (by decide) (by decide) ⟨by rintro ⟨⟩, rfl⟩⟩
  · exact ⟨.bang, rfl, halone _ (by decide) (by decide) ⟨by rintro ⟨⟩, rfl⟩⟩
  · exact ⟨.equals, rfl, halone _ (by decide) (by decide) ⟨by rintro ⟨⟩, rfl⟩⟩

theorem avoids_inWord_mark {mark : Char} (hmark : isMark mark = true) (rest : String) :
    Avoids inWord (String.singleton mark ++ rest) := by
  refine avoids_append ?_ rest
  simp only [isMark, Bool.or_eq_true, beq_iff_eq] at hmark
  rcases hmark with (rfl | rfl) | rfl <;> decide

/-- Every key that can be written is read back where it is printed. -/
theorem readsKey_printedKey {key : RecordKey} (h : key.Spelled) : ReadsKey printedKey key := by
  intro rest
  cases key with
  | string quoted =>
    have hplain : ReadsKey recordKey (.string quoted) := readsKey_recordKey h rfl
    obtain ⟨hnext, hread⟩ := hplain rest
    refine ⟨hnext, reads_printedKey_plain ?_ ?_ hread⟩ <;> rw [words_stringKey h]
    · exact nofun
    · rfl
  | symbol name =>
    rcases h with hword | ⟨word, mark, ⟨kind, hkind, hspells⟩, hmark, rfl⟩
    · have hplain : ReadsKey recordKey (.symbol name) :=
        readsKey_recordKey (Or.inl hword) hword.isMarked
      obtain ⟨hnext, hread⟩ := hplain rest
      obtain ⟨kind, hkind, hwords⟩ := words_symbolKey hword
      refine ⟨hnext, reads_printedKey_plain ?_ ?_ hread⟩ <;> rw [hwords]
      · exact ne_of_isWord hkind rfl
      · exact Bool.and_false _
    · obtain ⟨markKind, hmarkKind, hwords⟩ := words_mark hmark
      rw [RecordKey.render, String.append_assoc, String.append_assoc,
        words_append_of_isWord hspells hkind (avoids_inWord_mark hmark _), hwords]
      exact ⟨ne_of_isWord hkind rfl, reads_printedKey_marked hkind hmarkKind⟩

/-! ## Printed types -/

/-- Types in normal form are legible to this grammar. -/
theorem legible_printed (vars : List String) : Legible printedKey vars fun t =>
    t.Spelled vars ∧ ∀ u ∈ t.nodes, u.takesMark = false := by
  refine ⟨fun ht => ((TypeExpr.spelled_iff _).1 ht.1).1, fun {t c} ht hc => ?_, fun {t} ht => ?_,
    fun {fields} ht f hf => ?_⟩
  · exact ⟨((TypeExpr.spelled_iff _).1 ht.1).2 c hc, (t.forall_nodes_iff.1 ht.2).2 c hc⟩
  · refine TypeExpr.openSet_of_not_garbled ?_
    rw [TypeExpr.isGarbled_eq, ((TypeExpr.optional t).forall_nodes_iff.1 ht.2).1]
    rfl
  · exact readsKey_printedKey (((TypeExpr.spelled_iff (.record fields)).1 ht.1).1 f hf)

/-- The text of a type is read to its end, and what is read is its normal form. -/
theorem typeWith_printedKey {vars : List String} {t : TypeExpr} (h : t.Spelled vars) {levels : Nat}
    (hlevels : 2 * sizeOf t.glued < levels) (source : SourceId) :
    ∃ t' c', typeWith printedKey vars levels (Cursor.start source t.render none) = .ok t' c' ∧
      c'.rest = [] ∧ t'.withoutSpans = t.glued.withoutSpans := by
  obtain ⟨-, hread⟩ := (reads_typeWith_returnWith (legible_printed vars) levels).1 t.glued
    ⟨h.glued, t.takesMark_of_mem_glued⟩ hlevels "" follows_end
  rw [String.append_empty, words_empty, t.render_glued] at hread
  obtain ⟨t', c', hrun, ht, -, hrest⟩ := hread.run (Cursor.start source t.render none) rfl rfl
  exact ⟨t', c', hrun, List.map_eq_nil_iff.1 hrest, ht⟩

end Parser

end RubySig
