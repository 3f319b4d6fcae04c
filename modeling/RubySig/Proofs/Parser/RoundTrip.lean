import RubySig.Parser.File
import RubySig.Proofs.Parser.OperatorReads

/-!
# Printed types are read back

A type that the parser returns in a scope can be printed and read again in that scope.  The text is
read to its end and gives the type, up to the places where its parts are written, unless the type
contains one of the two kinds of types whose text means something else.

* `Parser.reads_typeExpr_returnType`: with enough levels a printed type is read back.
* `readType`: reading a text that is a type.
* `readType_of_printable`, `readType_render`: what is read of a printed type.
-/

namespace RubySig

namespace Parser

/-- Types without garbled parts are legible. -/
theorem legible_printable (vars : List String) :
    Legible recordKey vars (TypeExpr.Printable vars) := by
  refine ⟨fun ht => ((TypeExpr.printable_iff _).1 ht).1.1, fun ht hc => ht.child hc,
    fun ht => TypeExpr.openSet_of_not_garbled ((TypeExpr.printable_iff _).1 ht).1.2,
    fun {fields} ht f hf => ?_⟩
  obtain ⟨⟨hspelled, hplain⟩, -⟩ := (TypeExpr.printable_iff (.record fields)).1 ht
  refine readsKey_recordKey (hspelled f hf) ?_
  have hkey := List.any_eq_false.1 hplain f hf
  rw [Bool.not_eq_true] at hkey
  exact hkey

/-- With two levels for every part of a type it is read back. -/
theorem reads_typeExpr_returnType (vars : List String) (n : Nat) :
    (∀ t : TypeExpr, t.Printable vars → 2 * sizeOf t < n →
      ReadsBack (typeExpr vars n) t.render t (Follows [])) ∧
    ∀ t : TypeExpr, t.Printable vars → 2 * sizeOf t + 1 < n →
      ReadsBack (returnType vars n) (t.operandText .optional) t (Follows []) := by
  obtain ⟨htype, hreturn⟩ := typeWith_recordKey vars n
  rw [← htype, ← hreturn]
  exact reads_typeWith_returnWith (legible_printable vars) n

/-- A type that the parser returns in a scope, somewhere in a text and with some budgets. -/
def Returned (vars : List String) (t : TypeExpr) : Prop :=
  ∃ (text : String) (levels : Nat) (c c' : Cursor), c.rest <:+ Lexeme.ofText text ∧
    (typeExpr vars levels c = .ok t c' ∨ returnType vars levels c = .ok t c')

/-- Types that the parser returns can be written. -/
theorem Returned.spelled {vars : List String} {t : TypeExpr} (h : Returned vars t) :
    t.Spelled vars := by
  obtain ⟨text, levels, c, c', hsuffix, hrun⟩ := h
  have hproper : ∀ l ∈ c.rest, l.Proper := fun l hl =>
    Lexeme.spells_of_mem_ofText (hsuffix.subset hl)
  obtain ⟨htype, hreturn⟩ := typeExpr_returnType_spelled vars levels
  rcases hrun with hrun | hrun
  · exact (htype c t c' hproper trivial hrun).2
  · exact (hreturn c t c' hproper trivial hrun).2

end Parser

/-- Reads a text as a type in a scope, without limits. -/
def readType (vars : List String) (source : SourceId) (text : String) :
    EStateM.Result Stop Cursor TypeExpr :=
  let c := Cursor.start source text Limits.unlimited.execFuel
  Parser.typeExpr vars (Limits.unlimited.levels c) c

/-- Without limits a text is read as with any greater number of levels, and no lexeme is looked at
too often. -/
theorem readType_eq (vars : List String) (source : SourceId) (text : String) {levels : Nat}
    (h : (Lexeme.ofText text).length + 1 ≤ levels) :
    readType vars source text = Parser.typeExpr vars levels (Cursor.start source text none) ∧
      (Parser.cursorOf (readType vars source text)).mostLooks ≤ lookBudget := by
  have hcut := Parser.opens_typeExpr vars h 0
  let c := Cursor.start source text none
  have hdeepest : (Parser.cursorOf (Parser.typeExpr vars levels c)).deepest ≤
      (Lexeme.ofText text).length + 1 :=
    hcut.deepest_le (by simp [c, Cursor.start]) (Nat.zero_le _)
  have hlooks : (Parser.cursorOf (Parser.typeExpr vars levels c)).mostLooks ≤ lookBudget :=
    (hcut.mostLooks_le (le_refl 0) (Nat.zero_le _)).trans Parser.lookBound_lt.le
  have hsame : readType vars source text = Parser.typeExpr vars levels c := by
    rcases hcut.descends (c := c) (Nat.zero_le _) with ⟨-, hsame⟩ | ⟨hdeeper, -⟩
    · exact hsame
    · have hopened : c.depth + ((Lexeme.ofText text).length + 1) =
          (Lexeme.ofText text).length + 1 := Nat.zero_add _
      omega
  exact ⟨hsame, hsame ▸ hlooks⟩

/-- The text of a type without garbled parts is read to its end and gives the type. -/
theorem readType_of_printable {vars : List String} {t : TypeExpr} (h : t.Printable vars)
    (source : SourceId) :
    ∃ t' c', readType vars source t.render = .ok t' c' ∧ c'.mostLooks ≤ lookBudget ∧
      c'.rest = [] ∧ t'.withoutSpans = t.withoutSpans := by
  obtain ⟨levels, hlength, hsize⟩ : ∃ levels, (Lexeme.ofText t.render).length + 1 ≤ levels ∧
      2 * sizeOf t < levels :=
    ⟨(Lexeme.ofText t.render).length + 1 + (2 * sizeOf t + 1), Nat.le_add_right _ _, by omega⟩
  obtain ⟨hread, hlooks⟩ := readType_eq vars source t.render hlength
  obtain ⟨-, hback⟩ :=
    (Parser.reads_typeExpr_returnType vars levels).1 t h hsize "" Parser.follows_end
  rw [String.append_empty, words_empty] at hback
  obtain ⟨t', c', hrun, ht, -, hrest⟩ := hback.run (Cursor.start source t.render none) rfl rfl
  rw [← hread] at hrun
  rw [hrun] at hlooks
  exact ⟨t', c', hrun, hlooks, List.map_eq_nil_iff.1 hrest, ht⟩

/-- A type that the parser returns in a scope is printed so that the text is read in that scope to
its end and gives the type, up to the places where its parts are written, provided that neither a
mark stands behind a symbol that could take it nor a key of a record is a marked symbol. -/
theorem readType_render {vars : List String} {t : TypeExpr} (h : Parser.Returned vars t)
    (hplain : ∀ u ∈ t.nodes, u.isGarbled = false) (source : SourceId) :
    ∃ t' c', readType vars source t.render = .ok t' c' ∧ c'.mostLooks ≤ lookBudget ∧
      c'.rest = [] ∧ t'.withoutSpans = t.withoutSpans :=
  readType_of_printable (fun u hu => ⟨h.spelled u hu, hplain u hu⟩) source

/-- Behind a symbol the mark of an optional is read as that of the symbol. -/
example : (match readType [] 0 (TypeExpr.optional (.literal (.symbol "a"))).render with
    | .ok (.literal (.symbol name)) _ => name == "a?"
    | _ => false) = true := by
  decide +kernel

/-- A proc that is not written as it is printed. -/
def callbackText : String := "^(?T, *Foo others, key: ((:a) | bool)?) ?\x7b -> T \x7d -> ([T])"

set_option maxRecDepth 100000 in
/-- The proc is read from its text, printed and read back. -/
theorem readType_render_callback : ∃ t c, readType ["T"] 0 callbackText = .ok t c ∧
    t.render = "^(?T, *Foo others, key: (:a | bool)?) ?\x7b () -> T \x7d -> [T]" ∧
    (∀ u ∈ t.nodes, u.isGarbled = false) ∧
    ∃ t' c', readType ["T"] 0 t.render = .ok t' c' ∧ c'.mostLooks ≤ lookBudget ∧
      c'.rest = [] ∧ t'.withoutSpans = t.withoutSpans := by
  have hread : (match readType ["T"] 0 callbackText with
      | .ok t _ => t.render == "^(?T, *Foo others, key: (:a | bool)?) ?\x7b () -> T \x7d -> [T]" &&
          t.nodes.all fun u => u.isGarbled == false
      | .error _ _ => false) = true := by
    decide +kernel
  cases hrun : readType ["T"] 0 callbackText with
  | error stop c =>
    rw [hrun] at hread
    cases hread
  | ok t c =>
    rw [hrun] at hread
    obtain ⟨hrender, hnodes⟩ := Bool.and_eq_true_iff.1 hread
    have hplain : ∀ u ∈ t.nodes, u.isGarbled = false := fun u hu =>
      beq_iff_eq.1 (List.all_eq_true.1 hnodes u hu)
    exact ⟨t, c, rfl, beq_iff_eq.1 hrender, hplain, readType_render
      ⟨callbackText, _, _, c, List.suffix_refl _, Or.inl hrun⟩ hplain 0⟩

end RubySig
