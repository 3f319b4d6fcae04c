import RubySig.Proofs.Parser.KeyAgreement
import RubySig.Proofs.Parser.RoundTrip

/-!
# What printing tells of a type

The text of a type is the text of its normal form, in which symbols have taken the marks behind
them, and it tells the normal form.  The grammar reads it unless a key of a record is the name of a
symbol with a mark: in front of a colon such a name is no key.

* `render_eq_iff`: when two types are printed alike.
* `readType_render_iff`: when a printed type is read.
-/

namespace RubySig

/-! ## Types with one text -/

/-- Two types that the parser returns in a scope are printed alike if and only if they have one
normal form, up to the places where their parts are written.  Types without optionals of symbols
that have no mark are printed alike only if they are the same up to these places. -/
theorem render_eq_iff {vars : List String} {t u : TypeExpr} (ht : Parser.Returned vars t)
    (hu : Parser.Returned vars u) :
    (t.render = u.render ↔ t.glued.withoutSpans = u.glued.withoutSpans) ∧
      ((∀ v ∈ t.nodes, v.takesMark = false) → (∀ v ∈ u.nodes, v.takesMark = false) →
        (t.render = u.render ↔ t.withoutSpans = u.withoutSpans)) := by
  have hglued : t.render = u.render ↔ t.glued.withoutSpans = u.glued.withoutSpans := by
    constructor
    · -- one text is read in one way
      intro htext
      obtain ⟨levels, hlt, hlu⟩ : ∃ levels, 2 * sizeOf t.glued < levels ∧
          2 * sizeOf u.glued < levels :=
        ⟨2 * sizeOf t.glued + 2 * sizeOf u.glued + 1, by omega, by omega⟩
      obtain ⟨t', c, hrun, -, ht'⟩ := Parser.typeWith_printedKey ht.spelled hlt 0
      obtain ⟨u', d, hrun', -, hu'⟩ := Parser.typeWith_printedKey hu.spelled hlu 0
      rw [htext] at hrun
      obtain ⟨rfl, -⟩ := EStateM.Result.ok.inj (hrun.symm.trans hrun')
      exact ht'.symm.trans hu'
    · intro hsame
      calc
        t.render = t.glued.withoutSpans.render := by
          rw [TypeExpr.render_withoutSpans, TypeExpr.render_glued]
        _ = u.glued.withoutSpans.render := by rw [hsame]
        _ = u.render := by rw [TypeExpr.render_withoutSpans, TypeExpr.render_glued]
  refine ⟨hglued, fun htmarks humarks => ?_⟩
  rw [hglued, TypeExpr.glued_eq_self htmarks, TypeExpr.glued_eq_self humarks]

/-- A type that is read from a whole text and passes a check. -/
theorem exists_of_readType (vars : List String) (text : String) (check : TypeExpr → Bool)
    (h : (match readType vars 0 text with
      | .ok t c => c.rest.isEmpty && check t
      | .error _ _ => false) = true) :
    ∃ t c, readType vars 0 text = .ok t c ∧ c.rest = [] ∧ Parser.Returned vars t ∧
      check t = true := by
  cases hrun : readType vars 0 text with
  | error stop c =>
    rw [hrun] at h
    cases h
  | ok t c =>
    rw [hrun] at h
    obtain ⟨hend, hcheck⟩ := Bool.and_eq_true_iff.1 h
    exact ⟨t, c, rfl, List.isEmpty_iff.1 hend,
      ⟨text, _, _, c, List.suffix_refl _, Or.inl hrun⟩, hcheck⟩

/-- The optional of a symbol has one normal form with the marked symbol, and a type in parentheses
is the type. -/
theorem render_eq_iff_optional :
    (∃ t u, Parser.Returned [] t ∧ Parser.Returned [] u ∧ t.render = u.render ∧
      t.nodes.length ≠ u.nodes.length ∧ t.glued.withoutSpans = u.glued.withoutSpans) ∧
    ∃ t u, Parser.Returned [] t ∧ Parser.Returned [] u ∧ t.render = u.render ∧
      (∀ v ∈ t.nodes, v.takesMark = false) ∧ (∀ v ∈ u.nodes, v.takesMark = false) ∧
      t.withoutSpans = u.withoutSpans := by
  constructor
  · obtain ⟨t, -, -, -, ht, htcheck⟩ := exists_of_readType [] ":a?"
      (fun t => t.render == ":a?" && t.nodes.length == 1) (by decide +kernel)
    obtain ⟨u, -, -, -, hu, hucheck⟩ := exists_of_readType [] "(:a)?"
      (fun u => u.render == ":a?" && u.nodes.length == 2) (by decide +kernel)
    simp only [Bool.and_eq_true, beq_iff_eq] at htcheck hucheck
    have htext : t.render = u.render := htcheck.1.trans hucheck.1.symm
    exact ⟨t, u, ht, hu, htext, by omega, (render_eq_iff ht hu).1.1 htext⟩
  · obtain ⟨t, -, -, -, ht, htcheck⟩ := exists_of_readType [] "Foo?"
      (fun t => t.render == "Foo?" && t.nodes.all fun v => !v.takesMark) (by decide +kernel)
    obtain ⟨u, -, -, -, hu, hucheck⟩ := exists_of_readType [] "(Foo) ?"
      (fun u => u.render == "Foo?" && u.nodes.all fun v => !v.takesMark) (by decide +kernel)
    simp only [Bool.and_eq_true, beq_iff_eq, List.all_eq_true, Bool.not_eq_true'] at htcheck hucheck
    have htext : t.render = u.render := htcheck.1.trans hucheck.1.symm
    exact ⟨t, u, ht, hu, htext, htcheck.2, hucheck.2,
      ((render_eq_iff ht hu).2 htcheck.2 hucheck.2).1 htext⟩

/-- A marked symbol and an optional of the symbol without the mark are different types that are
printed alike. -/
theorem symbol_mark_conflated : ∃ t c u d, readType [] 0 ":a?" = .ok t c ∧ c.rest = [] ∧
    readType [] 0 "(:a)?" = .ok u d ∧ d.rest = [] ∧
    Parser.Returned [] t ∧ Parser.Returned [] u ∧ t.render = u.render ∧
      t.withoutSpans ≠ u.withoutSpans := by
  obtain ⟨t, c, hrun, hend, ht, htcheck⟩ := exists_of_readType [] ":a?"
    (fun t => t.render == ":a?" && t.withoutSpans.nodes.length == 1) (by decide +kernel)
  obtain ⟨u, d, hrun', hend', hu, hucheck⟩ := exists_of_readType [] "(:a)?"
    (fun u => u.render == ":a?" && u.withoutSpans.nodes.length == 2) (by decide +kernel)
  simp only [Bool.and_eq_true, beq_iff_eq] at htcheck hucheck
  refine ⟨t, c, u, d, hrun, hend, hrun', hend', ht, hu, htcheck.1.trans hucheck.1.symm, ?_⟩
  intro hsame
  rw [hsame] at htcheck
  omega

/-! ## Printed types that are read -/

/-- The text of a type that the parser returns in a scope is read in that scope if and only if no
key of a record in it is the name of a symbol with a mark.  Then it is read to its end, and what is
read is the normal form of the type, up to the places where its parts are written. -/
theorem readType_render_iff {vars : List String} {t : TypeExpr} (h : Parser.Returned vars t)
    (source : SourceId) :
    ((∃ t' c', readType vars source t.render = .ok t' c' ∧ c'.mostLooks ≤ lookBudget ∧
      c'.rest = []) ↔ t.NoMarkedKey) ∧
    ∀ t' c', readType vars source t.render = .ok t' c' →
      c'.rest = [] ∧ t'.withoutSpans = t.glued.withoutSpans ∧ t.NoMarkedKey := by
  have hread : ∀ t' c', readType vars source t.render = .ok t' c' →
      c'.rest = [] ∧ t'.withoutSpans = t.glued.withoutSpans ∧ t.NoMarkedKey := by
    intro t' c' hrun
    obtain ⟨levels, hlength, hsize⟩ : ∃ levels, (Lexeme.ofText t.render).length + 1 ≤ levels ∧
        2 * sizeOf t.glued < levels :=
      ⟨(Lexeme.ofText t.render).length + 1 + (2 * sizeOf t.glued + 1), Nat.le_add_right _ _,
        by omega⟩
    rw [(readType_eq vars source t.render hlength).1,
      ← (Parser.typeWith_recordKey vars levels).1] at hrun
    obtain ⟨u, d, hrun', hend, hu⟩ := Parser.typeWith_printedKey h.spelled hsize source
    have hproper : ∀ l ∈ (Cursor.start source t.render none).rest, l.Proper :=
      fun l hl => Lexeme.spells_of_mem_ofText hl
    -- the grammar agrees with the one that reads every printed type
    obtain ⟨⟨rfl, rfl⟩, -, hplain⟩ := (Parser.agree_typeWith Parser.agree_printedKey vars levels).1
      _ t' u c' d hproper hrun hrun'
    refine ⟨hend, hu, ?_⟩
    rwa [← TypeExpr.noMarkedKey_glued_iff, ← TypeExpr.noMarkedKey_withoutSpans_iff, ← hu,
      TypeExpr.noMarkedKey_withoutSpans_iff]
  refine ⟨⟨fun ⟨t', c', hrun, _, _⟩ => (hread t' c' hrun).2.2, fun hplain => ?_⟩, hread⟩
  have hprintable : t.glued.Printable vars := by
    refine fun u hu => ⟨h.spelled.glued u hu, ?_⟩
    rw [TypeExpr.isGarbled_eq, t.takesMark_of_mem_glued u hu,
      t.noMarkedKey_glued_iff.2 hplain u hu]
    rfl
  obtain ⟨t', c', hrun, hlooks, hend, -⟩ := readType_of_printable hprintable source
  rw [t.render_glued] at hrun
  exact ⟨t', c', hrun, hlooks, hend⟩

/-- A record with a symbol, a quoted text and an optional symbol. -/
def choiceText : String := "\x7b :a => Foo[T], \"b\" => (:c)? \x7d"

/-- The text of the record is read. -/
theorem readType_render_choice : ∃ t, Parser.Returned ["T"] t ∧
    t.render = "\x7b a: Foo[T], \"b\" => :c? \x7d" ∧ t.NoMarkedKey ∧
    ∃ t' c', readType ["T"] 0 t.render = .ok t' c' ∧ c'.mostLooks ≤ lookBudget ∧ c'.rest = [] := by
  obtain ⟨t, -, -, -, ht, hcheck⟩ := exists_of_readType ["T"] choiceText
    (fun t => t.render == "\x7b a: Foo[T], \"b\" => :c? \x7d" &&
      t.nodes.all fun u => !u.hasMarkedKey) (by decide +kernel)
  simp only [Bool.and_eq_true, beq_iff_eq, List.all_eq_true, Bool.not_eq_true'] at hcheck
  exact ⟨t, ht, hcheck.1, hcheck.2, (readType_render_iff ht 0).1.2 hcheck.2⟩

/-- A record with a marked symbol as a key is printed so that the text is not read. -/
theorem marked_key_unread : ∃ t c, readType [] 0 "\x7b :a? => Foo \x7d" = .ok t c ∧ c.rest = [] ∧
    Parser.Returned [] t ∧ t.render = "\x7b a?: Foo \x7d" ∧
      ∀ t' c', readType [] 0 t.render ≠ .ok t' c' := by
  obtain ⟨t, c, hrun, hend, ht, hcheck⟩ := exists_of_readType [] "\x7b :a? => Foo \x7d"
    (fun t => t.render == "\x7b a?: Foo \x7d") (by decide +kernel)
  have htext : t.render = "\x7b a?: Foo \x7d" := beq_iff_eq.1 hcheck
  have hstops : (match readType [] 0 "\x7b a?: Foo \x7d" with
      | .ok _ _ => false
      | .error _ _ => true) = true := by
    decide +kernel
  refine ⟨t, c, hrun, hend, ht, htext, fun t' c' hrun' => ?_⟩
  rw [htext] at hrun'
  rw [hrun'] at hstops
  cases hstops

end RubySig
