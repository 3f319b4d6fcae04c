import RubySig.Proofs.Parser.SyntaxErrors

/-!
# The grammar is never at fault

Whatever the text, no rule takes a lexeme behind the last one, none is entered on another lexeme
than its own first one, every repetition ends, and the budget of looks is never used up.  So a run
without a step budget reads the text, or it stops at a syntax error or at the recursion limit.

* `Parser.Faultless`: a run of a rule without a fault.
* `faultless_runFile`: every run of the grammar over a text.
* `runFile_faultless`: the outcomes of reading a text.
-/

namespace RubySig

/-- A run does nothing that no text should make it do. -/
structure Parser.Faultless {α : Type} (r : EStateM.Result Stop Cursor α) : Prop where
  /-- No fault stops it. -/
  stop : ∀ f c, r ≠ .error (.fault f) c
  /-- It does not use up the looks that it has between two lexemes or levels. -/
  looks : (Parser.cursorOf r).mostLooks < lookBudget

section Runs

variable (source : SourceId) (text : String)

/-- Without a limit a text is read or has a syntax error. -/
theorem runFile_unlimited : (∃ ds c, runFile .unlimited source text = .ok ds c) ∨
    ∃ message range c, runFile .unlimited source text = .error (.syntaxError message range) c := by
  have hblames := Parser.file_blames (c := Cursor.start source text none) rfl
    (Nat.le_succ (Lexeme.ofText text).length)
  rcases hblames with ⟨ds, c, hrun⟩ | ⟨message, c, _, _, _, hrun, -⟩
  · exact Or.inl ⟨ds, c, hrun⟩
  · exact Or.inr ⟨message, _, c, hrun⟩

/-- A recursion limit adds an outcome to those without it. -/
theorem runFile_outcomes (recursion : Option Nat) :
    (∃ ds c, runFile ⟨none, recursion⟩ source text = .ok ds c) ∨
    (∃ message range c,
      runFile ⟨none, recursion⟩ source text = .error (.syntaxError message range) c) ∨
    ∃ c, runFile ⟨none, recursion⟩ source text = .error .recursionLimitExceeded c ∧
      ∃ d, recursion = some d ∧ d < levelsOpened (runFile .unlimited source text) := by
  have hfree := runFile_unlimited source text
  cases recursion with
  | none => exact hfree.imp_right Or.inl
  | some d =>
    rcases runFile_recursion source text d with ⟨-, hsame⟩ | ⟨hlt, c, hlimited⟩
    · rw [hsame]
      exact hfree.imp_right Or.inl
    · exact Or.inr (Or.inr ⟨c, hlimited, d, rfl, hlt⟩)

theorem faultless_runFile (recursion : Option Nat) :
    Parser.Faultless (runFile ⟨none, recursion⟩ source text) where
  stop f c hfault := by
    rcases runFile_outcomes source text recursion with ⟨_, _, h⟩ | ⟨_, _, _, h⟩ | ⟨_, h, -⟩ <;>
      cases hfault.symm.trans h
  looks := mostLooks_runFile _ source text

/-- A run over any text without a step budget, with any recursion limit or without one, has no
fault and keeps to its looks.  It ends with what is read, with one syntax error and nothing read, or
with the recursion limit, if the text opens more levels than that. -/
theorem runFile_faultless (recursion : Option Nat) :
    Parser.Faultless (runFile ⟨none, recursion⟩ source text) ∧
    ((∃ ds, parseSource ⟨none, recursion⟩ source text = .ok (ds, [])) ∨
      (∃ message range, parseSource ⟨none, recursion⟩ source text =
        .ok ([], [⟨.syntaxError message, ⟨source, range⟩⟩])) ∨
      parseSource ⟨none, recursion⟩ source text = .error .recursionLimitExceeded ∧
        ∃ d, recursion = some d ∧ d < levelsOpened (runFile .unlimited source text)) := by
  refine ⟨faultless_runFile source text recursion, ?_⟩
  rw [parseSource_eq]
  rcases runFile_outcomes source text recursion with
    ⟨ds, _, h⟩ | ⟨message, range, _, h⟩ | ⟨_, h, hlimit⟩
  · exact Or.inl ⟨ds, congrArg (outcome source) h⟩
  · exact Or.inr (Or.inl ⟨message, range, congrArg (outcome source) h⟩)
  · exact Or.inr (Or.inr ⟨congrArg (outcome source) h, hlimit⟩)

end Runs

end RubySig
