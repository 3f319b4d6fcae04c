import RubySig.Proofs.Parser.BodyCut

/-!
# Budgets only cut

A budget of the parser never changes what is read.  As long as a text stays within it the outcome is
that without the budget, and otherwise the only outcome is that the budget is used up.

* `lexemesTaken`, `levelsOpened`: what a run needs.
* `mostLooks_runFile`, `levelsOpened_runFile`: a run never looks too often, and without a limit it
  never runs out of levels.
* `parseSource_eq`: the outcome of a run.
* `runFile_recursion`: a run with a recursion limit.
* `parseSource_budgets`: the outcome with a step budget and with a recursion limit.
-/

namespace RubySig

/-! ## What a run needs -/

/-- How many lexemes of a text a run takes. -/
def lexemesTaken {α : Type} (text : String) (r : EStateM.Result Stop Cursor α) : Nat :=
  (Lexeme.ofText text).length - (Parser.cursorOf r).rest.length

/-- How many levels are open at once in a run. -/
def levelsOpened {α : Type} (r : EStateM.Result Stop Cursor α) : Nat := (Parser.cursorOf r).deepest

section Runs

variable (limits : Limits) (source : SourceId) (text : String)

theorem runFile_eq (fuel recursion : Option Nat) : runFile ⟨fuel, recursion⟩ source text =
    Parser.file (recursion.getD ((Lexeme.ofText text).length + 1))
      (Cursor.start source text fuel) :=
  rfl

/-- A run never looks so often at a lexeme that the budget for it is used up. -/
theorem mostLooks_runFile :
    (Parser.cursorOf (runFile limits source text)).mostLooks < lookBudget :=
  ((Parser.cut_file (le_refl _)).mostLooks_le (Nat.zero_le 0) (Nat.zero_le _)).trans_lt
    Parser.lookBound_lt

/-- A run opens no more levels than there are lexemes, but for the first level. -/
theorem levelsOpened_runFile :
    levelsOpened (runFile limits source text) ≤ (Lexeme.ofText text).length + 1 := by
  refine (Parser.cut_file (le_refl _)).deepest_le ?_ (Nat.zero_le _)
  show 0 + (Lexeme.ofText text).length + 1 ≤ _
  omega

end Runs

/-! ## Outcomes -/

/-- The outcome of a run. -/
def outcome (source : SourceId) : EStateM.Result Stop Cursor (List Declaration) →
    Except Failure (List Declaration × List Diagnostic)
  | .ok declarations _ => .ok (declarations, [])
  | .error (.syntaxError message range) _ =>
    .ok ([], [⟨.syntaxError message, ⟨source, range⟩⟩])
  | .error .execFuelExhausted _ => .error .execFuelExhausted
  | .error .recursionLimitExceeded _ => .error .recursionLimitExceeded
  | .error (.fault f) _ => .error (.fault f)

theorem parseSource_eq (limits : Limits) (source : SourceId) (text : String) :
    parseSource limits source text = outcome source (runFile limits source text) := by
  have hlooks := (mostLooks_runFile limits source text).le
  rw [parseSource]
  cases hrun : runFile limits source text with
  | ok declarations c =>
    rw [hrun] at hlooks
    exact if_pos hlooks
  | error stop c =>
    rw [hrun] at hlooks
    cases stop <;> exact if_pos hlooks

/-- The outcome says nothing about the cursor. -/
theorem outcome_mapCursor (source : SourceId) (f : Cursor → Cursor)
    (r : EStateM.Result Stop Cursor (List Declaration)) :
    outcome source (Parser.mapCursor f r) = outcome source r := by
  cases r with
  | ok _ _ => rfl
  | error stop _ => cases stop <;> rfl

/-! ## Budgets -/

section Budgets

variable (source : SourceId) (text : String)

theorem parseSource_execFuel (recursion : Option Nat) (n : Nat) :
    parseSource ⟨some n, recursion⟩ source text =
      if n < lexemesTaken text (runFile ⟨none, recursion⟩ source text) then
        .error .execFuelExhausted
      else parseSource ⟨none, recursion⟩ source text := by
  have hlength : (Cursor.start source text none).rest.length = (Lexeme.ofText text).length := rfl
  have hcut := Parser.cut_file (le_refl (recursion.getD ((Lexeme.ofText text).length + 1)))
  have hspends := hcut.spends (c := Cursor.start source text none) rfl n
  rw [parseSource_eq, parseSource_eq, lexemesTaken, runFile_eq, runFile_eq]
  rcases hspends with ⟨left, hleft, hlimited⟩ | ⟨hlt, c', hlimited⟩
  · rw [if_neg (by omega)]
    exact (congrArg (outcome source) hlimited).trans (outcome_mapCursor source _ _)
  · rw [if_pos (by omega)]
    exact congrArg (outcome source) hlimited

/-- With a recursion limit a run goes as without it, or it opens more levels and stops at the
limit. -/
theorem runFile_recursion (d : Nat) :
    levelsOpened (runFile .unlimited source text) ≤ d ∧
      runFile ⟨none, some d⟩ source text = runFile .unlimited source text ∨
    d < levelsOpened (runFile .unlimited source text) ∧
      ∃ c, runFile ⟨none, some d⟩ source text = .error .recursionLimitExceeded c := by
  have hfree := levelsOpened_runFile .unlimited source text
  have hbounded := levelsOpened_runFile ⟨none, some d⟩ source text
  rw [Limits.unlimited, runFile_eq] at hfree ⊢
  rw [runFile_eq] at hbounded ⊢
  rw [Option.getD_some] at hbounded ⊢
  rw [Option.getD_none] at hfree ⊢
  rcases Nat.le_total d ((Lexeme.ofText text).length + 1) with hle | hle
  · have hdescends := (Parser.cut_file hle).descends (c := Cursor.start source text none)
      (Nat.zero_le _)
    rcases hdescends with ⟨hopened, hsame⟩ | ⟨hopened, hlimited⟩
    · exact Or.inl ⟨by simpa [levelsOpened, Cursor.start] using hopened, hsame⟩
    · exact Or.inr ⟨by simpa [levelsOpened, Cursor.start] using hopened, hlimited⟩
  · -- the run without a limit has enough levels, so more of them make no difference
    have hdescends := (Parser.cut_file hle).descends (c := Cursor.start source text none)
      (Nat.zero_le _)
    rcases hdescends with ⟨-, hsame⟩ | ⟨hopened, -⟩
    · exact Or.inl ⟨hfree.trans hle, hsame.symm⟩
    · refine absurd hopened (Nat.not_lt.2 ?_)
      simpa [levelsOpened, Cursor.start] using hbounded

theorem parseSource_recursion (d : Nat) :
    parseSource ⟨none, some d⟩ source text =
      if d < levelsOpened (runFile .unlimited source text) then .error .recursionLimitExceeded
      else parseSource .unlimited source text := by
  rw [parseSource_eq, parseSource_eq]
  rcases runFile_recursion source text d with ⟨hle, hsame⟩ | ⟨hlt, c, hlimited⟩
  · rw [if_neg (Nat.not_lt.2 hle), hsame]
  · rw [if_pos hlt, hlimited]
    rfl

end Budgets

end RubySig
