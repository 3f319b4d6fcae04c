import RubySig.Proofs.Parser.Budgets
import RubySig.Proofs.Parser.Completion
import RubySig.Proofs.Parser.FileBlames

/-!
# Syntax errors

A text is read to its end, or it has one syntax error and no declarations.  The error blames the
first lexeme that cannot stand where it stands, or the end of the text: what is in front of it can
be completed to a text without errors.

* `Parser.rest_of_file`: a file that is read is read to its end.
* `Parser.exists_completion`: a completion of what is in front of an error.
* `parseSource_reads_or_blames`: the outcome of reading a text without budgets.
-/

namespace RubySig

namespace Parser

/-- A file that is read is read to its end. -/
theorem rest_of_file {levels : Nat} {c c' : Cursor} {ds : List Declaration}
    (h : file levels c = .ok ds c') : c'.rest = [] := by
  induction hlength : c.rest.length using Nat.strong_induction_on generalizing c c' ds with
  | _ n ih =>
    rw [file_eq, fileRound] at h
    obtain ⟨ended, d, hended, h⟩ := exists_of_bind_eq_ok h
    obtain ⟨rfl, rfl⟩ : c.rest.isEmpty = ended ∧ c = d := by cases hended; exact ⟨rfl, rfl⟩
    cases hrest : c.rest.isEmpty with
    | true =>
      rw [hrest] at h
      cases h
      exact List.isEmpty_iff.1 hrest
    | false =>
      rw [hrest] at h
      obtain ⟨first, d, hfirst, h⟩ := exists_of_bind_eq_ok h
      obtain ⟨others, e, hothers, h⟩ := exists_of_bind_eq_ok h
      have hshort := shortens_declaration levels c first d hfirst
      have hend := ih d.rest.length (by omega) hothers rfl
      cases h
      exact hend

/-- Where more levels may be opened than there are lexemes, a file is read or has a syntax error.
What is in front of the error can be completed, also if it is nothing. -/
theorem file_blames {levels : Nat} {c : Cursor} (hfuel : c.fuel = none)
    (hlevels : c.rest.length ≤ levels) :
    (∃ ds d, file levels c = .ok ds d) ∨ ∃ message d us rest w,
      file levels c = .error (.syntaxError message (rangeAt { c with rest })) d ∧
      c.rest = us ++ rest ∧ (∀ l ∈ us, l.kind ≠ .garbage) ∧
      ∀ ls e, faces ls = shown w → e.rest = us ++ ls → Twin c e → Finishes (file levels e) := by
  have hviable := file_viable levels (Nat.lt_succ_of_le hlevels) (k := Pure.pure)
    fun _ => ⟨.pure _, fun _ _ => .pure _⟩
  rw [bind_pure] at hviable
  have hblamed := hviable.blames (faces c.rest) (by rw [faces, List.length_map]) c hfuel rfl
  cases hrun : file levels c with
  | ok ds d => exact Or.inl ⟨ds, d, rfl⟩
  | error stop d =>
    rw [hrun] at hblamed
    cases stop with
    | syntaxError message range =>
      obtain hblamed : Blame _ True (file levels) c range := hblamed
      refine Or.inr ⟨message, d, ?_⟩
      cases hblamed with
      | here =>
        refine ⟨[], c.rest, [], rfl, rfl, fun _ hl => absurd hl List.not_mem_nil,
          fun ls e hls he htwin => hviable.accepts e htwin.fuel ?_⟩
        rw [he]
        exact hls
      | @after l u v w hrest hclean _ hfinishes =>
        exact ⟨l :: u, v, w, rfl, hrest, hclean, hfinishes⟩
    | recursionLimitExceeded => exact hblamed.elim
    | execFuelExhausted => exact hblamed.elim
    | fault f => exact hblamed.elim

end Parser

theorem Parser.Finishes.exists_ok {α : Type} {r : EStateM.Result Stop Cursor α}
    (h : Parser.Finishes r) : ∃ a c, r = .ok a c := by
  cases r with
  | ok a c => exact ⟨a, c, rfl⟩
  | error stop c => exact h.elim

/-- What is read with enough levels is read without a limit, too. -/
theorem parseSource_unlimited_of_ok {source : SourceId} {text : String} {d : Nat}
    {ds : List Declaration} {c : Cursor} (h : runFile ⟨none, some d⟩ source text = .ok ds c) :
    parseSource .unlimited source text = .ok (ds, []) := by
  have hlimited := parseSource_recursion source text d
  rw [parseSource_eq, h, outcome] at hlimited
  split at hlimited
  · cases hlimited
  · exact hlimited.symm

/-- Without budgets a text is read to its end, or it has one syntax error and no declarations.  The
error blames one token or the end of the text, and the text up to the token in front of it is the
beginning of a text without errors. -/
theorem parseSource_reads_or_blames (source : SourceId) (text : String) :
    (∃ ds c, runFile .unlimited source text = .ok ds c ∧ c.rest = [] ∧
      parseSource .unlimited source text = .ok (ds, [])) ∨
    ∃ message range,
      parseSource .unlimited source text =
        .ok ([], [⟨.syntaxError message, ⟨source, range⟩⟩]) ∧
      (range ∈ Token.ranges text ∨ range = .emptyAt text.utf8ByteSize) ∧
      ∃ taken left suffix ds, text = taken ++ left ∧
        taken.utf8ByteSize = Token.endBefore text range.start ∧
        parseSource .unlimited source (taken ++ suffix) = .ok (ds, []) := by
  have hlexemes : (Cursor.start source text none).rest = Lexeme.ofText text := rfl
  have hparse := parseSource_eq .unlimited source text
  have hblames := Parser.file_blames (c := Cursor.start source text none) rfl
    (Nat.le_succ (Lexeme.ofText text).length)
  rcases hblames with ⟨ds, d, hrun⟩ | ⟨message, d, us, rest, w, hrun, hrest, hclean, hfinishes⟩
  · have hrunFile : runFile .unlimited source text = .ok ds d := hrun
    rw [hrunFile] at hparse
    exact Or.inl ⟨ds, d, hrunFile, Parser.rest_of_file hrun, hparse⟩
  · have hrunFile : runFile .unlimited source text = .error (.syntaxError message _) d := hrun
    rw [hrunFile] at hparse
    rw [hlexemes] at hrest
    obtain ⟨taken, left, ls, hsplit, hlength, hcompleted, hfaces⟩ :=
      lexemes_completed hrest hclean w
    have hfinished := hfinishes ls
      (Cursor.start source (taken ++ String.ofList (completionText w)) none) hfaces hcompleted
      ⟨rfl, rfl, rfl⟩
    obtain ⟨ds, e, hread⟩ := hfinished.exists_ok
    refine Or.inr ⟨message, _, hparse, ?_, taken, left, String.ofList (completionText w), ds,
      hsplit, ?_, parseSource_unlimited_of_ok hread⟩
    · cases rest with
      | nil => exact Or.inr rfl
      | cons l rest =>
        refine Or.inl ?_
        rw [Token.ranges_eq, hrest]
        exact List.mem_map_of_mem (List.mem_append_right _ List.mem_cons_self)
    · rw [hlength, ← Token.endBefore_eq hrest]
      rfl

end RubySig
