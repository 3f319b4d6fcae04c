import RubySig.Proofs.Layout.SameLayout
import RubySig.Proofs.Parser.Blames
import RubySig.Proofs.Token.Borders

/-!
# Completed texts

A text that is cut off behind a lexeme and then completed has the lexemes up to there and those of
the completion.

* `Filler.pieces`, `completionText`: how a completion is written.
* `Lexeme.exists_split`: the pieces up to a lexeme.
* `faces_completion`, `lexemes_completed`: the lexemes of a completion and of a completed text.
* `Token.endBefore`: where the last token in front of an offset ends.
-/

namespace RubySig

/-! ## Writing a completion -/

/-- What a lexeme is written with, each but a touching one on a line of its own. -/
def Filler.pieces (f : Filler) : List (TokenKind × List Char) :=
  if f.onNewLine then [(.newline, ['\n']), (f.kind, f.text.toList)] else [(f.kind, f.text.toList)]

/-- The characters of a completion. -/
def completionText (w : List Filler) : List Char := ((w.flatMap Filler.pieces).map (·.2)).flatten

theorem completionText_cons (f : Filler) (w : List Filler) :
    completionText (f :: w) = (f.pieces.map (·.2)).flatten ++ completionText w := by
  rw [completionText, List.flatMap_cons, List.map_append, List.flatten_append, completionText]

/-- Every lexeme is a token in front of the next one. -/
theorem Filler.spells (f : Filler) : f.kind.Spells f.text.toList ∧ f.kind ≠ .garbage ∧
    f.kind ≠ .comment ∧ f.kind.isTrivia = false := by
  cases f <;> decide +kernel

/-- Only a touching lexeme is not on a line of its own. -/
theorem Filler.eq_touching {f : Filler} (h : f.onNewLine = false) : f = .touching := by
  cases f <;> first | rfl | cases h

theorem breaks_completionText (w : List Filler) : ∀ d ∈ (completionText w).head?, Breaks d := by
  cases w with
  | nil => exact nofun
  | cons f w =>
    rw [completionText_cons, Filler.pieces]
    cases hline : f.onNewLine with
    | true =>
      intro d hd
      exact Or.inl (Option.some.inj hd).symm
    | false =>
      obtain rfl := f.eq_touching hline
      have hbracket : Filler.touching.text.toList = [']'] := by decide
      intro d hd
      rw [if_neg Bool.false_ne_true, List.map_singleton, List.flatten_singleton, hbracket] at hd
      exact Or.inr (Option.some.inj hd).symm

/-- A lexeme of a completion is a piece of its own. -/
theorem cut_filler (f : Filler) (w : List Filler) :
    cut tokenRules (f.text.toList ++ completionText w) =
      (f.kind, f.text.toList) :: cut tokenRules (completionText w) := by
  obtain ⟨hspells, hgarbage, hcomment, -⟩ := f.spells
  exact cut_append hspells hgarbage fun d hd =>
    (hspells.unread hcomment (breaks_completionText w d hd)).advance_eq_nil

theorem cut_completionText (w : List Filler) :
    cut tokenRules (completionText w) = w.flatMap Filler.pieces := by
  induction w with
  | nil =>
    rw [completionText, List.flatMap_nil, List.map_nil, List.flatten_nil, cut, cutRaw]
    rfl
  | cons f w ih =>
    rw [completionText_cons, List.flatMap_cons, ← ih, Filler.pieces]
    cases f.onNewLine with
    | true =>
      have hspells : TokenKind.newline.Spells ['\n'] := by decide
      have hopen : OpenTo noChar ['\n'] := by decide
      have hstops : Stops ['\n'] (f.text.toList ++ completionText w) :=
        hopen.stops fun _ _ => rfl
      have hline := cut_append hspells (by decide) hstops
      rw [cut_filler] at hline
      rw [if_pos rfl]
      simpa using hline
    | false =>
      rw [if_neg Bool.false_ne_true]
      simpa using cut_filler f w

/-- The lexemes of a completion look like it. -/
theorem faces_completion (w : List Filler) (offset : Nat) :
    faces (Lexeme.collect false false (place offset (w.flatMap Filler.pieces))) = shown w := by
  have htext : ∀ f : Filler, String.ofList f.text.toList = f.text := fun _ => String.ofList_toList
  induction w generalizing offset with
  | nil => rfl
  | cons f w ih =>
    have hkind : f.kind.isTrivia = false := f.spells.2.2.2
    rw [List.flatMap_cons, Filler.pieces, shown, List.map_cons, ← shown, Filler.face]
    cases f.onNewLine with
    | true =>
      rw [if_pos rfl]
      simp only [List.cons_append, List.nil_append, place, Lexeme.collect, htext, hkind]
      exact congrArg _ (ih _)
    | false =>
      rw [if_neg Bool.false_ne_true]
      simp only [List.cons_append, List.nil_append, place, Lexeme.collect, htext, hkind]
      exact congrArg _ (ih _)

/-! ## Cutting a text off -/

/-- The pieces of a text up to one of its lexemes, which is the last of them. -/
theorem Lexeme.exists_split {spaced onNewLine : Bool} {offset : Nat}
    {pieces : List (TokenKind × List Char)} {ls rest : List Lexeme} (hne : ls ≠ [])
    (h : collect spaced onNewLine (place offset pieces) = ls ++ rest) :
    ∃ ps qs, pieces = ps ++ qs ∧ (∃ p, ps.getLast? = some p ∧ p.1.isTrivia = false) ∧
      (∀ more, collect spaced onNewLine (place offset (ps ++ more)) =
        ls ++ collect false false (place (offset + byteLength (ps.map (·.2)).flatten) more)) ∧
      ls.getLast?.map (·.range.stop) = some (offset + byteLength (ps.map (·.2)).flatten) := by
  induction pieces generalizing spaced onNewLine offset ls with
  | nil =>
    exact absurd (List.append_eq_nil_iff.1 h.symm).1 hne
  | cons p pieces ih =>
    obtain ⟨kind, piece⟩ := p
    have hlength : ∀ ps : List (TokenKind × List Char),
        offset + byteLength (((kind, piece) :: ps).map (·.2)).flatten =
          offset + byteLength piece + byteLength (ps.map (·.2)).flatten := fun ps => by
      rw [List.map_cons, List.flatten_cons, byteLength_append, Nat.add_assoc]
    rw [place, collect] at h
    cases htrivia : kind.isTrivia with
    | true =>
      rw [if_pos htrivia] at h
      obtain ⟨ps, qs, rfl, ⟨p, hp, hkind⟩, hmore, hstop⟩ := ih hne h
      refine ⟨(kind, piece) :: ps, qs, rfl, ⟨p, ?_, hkind⟩, fun more => ?_, ?_⟩
      · rw [List.getLast?_cons, hp]
        rfl
      · rw [List.cons_append, place, collect, if_pos htrivia, hlength]
        exact hmore more
      · rw [hlength, hstop]
    | false =>
      have hkept : ¬ kind.isTrivia = true := by rw [htrivia]; exact Bool.false_ne_true
      rw [if_neg hkept] at h
      obtain ⟨l, ls, rfl⟩ := List.exists_cons_of_ne_nil hne
      obtain ⟨rfl, htail⟩ := List.cons.inj h
      by_cases hnil : ls = []
      · subst hnil
        refine ⟨[(kind, piece)], pieces, rfl, ⟨_, rfl, htrivia⟩, fun more => ?_, ?_⟩
        · rw [List.singleton_append, place, collect, if_neg hkept, hlength]
          rfl
        · rw [hlength]
          rfl
      · obtain ⟨ps, qs, rfl, ⟨p, hp, hkind⟩, hmore, hstop⟩ := ih hnil htail
        refine ⟨(kind, piece) :: ps, qs, rfl, ⟨p, ?_, hkind⟩, fun more => ?_, ?_⟩
        · rw [List.getLast?_cons, hp]
          rfl
        · rw [List.cons_append, place, collect, if_neg hkept, hlength, hmore,
            List.cons_append]
        · obtain ⟨last, hlast⟩ := List.getLast?_isSome.2 hnil |> Option.isSome_iff_exists.1
          rw [List.getLast?_cons, hlast, hlength, ← hstop, hlast]
          rfl

/-- The lexemes of a text that is cut off behind some of its lexemes and completed. -/
theorem lexemes_completed {text : String} {us rest : List Lexeme}
    (h : Lexeme.ofText text = us ++ rest) (hclean : ∀ l ∈ us, l.kind ≠ .garbage)
    (w : List Filler) :
    ∃ taken left ls, text = taken ++ left ∧
      taken.utf8ByteSize = (us.getLast?.map (·.range.stop)).getD 0 ∧
      Lexeme.ofText (taken ++ String.ofList (completionText w)) = us ++ ls ∧
      faces ls = shown w := by
  by_cases hnil : us = []
  · subst hnil
    have htokens : Token.ofText ("" ++ String.ofList (completionText w)) =
        place 0 (w.flatMap Filler.pieces) := by
      rw [String.empty_append, Token.ofText, String.toList_ofList, cut_completionText]
    refine ⟨"", text, _, (String.empty_append).symm, rfl, ?_, faces_completion w 0⟩
    rw [Lexeme.ofText, htokens]
    rfl
  · obtain ⟨ps, qs, hcut, ⟨last, hlast, hkind⟩, hmore, hstop⟩ := Lexeme.exists_split hnil h
    have hpieces : ∀ p ∈ ps, p.1 ≠ .garbage := by
      intro p hp hgarbage
      have hword : (p.1, String.ofList p.2) ∈ wordsOf ps := by
        refine List.mem_map.2 ⟨p, List.mem_filter.2 ⟨hp, ?_⟩, rfl⟩
        rw [hgarbage]
        rfl
      have hlexemes := hmore []
      rw [List.append_nil, place, Lexeme.collect, List.append_nil] at hlexemes
      rw [← map_collect_place false false 0, hlexemes] at hword
      obtain ⟨l, hl, heq⟩ := List.mem_map.1 hword
      exact hclean l hl ((Prod.mk.inj heq).1.trans hgarbage)
    have hcomment : ∀ p ∈ ps.getLast?, p.1 ≠ .comment := by
      intro p hp hcomment
      obtain rfl : last = p := Option.some.inj (hlast.symm.trans hp)
      rw [hcomment] at hkind
      cases hkind
    have hcompleted := cut_pieces_append hcut hpieces hcomment (breaks_completionText w)
    refine ⟨String.ofList (ps.map (·.2)).flatten, String.ofList (qs.map (·.2)).flatten, _, ?_, ?_,
      ?_, faces_completion w (byteLength (ps.map (·.2)).flatten)⟩
    · rw [← String.ofList_append, ← List.flatten_append, ← List.map_append, ← hcut, flatten_cut,
        String.ofList_toList]
    · rw [hstop, ← byteLength_toList, String.toList_ofList]
      exact (Nat.zero_add _).symm
    · rw [Lexeme.ofText, Lexeme.ofTokens, Token.ofText, String.toList_append,
        String.toList_ofList, String.toList_ofList, hcompleted, cut_completionText, hmore,
        Nat.zero_add]

/-- Where the last token in front of an offset ends, of those that the grammar reads. -/
def Token.endBefore (text : String) (offset : Nat) : Nat :=
  (((ranges text).filter (·.stop ≤ offset)).getLast?.map (·.stop)).getD 0

/-- The ranges in front of one of them, or of the end of the text. -/
theorem Apart.filter_append {textEnd : Nat} {as bs : List TextRange}
    (h : Apart textEnd (as ++ bs)) :
    (as ++ bs).filter (·.stop ≤ (bs.head?.getD (.emptyAt textEnd)).start) = as := by
  obtain ⟨-, -, hacross⟩ := List.pairwise_append.1 h.behind
  have hbefore : ∀ a ∈ as, decide (a.stop ≤ (bs.head?.getD (.emptyAt textEnd)).start) = true := by
    intro a ha
    rw [decide_eq_true_eq]
    cases bs with
    | nil => exact h.inside a (List.mem_append_left _ ha)
    | cons b bs => exact hacross a ha b List.mem_cons_self
  have hbehind : ∀ b ∈ bs, ¬ decide (b.stop ≤ (bs.head?.getD (.emptyAt textEnd)).start) = true := by
    intro b hb
    rw [decide_eq_true_eq, Nat.not_le]
    have hproper : ∀ r ∈ bs, r.start < r.stop := fun r hr => h.proper r (List.mem_append_right _ hr)
    cases bs with
    | nil => cases hb
    | cons first bs =>
      show first.start < b.stop
      rcases List.mem_cons.1 hb with rfl | hb'
      · exact hproper b hb
      · have horder := (List.pairwise_cons.1 (List.pairwise_append.1 h.behind).2.1).1 b hb'
        have hfirst := hproper first List.mem_cons_self
        have hlast := hproper b hb
        omega
  rw [List.filter_append, List.filter_eq_self.2 hbefore, List.filter_eq_nil_iff.2 hbehind,
    List.append_nil]

/-- In front of a lexeme, or of the end of the text, the last token is the lexeme before it. -/
theorem Token.endBefore_eq {text : String} {us rest : List Lexeme}
    (h : Lexeme.ofText text = us ++ rest) :
    endBefore text ((rest.head?.map Lexeme.range).getD (.emptyAt text.utf8ByteSize)).start =
      (us.getLast?.map (·.range.stop)).getD 0 := by
  have hapart := apart_ranges text
  rw [ranges_eq, h, List.map_append] at hapart
  have hfilter := hapart.filter_append
  rw [List.head?_map] at hfilter
  rw [endBefore, ranges_eq, h, List.map_append, hfilter, List.getLast?_map, Option.map_map]
  rfl

end RubySig
