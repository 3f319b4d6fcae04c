import RubySig.Parser.Lexeme

/-!
# Texts that are cut where they were put together

A text that alone is one token stays one token in front of another text, unless some rule reads on
across the border.  So a text that is put together from tokens is cut into them again.

* `survivors`: the rules that can still go on after a text.
* `TokenKind.Spells`: a text that alone is a token of a kind.
* `Stops`: no rule reads on across a border.
* `cut_append`: the pieces of a text that begins with a token.
* `words`, `words_append`: kinds and texts of the lexemes of a text.
* `Lexeme.spells_of_mem_ofText`: every lexeme of a text is a token of its kind alone, too.
-/

namespace RubySig

/-! ## Rules that go on -/

/-- The rules that can still go on after a text. -/
def survivors (rules : List TokenRule) (text : List Char) : List TokenRule :=
  text.foldl (fun rules c => advance c rules) rules

@[simp] theorem survivors_cons (rules : List TokenRule) (c : Char) (text : List Char) :
    survivors rules (c :: text) = survivors (advance c rules) text :=
  rfl

theorem survivors_append (rules : List TokenRule) (s t : List Char) :
    survivors rules (s ++ t) = survivors (survivors rules s) t :=
  List.foldl_append

theorem survivors_of_isEmpty {rules : List TokenRule} (h : rules.isEmpty = true)
    (text : List Char) : survivors rules text = [] := by
  rw [List.isEmpty_iff.1 h]
  induction text with
  | nil => rfl
  | cons c text ih => exact ih

/-- Where some rule accepts, some rule was possible behind the first character. -/
theorem isEmpty_eq_false_of_accepted {rules : List TokenRule} {c : Char} {text : List Char}
    {kind : TokenKind} (h : accepted? (survivors rules (c :: text)) = some kind) :
    (advance c rules).isEmpty = false := by
  cases hempty : (advance c rules).isEmpty with
  | false => rfl
  | true =>
    rw [survivors_cons, survivors_of_isEmpty hempty] at h
    cases h

/-- The kind of the token that a text is alone, if it is one. -/
def TokenKind.Spells (kind : TokenKind) (text : List Char) : Prop :=
  accepted? (survivors tokenRules text) = some kind

instance (kind : TokenKind) (text : List Char) : Decidable (kind.Spells text) :=
  inferInstanceAs (Decidable (_ = _))

theorem TokenKind.Spells.unique {kind kind' : TokenKind} {text : List Char}
    (h : kind.Spells text) (h' : kind'.Spells text) : kind = kind' :=
  Option.some.inj (h.symm.trans h')

/-- No rule that reads the whole of the first text reads on into the second one. -/
def Stops (text rest : List Char) : Prop :=
  ∀ c ∈ rest.head?, advance c (survivors tokenRules text) = []

theorem not_spells_nil (kind : TokenKind) : ¬ kind.Spells [] := by
  have hnone : accepted? (survivors tokenRules []) = none := by decide
  intro h
  rw [TokenKind.Spells, hnone] at h
  cases h

/-! ## The first piece -/

theorem scanFrom_cons {rules : List TokenRule} {found : Scan} {n : Nat} {c : Char}
    {text : List Char} (h : (advance c rules).isEmpty = false) :
    scanFrom rules found n (c :: text) = scanFrom (advance c rules)
      ⟨((accepted? (advance c rules)).map fun kind => (kind, n + 1)).or found.best, n + 1⟩
      (n + 1) text := by
  rw [scanFrom]
  simp only [h, Bool.false_eq_true, if_false]

/-- Nothing better is found behind a border that no rule crosses. -/
theorem best_scanFrom_append {rules : List TokenRule} {found : Scan} {n : Nat} {c : Char}
    {text rest : List Char} {kind : TokenKind}
    (haccepted : accepted? (survivors rules (c :: text)) = some kind)
    (hstops : ∀ d ∈ rest.head?, advance d (survivors rules (c :: text)) = []) :
    (scanFrom rules found n (c :: (text ++ rest))).best = some (kind, n + (text.length + 1)) := by
  induction text generalizing rules found n c with
  | nil =>
    rw [scanFrom_cons (isEmpty_eq_false_of_accepted haccepted)]
    change accepted? (advance c rules) = some kind at haccepted
    cases rest with
    | nil => rw [haccepted]; rfl
    | cons d rest =>
      have hnone : advance d (advance c rules) = [] := hstops d rfl
      rw [haccepted, List.nil_append, scanFrom, hnone]
      rfl
  | cons d text ih =>
    rw [scanFrom_cons (isEmpty_eq_false_of_accepted haccepted),
      List.cons_append, ih haccepted hstops, List.length_cons]
    congr 2
    omega

/-- What is found somewhere was accepted there. -/
theorem accepted_of_best_scanFrom {rules : List TokenRule} {found : Scan} {n m : Nat}
    {text : List Char} {kind : TokenKind}
    (h : (scanFrom rules found n text).best = some (kind, m)) :
    found.best = some (kind, m) ∨ ∃ i < text.length,
      m = n + (i + 1) ∧ accepted? (survivors rules (text.take (i + 1))) = some kind := by
  induction text generalizing rules found n with
  | nil => exact Or.inl h
  | cons c text ih =>
    cases hempty : (advance c rules).isEmpty with
    | true =>
      rw [scanFrom] at h
      simp only [hempty, if_true] at h
      exact Or.inl h
    | false =>
      rw [scanFrom_cons hempty] at h
      rcases ih h with hbest | ⟨i, hi, rfl, haccepted⟩
      · cases hnow : accepted? (advance c rules) with
        | none =>
          rw [hnow] at hbest
          exact Or.inl hbest
        | some now =>
          rw [hnow] at hbest
          obtain ⟨rfl, rfl⟩ := Prod.mk.inj (Option.some.inj hbest)
          exact Or.inr ⟨0, Nat.zero_lt_succ _, rfl, hnow⟩
      · exact Or.inr ⟨i + 1, Nat.succ_lt_succ hi, by omega, haccepted⟩

/-- A token is the first piece of a text that no rule reads on into. -/
theorem firstPiece_append {kind : TokenKind} {text rest : List Char} (h : kind.Spells text)
    (hstops : Stops text rest) :
    firstPiece tokenRules (text ++ rest) = (kind, text.length) := by
  cases text with
  | nil => exact absurd h (not_spells_nil kind)
  | cons c text =>
    rw [List.cons_append, firstPiece, scan, best_scanFrom_append h hstops, Option.getD_some,
      Nat.zero_add, List.length_cons]

/-! ## All pieces -/

/-- The pieces of a text of which the first one is known. -/
theorem cutRaw_of_firstPiece {kind : TokenKind} {text rest : List Char} (hne : text ≠ [])
    (h : firstPiece tokenRules (text ++ rest) = (kind, text.length)) :
    cutRaw tokenRules (text ++ rest) = (kind, text) :: cutRaw tokenRules rest := by
  obtain ⟨c, text, rfl⟩ := List.exists_cons_of_ne_nil hne
  rw [List.cons_append, List.length_cons] at h
  rw [List.cons_append, cutRaw]
  simp only [h, Nat.add_sub_cancel, List.take_left, List.drop_left]

theorem joinGarbage_cons {kind : TokenKind} {text : List Char}
    {ps : List (TokenKind × List Char)} (h : kind ≠ .garbage) :
    joinGarbage ((kind, text) :: ps) = (kind, text) :: joinGarbage ps := by
  rw [joinGarbage]
  exact fun _ _ hgarbage _ => h hgarbage

theorem mem_of_mem_joinGarbage {ps : List (TokenKind × List Char)} {p : TokenKind × List Char}
    (hp : p ∈ joinGarbage ps) (hkind : p.1 ≠ .garbage) : p ∈ ps := by
  fun_induction joinGarbage ps with
  | case1 => exact hp
  | case2 text rest more others hjoined ih =>
    rcases List.mem_cons.1 hp with rfl | hp
    · exact absurd rfl hkind
    · exact List.mem_cons_of_mem _ (ih (hjoined ▸ List.mem_cons_of_mem _ hp))
  | case3 kind text rest _ ih =>
    rcases List.mem_cons.1 hp with rfl | hp
    · exact List.mem_cons_self
    · exact List.mem_cons_of_mem _ (ih hp)

/-- A token at the beginning of a text is the first piece of it. -/
theorem cut_append {kind : TokenKind} {text rest : List Char} (h : kind.Spells text)
    (hkind : kind ≠ .garbage) (hstops : Stops text rest) :
    cut tokenRules (text ++ rest) = (kind, text) :: cut tokenRules rest := by
  have hne : text ≠ [] := by
    rintro rfl
    exact not_spells_nil kind h
  rw [cut, cutRaw_of_firstPiece hne (firstPiece_append h hstops), joinGarbage_cons hkind, cut]

/-- Every piece is a token of its kind alone, too. -/
theorem spells_of_mem_cutRaw {text : List Char} {p : TokenKind × List Char}
    (hp : p ∈ cutRaw tokenRules text) (hkind : p.1 ≠ .garbage) : p.1.Spells p.2 := by
  revert hp
  fun_induction cutRaw tokenRules text with
  | case1 => rintro ⟨⟩
  | case2 c cs piece ih =>
    intro hp
    rcases List.mem_cons.1 hp with rfl | hp
    · cases hbest : (scan tokenRules (c :: cs)).best with
      | none =>
        refine absurd ?_ hkind
        show (firstPiece tokenRules (c :: cs)).1 = .garbage
        rw [firstPiece, hbest]
        rfl
      | some best =>
        have hpiece : piece = best := by
          show firstPiece tokenRules (c :: cs) = best
          rw [firstPiece, hbest]
          rfl
        rw [hpiece]
        rcases accepted_of_best_scanFrom hbest with hnone | ⟨i, -, hi, haccepted⟩
        · cases hnone
        · have hlength : best.2 - 1 = i := by omega
          rw [hlength]
          exact haccepted
    · exact ih hp

theorem spells_of_mem_cut {text : List Char} {p : TokenKind × List Char}
    (hp : p ∈ cut tokenRules text) (hkind : p.1 ≠ .garbage) : p.1.Spells p.2 :=
  spells_of_mem_cutRaw (mem_of_mem_joinGarbage hp hkind) hkind

/-! ## Words -/

/-- The kind and the text of a lexeme. -/
abbrev Word := TokenKind × String

/-- The words of a text. -/
def words (text : String) : List Word := (Lexeme.ofText text).map fun l => (l.kind, l.text)

/-- The words among pieces. -/
def wordsOf (ps : List (TokenKind × List Char)) : List Word :=
  (ps.filter fun p => !p.1.isTrivia).map fun p => (p.1, String.ofList p.2)

theorem map_collect_place (spaced onNewLine : Bool) (offset : Nat)
    (ps : List (TokenKind × List Char)) :
    (Lexeme.collect spaced onNewLine (place offset ps)).map (fun l => (l.kind, l.text)) =
      wordsOf ps := by
  induction ps generalizing spaced onNewLine offset with
  | nil => rfl
  | cons p ps ih =>
    obtain ⟨kind, text⟩ := p
    rw [place, Lexeme.collect, wordsOf]
    cases htrivia : kind.isTrivia with
    | true => simpa [htrivia, wordsOf] using ih _ _ _
    | false => simpa [htrivia, wordsOf] using ih _ _ _

theorem words_eq (text : String) : words text = wordsOf (cut tokenRules text.toList) :=
  map_collect_place false false 0 _

theorem words_append {kind : TokenKind} {text rest : String} (h : kind.Spells text.toList)
    (hkind : kind ≠ .garbage) (hstops : Stops text.toList rest.toList) :
    words (text ++ rest) =
      if kind.isTrivia then words rest else (kind, text) :: words rest := by
  rw [words_eq, words_eq, String.toList_append, cut_append h hkind hstops, wordsOf]
  cases htrivia : kind.isTrivia <;> simp [htrivia, wordsOf]

theorem words_empty : words "" = [] := by
  rw [words_eq, String.toList_empty, cut, cutRaw]
  rfl

/-- Every lexeme of a text is a token of its kind alone, too. -/
theorem Lexeme.spells_of_mem_ofText {text : String} {l : Lexeme} (hl : l ∈ Lexeme.ofText text)
    (hkind : l.kind ≠ .garbage) : l.kind.Spells l.text.toList := by
  have hword : (l.kind, l.text) ∈ words text := List.mem_map.2 ⟨l, hl, rfl⟩
  rw [words_eq, wordsOf] at hword
  obtain ⟨p, hp, heq⟩ := List.mem_map.1 hword
  obtain ⟨hkind', htext⟩ := Prod.mk.inj heq
  rw [← hkind'] at hkind ⊢
  rw [← htext, String.toList_ofList]
  exact spells_of_mem_cut (List.mem_filter.1 hp).1 hkind

end RubySig
