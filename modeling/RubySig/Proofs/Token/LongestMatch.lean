import Mathlib.Data.List.Chain
import RubySig.Proofs.Token.Borders

/-!
# Tokens are longest matches

The tokens of a text lie end to end from its beginning to its end.  At the place where a token
starts no rule reads a longer piece than the token, and the first of the rules that read the token
gives it its kind.  Garbage starts only where no rule reads any piece.

* `Pattern.accepts`, `spells_iff`: the kind of a text is that of the first rule that describes it.
* `firstPiece_of_spells`, `unreadable_of_firstPiece`: what is found at one place.
* `cut_behind`: the pieces behind a place are the pieces of the rest of the text.
* `Tiles`: tokens that lie end to end.
* `Token.LongestIn`, `Unreadable`: what a token, or garbage, says about the rest of the text.
-/

namespace RubySig

/-! ## The rules that describe a text -/

namespace Pattern

/-- Whether a pattern describes a text. -/
def accepts (p : Pattern) : List Char → Bool
  | [] => p.nullable
  | c :: text => (p.derivative c).accepts text

theorem accepts_iff {p : Pattern} {text : List Char} : p.accepts text = true ↔ p.Matches text := by
  induction text generalizing p with
  | nil => rw [accepts, matches_nil_iff]
  | cons c text ih => rw [accepts, ih, matches_cons_iff]

@[simp] theorem accepts_never (text : List Char) : never.accepts text = false := by
  rw [← Bool.not_eq_true, accepts_iff]
  exact not_matches_never text

end Pattern

/-- Of the rules that go on after a text, the first that could stop there is the first that
describes the text. -/
theorem accepted?_survivors (rules : List TokenRule) (text : List Char) :
    accepted? (survivors rules text) =
      (rules.find? fun r => r.pattern.accepts text).map (·.kind) := by
  induction text generalizing rules with
  | nil => rfl
  | cons c text ih =>
    have hdropped : (fun r : TokenRule => decide ((r.pattern != .never) = true ∧
        r.pattern.accepts text = true)) = fun r => r.pattern.accepts text := by
      funext r
      by_cases hnever : r.pattern = .never <;> simp [hnever]
    rw [survivors_cons, ih, advance, List.find?_filter, hdropped, List.find?_map, Option.map_map]
    rfl

/-- The first of the rules that describe a text, by its kind. -/
def FirstRule (kind : TokenKind) (text : List Char) : Prop :=
  ∃ before rule after, tokenRules = before ++ rule :: after ∧ rule.kind = kind ∧
    rule.pattern.Matches text ∧ ∀ r ∈ before, ¬ r.pattern.Matches text

theorem spells_iff {kind : TokenKind} {text : List Char} :
    kind.Spells text ↔ FirstRule kind text := by
  unfold TokenKind.Spells FirstRule
  rw [accepted?_survivors, Option.map_eq_some_iff]
  simp only [List.find?_eq_some_iff_append, Bool.not_eq_true', ← Bool.not_eq_true,
    Pattern.accepts_iff]
  constructor
  · rintro ⟨rule, ⟨hrule, before, after, hrules, hbefore⟩, hkind⟩
    exact ⟨before, rule, after, hrules, hkind, hrule, hbefore⟩
  · rintro ⟨before, rule, after, hrules, hkind, hrule, hbefore⟩
    exact ⟨rule, ⟨hrule, before, after, hrules, hbefore⟩, hkind⟩

/-- A text that some rule describes is a token alone. -/
theorem exists_spells {rule : TokenRule} {text : List Char} (hrule : rule ∈ tokenRules)
    (h : rule.pattern.Matches text) : ∃ kind : TokenKind, kind.Spells text := by
  cases hfind : tokenRules.find? fun r => r.pattern.accepts text with
  | none =>
    have hnot := List.find?_eq_none.1 hfind rule hrule
    exact absurd (Pattern.accepts_iff.2 h) hnot
  | some first =>
    refine ⟨first.kind, ?_⟩
    rw [TokenKind.Spells, accepted?_survivors, hfind, Option.map_some]

theorem TokenKind.Spells.ne_garbage {kind : TokenKind} {text : List Char} (h : kind.Spells text) :
    kind ≠ .garbage := by
  have hrules : ∀ r ∈ tokenRules, r.kind ≠ .garbage := by decide
  obtain ⟨r, hr, rfl, -⟩ := h.exists_rule
  exact hrules r hr

/-- A reserved word is a keyword, whatever else it could be. -/
theorem spells_keyword (k : Keyword) : (TokenKind.keyword k).Spells k.text.toList := by
  have hall : ∀ k ∈ Keyword.all, (TokenKind.keyword k).Spells k.text.toList := by decide +kernel
  exact hall k (by cases k <;> decide)

/-! ## What is found at one place -/

/-- What is found later on is not shorter than what was found before. -/
theorem exists_best_of_found (rules : List TokenRule) (found : Scan) (text : List Char) {n m : Nat}
    {kind : TokenKind} (hfound : found.best = some (kind, m)) (hm : m ≤ n) :
    ∃ kind' m', (scanFrom rules found n text).best = some (kind', m') ∧ m ≤ m' := by
  induction text generalizing rules found n m kind with
  | nil => exact ⟨kind, m, hfound, Nat.le_refl m⟩
  | cons c text ih =>
    cases hempty : (advance c rules).isEmpty with
    | true =>
      unfold scanFrom
      simp only [hempty, if_true]
      exact ⟨kind, m, hfound, Nat.le_refl m⟩
    | false =>
      rw [scanFrom_cons hempty]
      cases hnow : accepted? (advance c rules) with
      | none => exact ih _ ⟨_, n + 1⟩ (by simpa using hfound) (by omega)
      | some now =>
        obtain ⟨kind', m', hbest, hle⟩ := ih (advance c rules) ⟨some (now, n + 1), n + 1⟩ rfl
          (Nat.le_refl (n + 1))
        exact ⟨kind', m', hbest, by omega⟩

/-- What is found at a place is at least as long as any piece that is a token alone. -/
theorem exists_best_of_accepted (found : Scan) (n : Nat) (rest : List Char)
    {rules : List TokenRule} {c : Char} {piece : List Char} {kind : TokenKind}
    (h : accepted? (survivors rules (c :: piece)) = some kind) :
    ∃ kind' m, (scanFrom rules found n (c :: (piece ++ rest))).best = some (kind', m) ∧
      n + (piece.length + 1) ≤ m := by
  induction piece generalizing rules found n c with
  | nil =>
    rw [scanFrom_cons (isEmpty_eq_false_of_accepted h)]
    change accepted? (advance c rules) = some kind at h
    obtain ⟨kind', m, hbest, hle⟩ := exists_best_of_found (advance c rules)
      ⟨some (kind, n + 1), n + 1⟩ ([] ++ rest) rfl (Nat.le_refl (n + 1))
    refine ⟨kind', m, ?_, by simpa using hle⟩
    simpa [h] using hbest
  | cons d piece ih =>
    rw [scanFrom_cons (isEmpty_eq_false_of_accepted h), List.cons_append]
    obtain ⟨kind', m, hbest, hle⟩ := ih ⟨_, n + 1⟩ (n + 1) h
    exact ⟨kind', m, hbest, by simp only [List.length_cons]; omega⟩

/-- Where a piece is a token alone, the first piece of the text is a token and not shorter. -/
theorem firstPiece_of_spells {kind : TokenKind} {piece : List Char} (h : kind.Spells piece)
    (rest : List Char) :
    (firstPiece tokenRules (piece ++ rest)).1 ≠ .garbage ∧
      piece.length ≤ (firstPiece tokenRules (piece ++ rest)).2 := by
  cases piece with
  | nil => exact absurd h (not_spells_nil kind)
  | cons c piece =>
    obtain ⟨kind', m, hbest, hle⟩ := exists_best_of_accepted ⟨none, 0⟩ 0 rest h
    have hfirst : firstPiece tokenRules (c :: (piece ++ rest)) = (kind', m) := by
      rw [firstPiece, scan, hbest]
      rfl
    rw [List.cons_append, hfirst]
    refine ⟨?_, by simpa using hle⟩
    rcases accepted_of_best_scanFrom hbest with hnone | ⟨i, -, -, haccepted⟩
    · cases hnone
    · exact TokenKind.Spells.ne_garbage haccepted

/-- No rule describes any piece at the beginning of a text. -/
def Unreadable (text : List Char) : Prop :=
  ∀ r ∈ tokenRules, ∀ piece, piece <+: text → ¬ r.pattern.Matches piece

theorem unreadable_of_firstPiece {text : List Char}
    (h : (firstPiece tokenRules text).1 = .garbage) : Unreadable text := by
  rintro r hr piece ⟨rest, rfl⟩ hmatches
  obtain ⟨kind, hspells⟩ := exists_spells hr hmatches
  exact (firstPiece_of_spells hspells rest).1 h

/-! ## The pieces behind a place -/

theorem cutRaw_behind {rules : List TokenRule} {text : List Char}
    {before after : List (TokenKind × List Char)} (h : cutRaw rules text = before ++ after) :
    cutRaw rules (after.map (·.2)).flatten = after := by
  induction before generalizing text with
  | nil =>
    have hflatten := flatten_cutRaw rules text
    rw [h, List.nil_append] at hflatten
    rw [hflatten, h, List.nil_append]
  | cons p before ih =>
    cases text with
    | nil => simp [cutRaw] at h
    | cons c cs =>
      rw [cutRaw] at h
      exact ih (List.cons.inj h).2

/-- Pieces of garbage that are joined are not divided by a place between two pieces. -/
theorem exists_of_joinGarbage {ps before after : List (TokenKind × List Char)}
    (h : joinGarbage ps = before ++ after) :
    ∃ before' after', ps = before' ++ after' ∧ joinGarbage after' = after := by
  fun_induction joinGarbage ps generalizing before with
  | case1 =>
    obtain ⟨-, rfl⟩ := List.append_eq_nil_iff.1 h.symm
    exact ⟨[], [], rfl, rfl⟩
  | case2 text rest more others hjoined ih =>
    cases before with
    | nil => exact ⟨[], (.garbage, text) :: rest, rfl, by simpa [joinGarbage, hjoined] using h⟩
    | cons p before =>
      -- the place is behind the joined piece, of which the rest has the part `more`
      have hrest : joinGarbage rest = ((.garbage, more) :: before) ++ after := by
        rw [hjoined, (List.cons.inj h).2]
        rfl
      obtain ⟨before', after', rfl, hafter⟩ := ih hrest
      exact ⟨(.garbage, text) :: before', after', rfl, hafter⟩
  | case3 kind text rest hapart ih =>
    cases before with
    | nil => exact ⟨[], (kind, text) :: rest, rfl, by rw [joinGarbage]; exacts [h, hapart]⟩
    | cons p before =>
      obtain ⟨before', after', rfl, hafter⟩ := ih (List.cons.inj h).2
      exact ⟨(kind, text) :: before', after', rfl, hafter⟩

/-- The pieces of a text behind a place between two of them are the pieces of the rest. -/
theorem cut_behind {rules : List TokenRule} {text : List Char}
    {before after : List (TokenKind × List Char)} (h : cut rules text = before ++ after) :
    cut rules (after.map (·.2)).flatten = after := by
  unfold cut at h ⊢
  obtain ⟨before', after', hsplit, rfl⟩ := exists_of_joinGarbage h
  rw [flatten_joinGarbage, cutRaw_behind hsplit]

/-- Garbage is the first piece only where no rule describes any piece. -/
theorem unreadable_of_cut_eq_cons {piece text : List Char} {ps : List (TokenKind × List Char)}
    (h : cut tokenRules text = (.garbage, piece) :: ps) : Unreadable text := by
  apply unreadable_of_firstPiece
  cases text with
  | nil =>
    rw [cut, cutRaw] at h
    cases h
  | cons c cs =>
    by_contra hkind
    rw [cut, cutRaw, joinGarbage_cons hkind] at h
    exact hkind (congrArg Prod.fst (List.cons.inj h).1)

/-- No piece of garbage follows another one. -/
theorem isChain_joinGarbage (ps : List (TokenKind × List Char)) :
    (joinGarbage ps).IsChain fun p q => p.1 = .garbage → q.1 ≠ .garbage := by
  fun_induction joinGarbage ps with
  | case1 => exact .nil
  | case2 text rest more others hjoined ih =>
    rw [hjoined, List.isChain_cons] at ih
    exact List.isChain_cons.2 ih
  | case3 kind text rest hapart ih =>
    refine List.isChain_cons.2 ⟨?_, ih⟩
    rintro ⟨kind', text'⟩ hhead rfl rfl
    obtain ⟨others, hothers⟩ := List.head?_eq_some_iff.1 hhead
    exact hapart text' others rfl hothers

/-! ## Tokens -/

/-- The kind and the characters of a token. -/
def Token.piece (t : Token) : TokenKind × List Char := (t.kind, t.text.toList)

@[simp] theorem map_piece_place (offset : Nat) (ps : List (TokenKind × List Char)) :
    (place offset ps).map Token.piece = ps := by
  induction ps generalizing offset with
  | nil => rfl
  | cons p ps ih => simp [place, Token.piece, ih]

theorem Token.map_piece_ofText (text : String) :
    (ofText text).map piece = cut tokenRules text.toList := by
  rw [ofText, map_piece_place]

/-- Tokens that lie end to end between two offsets, none of them empty, each as long as its text. -/
def Tiles : Nat → List Token → Nat → Prop
  | lo, [], hi => lo = hi
  | lo, t :: rest, hi =>
    t.range.start = lo ∧ lo < t.range.stop ∧ t.range.stop = lo + t.text.utf8ByteSize ∧
      Tiles t.range.stop rest hi

theorem tiles_place {ps : List (TokenKind × List Char)} (h : ∀ p ∈ ps, p.2 ≠ []) (offset : Nat) :
    Tiles offset (place offset ps) (offset + byteLength (ps.map (·.2)).flatten) := by
  induction ps generalizing offset with
  | nil => simp [place, Tiles, byteLength]
  | cons p ps ih =>
    obtain ⟨kind, text⟩ := p
    obtain ⟨htext, hps⟩ := List.forall_mem_cons.1 h
    have hpos : 0 < byteLength text := byteLength_pos htext
    have hsize : (String.ofList text).utf8ByteSize = byteLength text := by
      rw [← byteLength_toList, String.toList_ofList]
    have hrest := ih hps (offset + byteLength text)
    rw [place, Tiles, List.map_cons, List.flatten_cons, byteLength_append, ← Nat.add_assoc]
    exact ⟨rfl, by simpa using hpos, by rw [hsize], hrest⟩

/-- The texts of tokens, one after the other. -/
def Token.joined (tokens : List Token) : String := String.join (tokens.map (·.text))

theorem Token.toList_joined (tokens : List Token) :
    (joined tokens).toList = ((tokens.map piece).map (·.2)).flatten := by
  simp [joined, piece, List.flatMap_def, Function.comp_def]

theorem Token.joined_ofText (text : String) : joined (ofText text) = text := by
  rw [← String.toList_inj, toList_joined, map_piece_ofText, flatten_cut]

/-- A token is the longest piece at the beginning of a text that some rule describes, the first of
the rules that describe it gives it its kind, and alone it is the same token. -/
structure Token.LongestIn (t : Token) (text : String) : Prop where
  /-- The text begins with the token. -/
  atStart : t.text.toList <+: text.toList
  /-- The token has the kind of the first rule that describes it. -/
  first : FirstRule t.kind t.text.toList
  /-- What is spelled like a keyword is a keyword. -/
  keyword : ∀ k : Keyword, t.text = k.text → t.kind = .keyword k
  /-- No rule describes a longer piece. -/
  longest : ∀ r ∈ tokenRules, ∀ piece, piece <+: text.toList → r.pattern.Matches piece →
    piece.length ≤ t.text.toList.length
  /-- Alone it is cut into itself. -/
  alone : Token.ofText t.text = [⟨t.kind, t.text, ⟨0, t.text.utf8ByteSize⟩⟩]

/-- A token that is alone is not cut. -/
theorem Token.ofText_of_spells {kind : TokenKind} {text : String} (h : kind.Spells text.toList) :
    ofText text = [⟨kind, text, ⟨0, text.utf8ByteSize⟩⟩] := by
  have hcut : cut tokenRules text.toList = [(kind, text.toList)] := by
    have hstops : Stops text.toList [] := by simp [Stops]
    simpa [cut, cutRaw, joinGarbage] using cut_append h h.ne_garbage hstops
  rw [ofText, hcut]
  simp [place, byteLength_toList]

theorem Token.longestIn_of_cut {t : Token} {text : String} {ps : List (TokenKind × List Char)}
    (h : cut tokenRules text.toList = t.piece :: ps) (hkind : t.kind ≠ .garbage) :
    t.LongestIn text := by
  have hspells : t.kind.Spells t.text.toList :=
    spells_of_mem_cut (p := t.piece) (by rw [h]; exact List.mem_cons_self) hkind
  obtain ⟨rest, htext, -, hfirst⟩ := exists_of_cut_eq_cons h hkind
  refine ⟨⟨rest, htext.symm⟩, spells_iff.1 hspells, ?_, ?_, ofText_of_spells hspells⟩
  · intro k hk
    rw [hk] at hspells
    exact hspells.unique (spells_keyword k)
  · rintro r hr piece ⟨behind, hpiece⟩ hmatches
    obtain ⟨kind, hpieceSpells⟩ := exists_spells hr hmatches
    have hle := (firstPiece_of_spells hpieceSpells behind).2
    rwa [hpiece, hfirst] at hle

/-- The tokens of every text lie end to end from its beginning to its end, and their texts are the
text.  Each token but garbage is the longest piece of the rest of the text that a rule describes,
garbage starts only where no rule describes a piece, and no garbage follows garbage. -/
theorem Token.ofText_longest_match (text : String) :
    Tiles 0 (ofText text) text.utf8ByteSize ∧ joined (ofText text) = text ∧
      (∀ before t after, ofText text = before ++ t :: after →
        (t.kind ≠ .garbage → t.LongestIn (joined (t :: after))) ∧
        (t.kind = .garbage → Unreadable (joined (t :: after)).toList)) ∧
      (ofText text).IsChain fun s t => s.kind = .garbage → t.kind ≠ .garbage := by
  refine ⟨?_, ?_, ?_, ?_⟩
  · have hpieces : ∀ p ∈ cut tokenRules text.toList, p.2 ≠ [] := ne_nil_of_mem_cut
    have htiles := tiles_place hpieces 0
    rwa [flatten_cut, byteLength_toList, Nat.zero_add] at htiles
  · exact joined_ofText text
  · intro before t after hsplit
    have hpieces : cut tokenRules text.toList = before.map piece ++ (t :: after).map piece := by
      rw [← map_piece_ofText, hsplit, List.map_append]
    have hcut : cut tokenRules (joined (t :: after)).toList = t.piece :: after.map piece := by
      rw [toList_joined, cut_behind hpieces, List.map_cons]
    refine ⟨longestIn_of_cut hcut, fun hkind => ?_⟩
    rw [piece, hkind] at hcut
    exact unreadable_of_cut_eq_cons hcut
  · have hchain := isChain_joinGarbage (cutRaw tokenRules text.toList)
    rw [← cut, ← map_piece_ofText, List.isChain_map] at hchain
    exact hchain

/-- An identifier is read beyond the keyword that it begins with.  A class variable cannot begin
with a digit, so the two signs in front of one are garbage. -/
theorem Token.longest_match_ends :
    (⟨.lowerIdent, "ends", ⟨0, 4⟩⟩ : Token).LongestIn "ends@@1" ∧ Unreadable "@@1".toList := by
  have htokens : ofText "ends@@1" = [⟨.lowerIdent, "ends", ⟨0, 4⟩⟩, ⟨.garbage, "@@", ⟨4, 6⟩⟩,
      ⟨.integerLit, "1", ⟨6, 7⟩⟩] := by decide +kernel
  obtain ⟨-, -, hsplit, -⟩ := ofText_longest_match "ends@@1"
  exact ⟨(hsplit [] _ _ htokens).1 (by decide), (hsplit [_] _ _ htokens).2 rfl⟩

end RubySig
