import RubySig.Proofs.Token.Kinds
import RubySig.Proofs.Token.Starts

/-!
# Texts that are cut off behind a token

A text that is cut off behind a token and goes on with a line break or a closing bracket is cut into
the same pieces as before up to there.  No token but a quoted text and a comment can contain one of
the two, and the quoted texts in front of the place are closed.

* `Pattern.reads`, `Unread`: characters that are not read behind a text.
* `TokenKind.Spells.unread`: a line break and a closing bracket are not read behind a token.
* `best_scanFrom_congr`: what is found in a text does not depend on how it goes on.
* `cut_pieces_append`: the pieces in front of the place where a text is cut off.
-/

namespace RubySig

/-! ## Characters that are not read -/

namespace Pattern

/-- Whether a character belongs to a class in a pattern. -/
def reads (c : Char) : Pattern → Bool
  | never | nothing => false
  | one cls => cls.contains c
  | seq p q | alt p q => p.reads c || q.reads c
  | many p => p.reads c

variable {p q : Pattern} {c d : Char}

theorem reads_mkSeq (hp : p.reads d = false) (hq : q.reads d = false) :
    (mkSeq p q).reads d = false := by
  unfold mkSeq
  split
  · rfl
  · exact hq
  · split
    · rfl
    · rw [reads, hp, hq, Bool.or_false]

theorem reads_mkAlt (hp : p.reads d = false) (hq : q.reads d = false) :
    (mkAlt p q).reads d = false := by
  unfold mkAlt
  split
  · exact hq
  · split
    · exact hp
    · rw [reads, hp, hq, Bool.or_false]

/-- What may follow reads no other characters. -/
theorem reads_derivative (h : p.reads d = false) : (p.derivative c).reads d = false := by
  induction p with
  | never | nothing => rfl
  | one cls =>
    rw [derivative]
    split <;> rfl
  | seq p q ihp ihq =>
    rw [reads, Bool.or_eq_false_iff] at h
    rw [derivative]
    split
    · exact reads_mkAlt (reads_mkSeq (ihp h.1) h.2) (ihq h.2)
    · exact reads_mkSeq (ihp h.1) h.2
  | alt p q ihp ihq =>
    rw [reads, Bool.or_eq_false_iff] at h
    exact reads_mkAlt (ihp h.1) (ihq h.2)
  | many p ihp => exact reads_mkSeq (ihp h) h

theorem derivative_eq_never_of_reads (h : p.reads c = false) : p.derivative c = never := by
  induction p with
  | never | nothing => rfl
  | one cls =>
    rw [derivative, if_neg]
    exact fun hcontains => Bool.false_ne_true (h.symm.trans hcontains)
  | seq p q ihp ihq =>
    rw [reads, Bool.or_eq_false_iff] at h
    rw [derivative, ihp h.1, ihq h.2]
    split <;> rfl
  | alt p q ihp ihq =>
    rw [reads, Bool.or_eq_false_iff] at h
    rw [derivative, ihp h.1, ihq h.2]
    rfl
  | many p ihp =>
    rw [derivative, ihp h]
    rfl

/-- A character outside of a bound is not read. -/
theorem reads_of_within {set : Char → Bool} (h : p.within set = true) (hc : set c = false) :
    p.reads c = false := by
  induction p with
  | never | nothing => rfl
  | one cls =>
    rw [reads, ← Bool.not_eq_true]
    intro hcontains
    rw [CharClass.mem_of_within h hcontains] at hc
    cases hc
  | seq p q ihp ihq | alt p q ihp ihq =>
    rw [within, Bool.and_eq_true] at h
    rw [reads, ihp h.1, ihq h.2, Bool.or_false]
  | many p ihp => exact ihp h

theorem not_mem_of_matches {s : List Char} (hs : Matches p s) (h : p.reads c = false) : c ∉ s := by
  induction hs with
  | nothing | manyNil => exact List.not_mem_nil
  | one hd =>
    rintro hc
    rw [List.mem_singleton.1 hc] at h
    exact Bool.false_ne_true (h.symm.trans hd)
  | seq _ _ ihp ihq =>
    rw [reads, Bool.or_eq_false_iff] at h
    exact fun hc => (List.mem_append.1 hc).elim (ihp h.1) (ihq h.2)
  | altLeft _ ih =>
    rw [reads, Bool.or_eq_false_iff] at h
    exact ih h.1
  | altRight _ ih =>
    rw [reads, Bool.or_eq_false_iff] at h
    exact ih h.2
  | manyCons _ _ ihp ihq => exact fun hc => (List.mem_append.1 hc).elim (ihp h) (ihq h)

end Pattern

/-- No rule that reads a whole text reads a character behind it, be it at once or later. -/
def Unread (d : Char) (text : List Char) : Prop :=
  ∀ r ∈ survivors tokenRules text, r.pattern.reads d = false

theorem OpenTo.unread {set : Char → Bool} {text : List Char} {d : Char} (h : OpenTo set text)
    (hd : set d = false) : Unread d text :=
  fun r hr => Pattern.reads_of_within (h r hr) hd

namespace Unread

variable {d : Char} {text : List Char}

/-- Later on the rules read no more than before. -/
theorem append (h : Unread d text) (more : List Char) : Unread d (text ++ more) := by
  have hmore : ∀ rules : List TokenRule, (∀ r ∈ rules, r.pattern.reads d = false) →
      ∀ r ∈ survivors rules more, r.pattern.reads d = false := by
    induction more with
    | nil => exact fun _ hrules => hrules
    | cons c more ih =>
      refine fun rules hrules => ih _ fun r hr => ?_
      obtain ⟨⟨r', hr', -, hpattern⟩, -⟩ := mem_advance.1 hr
      rw [hpattern]
      exact Pattern.reads_derivative (hrules r' hr')
  rw [Unread, survivors_append]
  exact hmore _ h

/-- A character that is not read ends whatever was read. -/
theorem advance_eq_nil (h : Unread d text) : advance d (survivors tokenRules text) = [] := by
  refine List.eq_nil_iff_forall_not_mem.2 fun r hr => ?_
  obtain ⟨⟨r', hr', -, hpattern⟩, hnever⟩ := mem_advance.1 hr
  rw [hpattern] at hnever
  exact hnever (Pattern.derivative_eq_never_of_reads (h r' hr'))

end Unread

/-! ## Line breaks and closing brackets -/

/-- A line break or a closing bracket. -/
def Breaks (d : Char) : Prop := d = '\n' ∨ d = ']'

/-- The patterns that read one of the two: those of closing brackets, quoted texts, line breaks and
comments. -/
theorem pattern_of_reads {d : Char} (hd : Breaks d) : ∀ r ∈ tokenRules, r.pattern.reads d = true →
    r.pattern ∈ [.text [']'], .alt (TokenRule.quoted '"') (TokenRule.quoted '\''),
      .alt (.char '\n') (.seq (.char '\r') (.char '\n')),
      .seq (.char '#') (.many (.one (.excluding ['\n'])))] := by
  rcases hd with rfl | rfl <;> decide

theorem derivative_seq_char {a c : Char} (p : Pattern) (h : c ≠ a) :
    (Pattern.seq (.char a) p).derivative c = .never := by
  rw [Pattern.char, derivative_seq_one, CharClass.contains, beq_eq_false_iff_ne.2 h]
  rfl

/-- These patterns begin with characters of their own. -/
theorem begins_of_reads {d c : Char} (hd : Breaks d) {r : TokenRule} (hr : r ∈ tokenRules)
    (hreads : r.pattern.reads d = true) (hc : r.pattern.derivative c ≠ .never) :
    c ∈ [']', '"', '\'', '\n', '\r', '#'] := by
  have hpattern := pattern_of_reads hd r hr hreads
  refine Decidable.byContradiction fun hnot => hc ?_
  simp only [List.mem_cons, List.not_mem_nil, or_false, not_or] at hpattern hnot
  obtain ⟨hbracket, hdouble, hsingle, hnewline, hreturn, hhash⟩ := hnot
  rcases hpattern with h | h | h | h <;> rw [h]
  · exact derivative_seq_char _ hbracket
  · rw [TokenRule.quoted, TokenRule.quoted, Pattern.derivative, derivative_seq_char _ hdouble,
      derivative_seq_char _ hsingle]
    rfl
  · have hone : (Pattern.char '\n').derivative c = .never := if_neg (by simpa [CharClass.contains])
    rw [Pattern.derivative, derivative_seq_char _ hreturn, hone]
    rfl
  · exact derivative_seq_char _ hhash

/-- A first character that only one kind of tokens begins with. -/
theorem TokenKind.Spells.kind_eq {kind kind' : TokenKind} {c : Char} {text : List Char}
    (h : kind.Spells (c :: text)) (hfirst : ∀ r ∈ survivors tokenRules [c], r.kind = kind') :
    kind = kind' := by
  obtain ⟨r, hr, rfl⟩ := Option.map_eq_some_iff.1 h
  have hmem : r ∈ survivors (survivors tokenRules [c]) text := List.mem_of_find?_eq_some hr
  obtain ⟨r', hr', hkind, -⟩ := exists_of_mem_survivors hmem
  exact hkind.trans (hfirst r' hr')

/-- A line break of two characters is not left in the middle. -/
theorem openTo_of_return {kind : TokenKind} {text : List Char} (h : kind.Spells ('\r' :: text)) :
    OpenTo noChar ('\r' :: text) := by
  have hreturn : survivors tokenRules ['\r'] = [⟨.newline, .char '\n'⟩] := by decide
  cases text with
  | nil =>
    rw [TokenKind.Spells, hreturn] at h
    cases h
  | cons c text =>
    have hboth : OpenTo noChar ['\r', c] := by
      intro r hr
      change r ∈ advance c (survivors tokenRules ['\r']) at hr
      rw [hreturn] at hr
      obtain ⟨⟨r', hr', -, hpattern⟩, -⟩ := mem_advance.1 hr
      rw [hpattern, List.mem_singleton.1 hr', Pattern.char, Pattern.derivative]
      split <;> rfl
    exact hboth.append text

/-- A token goes on with neither of the two, unless it is a comment. -/
theorem TokenKind.Spells.unread {kind : TokenKind} {text : List Char} (h : kind.Spells text)
    (hkind : kind ≠ .comment) {d : Char} (hd : Breaks d) : Unread d text := by
  have hopen : ∀ {set : Char → Bool} {s : List Char}, OpenTo set s →
      (set '\n' || set ']') = false → Unread d s := fun hset hboth => by
    rw [Bool.or_eq_false_iff] at hboth
    rcases hd with rfl | rfl
    · exact hset.unread hboth.1
    · exact hset.unread hboth.2
  cases text with
  | nil => exact absurd h (not_spells_nil kind)
  | cons c text =>
    by_cases hc : c ∈ [']', '"', '\'', '\n', '\r', '#']
    · simp only [List.mem_cons, List.not_mem_nil, or_false] at hc
      rcases hc with rfl | rfl | rfl | rfl | rfl | rfl
      · have hbracket : OpenTo noChar [']'] := by decide
        exact (hopen hbracket rfl).append text
      · obtain rfl : kind = .stringLit := h.kind_eq (by decide)
        exact hopen (openTo_of_string h) rfl
      · obtain rfl : kind = .stringLit := h.kind_eq (by decide)
        exact hopen (openTo_of_string h) rfl
      · have hnewline : OpenTo noChar ['\n'] := by decide
        exact (hopen hnewline rfl).append text
      · exact hopen (openTo_of_return h) rfl
      · exact absurd (h.kind_eq (by decide)) hkind
    · have hfirst : Unread d [c] := by
        intro r hr
        obtain ⟨⟨r', hr', -, hpattern⟩, hnever⟩ := mem_advance.1 hr
        rw [hpattern] at hnever ⊢
        cases hreads : r'.pattern.reads d with
        | false => exact Pattern.reads_derivative hreads
        | true => exact absurd (begins_of_reads hd hr' hreads hnever) hc
      exact hfirst.append text

/-! ## Comments -/

/-- A comment behind its first character. -/
def commentRest : Pattern := .many (.one (.excluding ['\n']))

theorem survivors_comment {text : List Char} (h : '\n' ∉ text) :
    survivors tokenRules ('#' :: text) = [⟨.comment, commentRest⟩] := by
  have hfirst : survivors tokenRules ['#'] = [⟨.comment, commentRest⟩] := by decide
  rw [← List.singleton_append, survivors_append, hfirst]
  refine survivors_of_loop (by rintro ⟨⟩) fun c hc => ?_
  have hne : c ≠ '\n' := fun heq => h (heq ▸ hc)
  have hone : (Pattern.one (.excluding ['\n'])).derivative c = .nothing := by
    refine if_pos ?_
    simpa [CharClass.contains] using hne
  rw [commentRest, Pattern.derivative, hone]
  rfl

theorem exists_of_comment {text : List Char} (h : TokenKind.comment.Spells text) :
    ∃ rest, text = '#' :: rest ∧ '\n' ∉ rest := by
  have hrules : ∀ r ∈ tokenRules, r.kind = .comment →
      r.pattern = .seq (.char '#') commentRest := by
    decide
  obtain ⟨r, hr, hkind, hmatches⟩ := h.exists_rule
  rw [hrules r hr hkind] at hmatches
  obtain ⟨first, rest, rfl, hfirst, hrest⟩ := Pattern.matches_seq_iff.1 hmatches
  obtain rfl := matches_char_iff.1 hfirst
  exact ⟨rest, rfl, Pattern.not_mem_of_matches hrest rfl⟩

/-- A comment ends in front of a line break. -/
theorem stops_of_comment {text rest : List Char} (h : TokenKind.comment.Spells text)
    (hrest : ∀ d ∈ rest.head?, d = '\n') : Stops text rest := by
  obtain ⟨body, rfl, hbody⟩ := exists_of_comment h
  intro d hd
  rw [hrest d hd, survivors_comment hbody]
  rfl

/-- A comment is not the first piece in front of anything but a line break. -/
theorem head_of_comment {text rest : List Char} (h : TokenKind.comment.Spells text)
    (hfirst : firstPiece tokenRules (text ++ rest) = (.comment, text.length)) :
    ∀ d ∈ rest.head?, d = '\n' := by
  obtain ⟨body, rfl, hbody⟩ := exists_of_comment h
  -- the comment goes on up to the end of the line
  have hline : '\n' ∉ body ++ rest.takeWhile (· != '\n') := by
    refine fun hmem => (List.mem_append.1 hmem).elim hbody fun hmem => ?_
    have hne := List.all_eq_true.1 List.all_takeWhile _ hmem
    simp at hne
  have hspells : TokenKind.comment.Spells ('#' :: (body ++ rest.takeWhile (· != '\n'))) := by
    rw [TokenKind.Spells, survivors_comment hline]
    rfl
  have hrest : ∀ d ∈ (rest.dropWhile (· != '\n')).head?, d = '\n' := by
    intro d hd
    have hstop := List.head?_dropWhile_not (· != '\n') rest
    rw [Option.mem_def.1 hd] at hstop
    simpa using hstop
  have hsplit := firstPiece_append hspells (stops_of_comment hspells hrest)
  rw [List.cons_append, List.append_assoc, List.takeWhile_append_dropWhile, ← List.cons_append,
    hfirst] at hsplit
  have hnil : rest.takeWhile (· != '\n') = [] := by
    have hlength := (Prod.mk.inj hsplit).2
    simp only [List.length_cons, List.length_append] at hlength
    exact List.eq_nil_of_length_eq_zero (by omega)
  have hall : rest.dropWhile (· != '\n') = rest := by
    have happend := List.takeWhile_append_dropWhile (p := (· != '\n')) (l := rest)
    rwa [hnil, List.nil_append] at happend
  rwa [hall] at hrest

/-! ## The pieces in front of a border -/

/-- What is found in front of a border that no rule crosses does not depend on what is behind it. -/
theorem best_scanFrom_congr {rules : List TokenRule} {found : Scan} {n k : Nat}
    {text rest rest' : List Char} {kind : TokenKind}
    (h : (scanFrom rules found n (text ++ rest)).best = some (kind, k)) (hk : k ≤ n + text.length)
    (hstops : ∀ d ∈ rest'.head?, advance d (survivors rules text) = []) :
    (scanFrom rules found n (text ++ rest')).best = some (kind, k) := by
  induction text generalizing rules found n with
  | nil =>
    have hfound : found.best = some (kind, k) := by
      rcases accepted_of_best_scanFrom h with hfound | ⟨i, -, hi, -⟩
      · exact hfound
      · rw [List.length_nil] at hk
        omega
    cases rest' with
    | nil => exact hfound
    | cons d rest' =>
      have hnone : advance d rules = [] := hstops d rfl
      rw [List.nil_append, scanFrom, hnone]
      exact hfound
  | cons c text ih =>
    rw [List.cons_append] at h ⊢
    cases hempty : (advance c rules).isEmpty with
    | true =>
      rw [scanFrom] at h ⊢
      simp only [hempty, if_true] at h ⊢
      exact h
    | false =>
      rw [scanFrom_cons hempty] at h ⊢
      exact ih h (by rw [List.length_cons] at hk; omega) hstops

theorem best_of_firstPiece {rules : List TokenRule} {text : List Char}
    (h : (firstPiece rules text).1 ≠ .garbage) :
    (scan rules text).best = some (firstPiece rules text) := by
  cases hbest : (scan rules text).best with
  | none =>
    rw [firstPiece, hbest] at h
    exact absurd rfl h
  | some best =>
    rw [firstPiece, hbest]
    rfl

/-- A first piece that is not garbage is not longer than the text. -/
theorem length_firstPiece {rules : List TokenRule} {text : List Char}
    (h : (firstPiece rules text).1 ≠ .garbage) :
    0 < (firstPiece rules text).2 ∧ (firstPiece rules text).2 ≤ text.length := by
  rcases accepted_of_best_scanFrom (best_of_firstPiece h) with hnone | ⟨i, hi, hlength, -⟩
  · cases hnone
  · exact hlength ▸ (by omega : 0 < 0 + (i + 1) ∧ 0 + (i + 1) ≤ text.length)

/-- The first piece of a text and the pieces of the rest. -/
theorem exists_of_cut_eq_cons {rules : List TokenRule} {kind : TokenKind} {piece text : List Char}
    {ps : List (TokenKind × List Char)} (h : cut rules text = (kind, piece) :: ps)
    (hkind : kind ≠ .garbage) : ∃ rest, text = piece ++ rest ∧ cut rules rest = ps ∧
      firstPiece rules text = (kind, piece.length) := by
  cases text with
  | nil =>
    rw [cut, cutRaw] at h
    cases h
  | cons c cs =>
    rw [cut, cutRaw] at h
    by_cases hgarbage : (firstPiece rules (c :: cs)).1 = .garbage
    · -- what garbage is joined with is garbage
      rw [hgarbage] at h
      unfold joinGarbage at h
      split at h <;> exact absurd (congrArg Prod.fst (List.cons.inj h).1).symm hkind
    · have hlength := length_firstPiece hgarbage
      rw [joinGarbage_cons hgarbage] at h
      obtain ⟨hpiece, hps⟩ := List.cons.inj h
      obtain ⟨hfirst, rfl⟩ := Prod.mk.inj hpiece
      refine ⟨cs.drop ((firstPiece rules (c :: cs)).2 - 1), ?_, hps, Prod.ext hfirst ?_⟩
      · rw [List.cons_append, List.take_append_drop]
      · simp only [List.length_cons, List.length_take] at hlength ⊢
        omega

/-- The first piece does not depend on what is behind the pieces after it. -/
theorem firstPiece_congr {kind : TokenKind} {piece middle text rest : List Char}
    (hspells : kind.Spells piece) (hkind : kind ≠ .garbage)
    (h : firstPiece tokenRules (piece ++ (middle ++ text)) = (kind, piece.length))
    (hmiddle : kind = .comment → middle ≠ []) (hrest : ∀ d ∈ rest.head?, Breaks d) :
    firstPiece tokenRules (piece ++ (middle ++ rest)) = (kind, piece.length) := by
  by_cases hcomment : kind = .comment
  · -- behind a comment the line ends
    subst hcomment
    refine firstPiece_append hspells (stops_of_comment hspells fun d hd => ?_)
    refine head_of_comment hspells h d ?_
    obtain ⟨c, cs, hcons⟩ := List.exists_cons_of_ne_nil (hmiddle rfl)
    rwa [hcons] at hd ⊢
  · have hbest := best_of_firstPiece (by rw [h]; exact hkind)
    rw [h, scan, ← List.append_assoc] at hbest
    have hcut := best_scanFrom_congr hbest (by rw [List.length_append]; omega) fun d hd =>
      ((hspells.unread hcomment (hrest d hd)).append middle).advance_eq_nil
    rw [firstPiece, scan, ← List.append_assoc, hcut]
    rfl

/-- The pieces of a text up to a token are those of the text that is cut off there, if it goes on
with a line break or a closing bracket. -/
theorem cut_pieces_append {ps qs : List (TokenKind × List Char)} {text rest : List Char}
    (h : cut tokenRules text = ps ++ qs) (hclean : ∀ p ∈ ps, p.1 ≠ .garbage)
    (hlast : ∀ p ∈ ps.getLast?, p.1 ≠ .comment) (hrest : ∀ d ∈ rest.head?, Breaks d) :
    cut tokenRules ((ps.map (·.2)).flatten ++ rest) = ps ++ cut tokenRules rest := by
  induction ps generalizing text with
  | nil => rfl
  | cons p ps ih =>
    obtain ⟨kind, piece⟩ := p
    obtain ⟨hkind, hps⟩ := List.forall_mem_cons.1 hclean
    rw [List.cons_append] at h
    obtain ⟨text, rfl, htext, hfirst⟩ := exists_of_cut_eq_cons h hkind
    have hmem : (kind, piece) ∈ cut tokenRules (piece ++ text) := by
      rw [h]
      exact List.mem_cons_self
    have hspells : kind.Spells piece := spells_of_mem_cut hmem hkind
    have hne : piece ≠ [] := by
      rintro rfl
      exact not_spells_nil kind hspells
    have hsplit : text = (ps.map (·.2)).flatten ++ (qs.map (·.2)).flatten := by
      rw [← flatten_cut tokenRules text, htext, List.map_append, List.flatten_append]
    have hmiddle : kind = .comment → (ps.map (·.2)).flatten ≠ [] := by
      intro hcomment
      cases ps with
      | nil => exact absurd hcomment (hlast _ rfl)
      | cons q ps =>
        have hq : q ∈ cut tokenRules text := htext ▸ List.mem_cons_self
        exact List.append_ne_nil_of_left_ne_nil (ne_nil_of_mem_cut q hq) _
    rw [hsplit] at hfirst
    rw [List.map_cons, List.flatten_cons, List.append_assoc, cut,
      cutRaw_of_firstPiece hne (firstPiece_congr hspells hkind hfirst hmiddle hrest),
      joinGarbage_cons hkind, ← cut, ih htext hps fun p hp => hlast p ?_]
    · rfl
    · rw [List.getLast?_cons, Option.mem_def.1 hp]
      rfl

end RubySig
