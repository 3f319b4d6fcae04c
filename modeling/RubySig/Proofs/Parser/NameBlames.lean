import RubySig.Proofs.Parser.Blames

/-!
# Syntax errors in names and lists

Wherever a qualified name stops, what it took can be completed to a name, and wherever a list stops,
to a list.

* `Closed`: the completions of what is around a type.
* `Near`, `Named`, `Shy`: what a rule that is left early keeps of the next lexemes.
* `Parser.typeName_viable`: qualified names.
* `Parser.separated_completable`, `Parser.separatedUntil_viable`, `Parser.repeatedAfter_viable`:
  repetition.
-/

namespace RubySig

/-! ## Completions around a type -/

/-- Kinds that close what is around a type, or the whole text. -/
def TokenKind.closes : TokenKind → Bool
  | .parenClose | .bracketClose | .braceClose | .keyword .kwEnd | .endOfText => true
  | _ => false

/-- A completion of what is around a type. -/
def Closed (w : List Filler) : Prop := (seen (shown w) 0).closes = true

theorem Closed.ne {w : List Filler} (h : Closed w) {kind : TokenKind}
    (hkind : kind.closes = false) : seen (shown w) 0 ≠ kind := by
  rintro rfl
  exact absurd (h.symm.trans hkind) nofun

/-! ## What is kept of the next lexemes -/

/-- A lexeme of the kind is the second one only if it is in the text. -/
def Unseen (kind : TokenKind) (ls s : List Face) : Prop := seen s 1 = kind → seen ls 1 = kind

/-- A name that goes on behind its first segment still does. -/
def Qualified (ls s : List Face) : Prop :=
  seen ls 0 = .upperIdent → seen ls 1 = .doubleColon → seen s 1 = .doubleColon

/-- What a type keeps: it does not begin with the name of a keyword parameter. -/
def Near (ls s : List Face) : Prop := Unseen .colon ls s ∧ Qualified ls s

/-- What a name keeps in front of a completion. -/
def Named (w : List Filler) (ls s : List Face) : Prop :=
  (seen (shown w) 0 ≠ .colon → Unseen .colon ls s) ∧ Qualified ls s

/-- Nothing is read where a block might begin with a mark `?`. -/
def Shy (ls _ : List Face) : Prop := seen ls 0 = .question → seen ls 1 ≠ .braceOpen

theorem shy_of_ne {f : Face} {ls s : List Face} {kind : TokenKind} (hf : f.1 = kind)
    (hkind : kind ≠ .question) : Shy (f :: ls) s :=
  fun hmark => absurd (hf.symm.trans hmark) hkind

theorem Named.near {w : List Filler} {ls s : List Face} (h : Named w ls s) (hw : Closed w) :
    Near ls s :=
  ⟨h.1 (hw.ne rfl), h.2⟩

namespace Parser

variable {α β : Type} {n : Nat} {w : List Filler}

theorem Ahead.unseen {kind : TokenKind} {f : Face} {ls s : List Face} (h : Ahead w ls s)
    (hw : seen (shown w) 0 ≠ kind) : Unseen kind (f :: ls) (f :: s) := by
  rcases h with rfl | halike
  · exact fun hs => absurd hs hw
  · intro hs
    exact halike.seen_eq.symm.trans hs

theorem Ahead.near {f : Face} {ls s : List Face} (h : Ahead w ls s) (hf : f.1 ≠ .upperIdent)
    (hw : seen (shown w) 0 ≠ .colon) : Near (f :: ls) (f :: s) :=
  ⟨h.unseen hw, fun hupper => absurd hupper hf⟩

/-! ## Names -/

/-- What the last segment of a name keeps. -/
def Last (w : List Filler) (ls s : List Face) : Prop :=
  Unseen .doubleColon ls s ∧ (seen (shown w) 0 ≠ .colon → Unseen .colon ls s)

theorem enclosingSegments_viable {f : Filler} {k : List String → Parser β}
    (hw : seen (shown w) 0 ≠ .doubleColon) (hk : ∀ path, Viable n (f :: w) (Last w) (k path)) :
    Viable n (f :: w) (Named w) (enclosingSegments >>= k) := by
  induction n using Nat.strong_induction_on generalizing k with
  | _ n ih =>
    rw [enclosingSegments_eq, segmentRound, bind_assoc]
    constructor
    · refine .asks (asks_isAtPair _ _) ?_
      have hlast : (seen (shown (f :: w)) 1 == .doubleColon) = false := beq_eq_false_iff_ne.2 hw
      simp only [hlast, Bool.and_false, Bool.false_eq_true, if_false, pure_bind]
      exact (hk []).accepts
    · intro ls hls
      by_cases hpair : seen ls 0 = .upperIdent ∧ seen ls 1 = .doubleColon
      · obtain ⟨g, colons, rest, rfl, hg, hcolons⟩ :=
          exists_cons_cons_of_seen hpair.1 hpair.2 nofun nofun
        refine .answered (asks_isAtPair _ _) (a := true) (by simp [hg, hcolons])
          (fun s hs (hnext : seen s 1 = .doubleColon) =>
            ⟨⟨fun _ hcolon => ?_, fun _ _ => hnext⟩, ?_⟩) ?_
        · exact absurd (hnext.symm.trans hcolon) nofun
        · rw [hs.seen_eq, hnext, seen_zero, hg]
          rfl
        simp only [if_true, bind_assoc, pure_bind]
        refine .pass (by rw [hg]; exact nofun) ?_ fun s hs (_ : True) => hs.seen_eq.trans hcolons
        refine .take (f :: w) (by rw [hcolons]; exact nofun) (ih _ ?_ fun path => ?_).free
          fun _ _ => trivial
        · simp only [List.length_cons] at hls
          omega
        · exact (hk (_ :: path)).mono (by simp only [List.length_cons] at hls; omega)
      · have hanswer : ∀ s, Alike ls s → Last w ls s →
            (seen s 0 == .upperIdent && seen s 1 == .doubleColon) = false := by
          intro s hs hlast
          rw [← Bool.not_eq_true, Bool.and_eq_true, beq_iff_eq, beq_iff_eq, hs.seen_eq]
          exact fun h => hpair ⟨h.1, hlast.1 h.2⟩
        refine .answered (asks_isAtPair _ _) (a := false) ?_
          (fun s hs hlast => ⟨⟨hlast.2, fun h h' => absurd ⟨h, h'⟩ hpair⟩, hanswer s hs hlast⟩) ?_
        · rw [← Bool.not_eq_true, Bool.and_eq_true, beq_iff_eq, beq_iff_eq]
          exact hpair
        · simp only [Bool.false_eq_true, if_false, pure_bind]
          exact (hk []).blames ls hls

theorem lastSegment_viable (what : String) {accept : TokenKind → Bool} {f : Filler}
    {k : String → Parser β} {γ : Type} {k' : γ → Parser β}
    (haccept : ∀ kind, accept kind = true → acceptsAny kind = true) (hf : accept f.kind = true)
    (hw : seen (shown w) 0 ≠ .doubleColon) (hk : ∀ last, Viable n w unrelated (k last)) :
    Viable n (f :: w) (Last w)
      (look >>= fun kind => if accept kind then bump >>= k else unexpected what >>= k') := by
  constructor
  · refine .asks asks_look ?_
    rw [seen_shown_zero, if_pos hf]
    exact .bump (hk _).accepts
  · intro ls hls
    refine .look ?_
    split
    · next hat =>
      have hend : seen ls 0 ≠ .endOfText := fun h => by rw [h] at hat; cases haccept _ hat
      obtain ⟨g, rest, rfl, -⟩ := exists_cons_of_seen rfl hend
      have hg : g.1 ≠ .garbage := fun h => by rw [seen_zero, h] at hat; cases haccept _ hat
      exact .take w hg ((hk _).mono (Nat.le_of_succ_le hls)) fun s hs =>
        ⟨hs.unseen hw, fun hcolon => hs.unseen hcolon⟩
    · exact .unexpected what trivial

/-- A name that has to be of one kind. -/
theorem acceptsAny_of_beq {kind name : TokenKind} (hname : acceptsAny name = true)
    (h : (kind == name) = true) : acceptsAny kind = true := by
  rwa [beq_iff_eq.1 h]

/-- A qualified name is completed by its last segment. -/
theorem typeName_viable (what : String) {accept : TokenKind → Bool} {f : Filler}
    {k : TypeName × TextRange → Parser β}
    (haccept : ∀ kind, accept kind = true → acceptsAny kind = true) (hf : accept f.kind = true)
    (hw : seen (shown w) 0 ≠ .doubleColon) (hk : ∀ a, Viable n w unrelated (k a)) :
    Viable n (f :: w) (Named w) (typeName what accept >>= k) := by
  have hname : f.kind ≠ .doubleColon ∧ f.kind ≠ .colon := by
    have hany := haccept _ hf
    constructor <;> intro h <;> rw [h] at hany <;> cases hany
  simp only [typeName, bind_assoc, ite_bind, pure_bind]
  refine .idles idles_startOffset fun start => ?_
  have hpath : ∀ m ≤ n, ∀ absolute, Viable m (f :: w) (Named w) (enclosingSegments >>= fun path =>
      look >>= fun kind =>
        if accept kind then
          bump >>= fun last => rangeFrom start >>= fun range => k (⟨⟨path, absolute⟩, last⟩, range)
        else unexpected what >>= k) := fun m hm absolute =>
    enclosingSegments_viable hw fun path => lastSegment_viable what haccept hf hw fun last =>
      .idles (idles_rangeFrom start) fun range => (hk _).mono hm
  refine .eat (f :: w) nofun nofun (fun m hm => (hpath m hm.le true).free)
    (hpath n (le_refl n) false) hname.1 ?_
  intro g ls s hg hs
  exact ⟨fun _ => hs.unseen hname.2, fun hupper => by rw [seen_zero, hg] at hupper; cases hupper⟩

/-! ## Repetition -/

section Repetition

variable {p : Parser α} {v : List Filler} {before : List Face → List Face → Prop}
  {separator close : TokenKind} {levels : Nat}

/-- A lexeme between the elements of a list. -/
def Divides (kind : TokenKind) : Prop :=
  kind.closes = false ∧ kind ≠ .garbage ∧ kind ≠ .question

theorem Divides.ne_endOfText (h : Divides separator) : separator ≠ .endOfText := by
  rintro rfl
  exact absurd h.1 nofun

theorem Divides.shy (h : Divides separator) {f : Face} {ls s : List Face} (hf : f.1 = separator) :
    Shy (f :: ls) s :=
  shy_of_ne hf h.2.2

theorem divides_comma : Divides .comma := ⟨rfl, nofun, nofun⟩

theorem divides_pipe : Divides .pipe := ⟨rfl, nofun, nofun⟩

theorem divides_amp : Divides .amp := ⟨rfl, nofun, nofun⟩

theorem separated_completable (hp : Completable levels Closed v Shy before p)
    (hshort : Shortens 0 p) (hseparator : Divides separator) :
    Completable levels Closed v Shy before (separated separator p) := by
  intro β n w k hn hw hk
  induction n using Nat.strong_induction_on generalizing k with
  | _ n ih =>
    rw [separated_eq hshort]
    simp only [separatedRound, bind_assoc, ite_bind, pure_bind]
    refine hp hn hw fun a => ?_
    exact .eat (v ++ w) hseparator.2.1 hseparator.ne_endOfText
      (fun m hm => (ih m hm (hm.trans hn) fun as => (hk (a :: as)).mono hm.le).free) (hk [a])
      (hw.ne hseparator.1) fun f ls s hf _ => hseparator.shy hf

theorem repeatedAfter_viable {k : List α → Parser β} (hp : Completable levels Closed v Shy before p)
    (hshort : Shortens 0 p) (hseparator : Divides separator) (hn : n < levels) (hw : Closed w)
    (hk : ∀ as, Viable n w Shy (k as)) : Viable n w Shy (repeatedAfter separator p >>= k) := by
  induction n using Nat.strong_induction_on generalizing k with
  | _ n ih =>
    rw [repeatedAfter_eq hshort]
    simp only [repeatedAfterRound, bind_assoc, ite_bind, pure_bind]
    exact .eat (v ++ w) hseparator.2.1 hseparator.ne_endOfText
      (fun m hm => (hp (hm.trans hn) hw fun a => ih m hm (hm.trans hn) fun as =>
        (hk (a :: as)).mono hm.le).free) (hk [])
      (hw.ne hseparator.1) fun f ls s hf _ => hseparator.shy hf

theorem separatedUntil_viable {k : List α → Parser β}
    (hp : Completable levels Closed v Shy before p) (hshort : Shortens 0 p)
    (hseparator : Divides separator) (hclose : close.closes = true) (hn : n < levels)
    (hw : seen (shown w) 0 = close) (hk : ∀ as, Viable n w Shy (k as)) :
    Viable n w unrelated (separatedUntil close separator p >>= k) := by
  have hclosed : Closed w := by rwa [Closed, hw]
  induction n using Nat.strong_induction_on generalizing k with
  | _ n ih =>
    rw [separatedUntil_eq hshort]
    simp only [separatedUntilRound, bind_assoc, ite_bind, pure_bind]
    have hround : Viable n (v ++ w) before (p >>= fun a => eat separator >>= fun more =>
        if more then separatedUntil close separator p >>= fun as => k (a :: as) else k [a]) :=
      hp hn hclosed fun a => .eat w hseparator.2.1 hseparator.ne_endOfText
        (fun m hm => (ih m hm (hm.trans hn) fun as => (hk (a :: as)).mono hm.le).free) (hk [a])
        (hclosed.ne hseparator.1) fun f ls s hf _ => hseparator.shy hf
    constructor
    · refine .asks (asks_isAt close) ?_
      rw [beq_iff_eq.2 hw, if_pos rfl]
      exact (hk []).accepts
    · intro ls hls
      refine .isAt close (fun _ => ?_) fun _ => ?_
      · exact ((hk []).blames ls hls).mono fun _ _ _ => trivial
      · exact (hround.blames ls hls).mono fun _ _ _ => trivial

end Repetition

end Parser

end RubySig
