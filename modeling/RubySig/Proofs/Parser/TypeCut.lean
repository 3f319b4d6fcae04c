import RubySig.Proofs.Parser.Cut

/-!
# The grammar of types, step by step

Each rule of the grammar of types as it is built, with the pace at which it is entered and left.

* `Parser.cut_look` … `Parser.cut_spanFrom`: single steps.
* `Parser.cut_separated`, `Parser.cut_separatedUntil`, `Parser.cut_repeatedAfter`: repetition.
* `Parser.recordKey_eq`: a key of a record by what stands behind it.
* `Parser.cut_simpleType`, `Parser.cut_unionType`: types without and with operators.
* `Parser.cut_typeExpr`, `Parser.cut_returnType`: types, with fewer levels and with more.
* `Parser.cut_methodType`: overloads.
-/

namespace RubySig

namespace Parser

variable {n i k : Nat} {α : Type}

/-! ## Single steps -/

theorem Cut.ite {s : Pace} {t : α → Pace} {p q p' q' : Parser α} {c : Prop} [Decidable c]
    (hp : c → Cut n s t p q) (hq : ¬ c → Cut n s t p' q') :
    Cut n s t (if c then p else p') (if c then q else q') := by
  split
  · exact hp ‹_›
  · exact hq ‹_›

/-- A rule can be entered with fewer looks and more lexemes in advance, and less can be said of
where it ends. -/
theorem Cut.mono {s s' : Pace} {t t' : α → Pace} {p q : Parser α} (h : Cut n s t p q)
    (hs : s'.Covers s) (ht : ∀ a, (t a).Covers (t' a)) : Cut n s' t' p q := by
  have hpure : Cut n s' (fun _ => s) (Pure.pure () : Parser Unit) (Pure.pure ()) := .pure () hs
  have hsteps : Cut n s' t' (Pure.pure () >>= fun _ => p >>= Pure.pure)
      (Pure.pure () >>= fun _ => q >>= Pure.pure) :=
    .bind hpure fun _ => .bind h fun a => .pure a (ht a)
  rwa [pure_bind, pure_bind, bind_pure, bind_pure] at hsteps

theorem Cut.enter {s s' : Pace} {t : α → Pace} {p q : Parser α} (h : Cut n s t p q)
    (hs : s'.Covers s) : Cut n s' t p q :=
  h.mono hs fun _ => ⟨le_refl _, le_refl _⟩

theorem cut_peek (j : Nat) (h : i < lookBound) :
    Cut n ⟨i, k⟩ (fun _ => ⟨i + 1, k⟩) (peek j) (peek j) :=
  .bind (.countLook h) fun _ =>
    .reading (fun c => (c.rest[j]?.map (·.kind)).getD .endOfText) fun _ _ => rfl

theorem cut_look (h : i < lookBound) : Cut n ⟨i, k⟩ (fun _ => ⟨i + 1, k⟩) look look :=
  cut_peek 0 h

theorem cut_isAt (kind : TokenKind) (h : i < lookBound) :
    Cut n ⟨i, k⟩ (fun _ => ⟨i + 1, k⟩) (isAt kind) (isAt kind) :=
  .bind (cut_look h) fun _ => .pure _ ⟨le_refl _, le_refl _⟩

theorem cut_isFollowedBy (kind : TokenKind) (h : i < lookBound) :
    Cut n ⟨i, k⟩ (fun _ => ⟨i + 1, k⟩) (isFollowedBy kind) (isFollowedBy kind) :=
  .bind (cut_peek 1 h) fun _ => .pure _ ⟨le_refl _, le_refl _⟩

theorem cut_atEnd {s : Pace} : Cut n s (fun _ => s) atEnd atEnd :=
  .reading (fun c => c.rest.isEmpty) fun _ _ => rfl

theorem cut_currentRange {s : Pace} : Cut n s (fun _ => s) currentRange currentRange :=
  .reading (fun c => (c.rest.head?.map (·.range)).getD (.emptyAt c.textEnd)) fun _ _ => rfl

theorem cut_currentText {s : Pace} : Cut n s (fun _ => s) currentText currentText :=
  .reading (fun c => (c.rest.head?.map (·.text)).getD "") fun _ _ => rfl

theorem cut_startOffset {s : Pace} : Cut n s (fun _ => s) startOffset startOffset :=
  .bind cut_currentRange fun _ => .pure _ ⟨le_refl _, le_refl _⟩

theorem cut_spanOf {s : Pace} (range : TextRange) :
    Cut n s (fun _ => s) (spanOf range) (spanOf range) :=
  .reading (fun c => (⟨c.source, range⟩ : Span)) fun _ _ => rfl

theorem cut_rangeFrom {s : Pace} (start : Nat) :
    Cut n s (fun _ => s) (rangeFrom start) (rangeFrom start) :=
  .reading (fun c => (⟨start, max c.lastEnd start⟩ : TextRange)) fun _ _ => rfl

theorem cut_spanFrom {s : Pace} (start : Nat) :
    Cut n s (fun _ => s) (spanFrom start) (spanFrom start) :=
  .bind (cut_rangeFrom start) fun _ => cut_spanOf _

theorem cut_rounds {s : Pace} : Cut n s (fun _ => s) rounds rounds :=
  .reading (fun c => c.rest.length + 1) fun _ _ => rfl

theorem cut_failAt {s : Pace} {t : α → Pace} (range : TextRange) (message : String) :
    Cut n s t (failAt range message : Parser α) (failAt range message) :=
  .throw _

theorem cut_unexpected {t : α → Pace} (what : String) (h : i < lookBound) :
    Cut n ⟨i, k⟩ t (unexpected what : Parser α) (unexpected what) := by
  have hdescribed : ∀ {s : Pace},
      Cut n s t (reading (fun c => (c.rest.head?.map describe).getD "") >>= fun found => do
          failAt (← currentRange) ("unexpected " ++ found ++ ", expected " ++ what))
        (reading (fun c => (c.rest.head?.map describe).getD "") >>= fun found => do
          failAt (← currentRange) ("unexpected " ++ found ++ ", expected " ++ what)) :=
    .bind (.reading _ fun _ _ => rfl) fun _ => .bind cut_currentRange fun _ => cut_failAt _ _
  exact .bind cut_atEnd fun _ => .ite (fun _ => .bind cut_currentRange fun _ => cut_failAt _ _)
    fun _ => .bind (.countLook h) fun _ => hdescribed

theorem cut_isAtPair (kind following : TokenKind) (h : i + 1 < lookBound) :
    Cut n ⟨i, k⟩ (fun _ => ⟨i + 2, k⟩) (isAtPair kind following) (isAtPair kind following) :=
  .bind (cut_isAt kind (by omega)) fun _ => .ite (fun _ => cut_isFollowedBy following h)
    fun _ => .pure _ ⟨Nat.le_succ _, le_refl _⟩

theorem cut_assertAt (kind : TokenKind) (h : i < lookBound) :
    Cut n ⟨i, k⟩ (fun _ => ⟨i + 1, k⟩) (assertAt kind) (assertAt kind) :=
  .bind (cut_look h) fun _ => .ite (fun _ => .throw _) fun _ => .pure _ ⟨le_refl _, le_refl _⟩

/-- A lexeme that is there is taken, and otherwise one look was for nothing. -/
theorem cut_eat (kind : TokenKind) (h : i < lookBound) :
    Cut n ⟨i, k⟩ (fun b => if b then ⟨0, k + 1⟩ else ⟨i + 1, k⟩) (eat kind) (eat kind) :=
  .bind (cut_isAt kind h) fun _ => .ite
    (fun _ => .bind .bump fun _ => .pure _ ⟨le_refl _, le_refl _⟩)
    fun _ => .pure _ ⟨le_refl _, le_refl _⟩

/-- What is done depends on whether a lexeme is there. -/
theorem Cut.eatIte {t : α → Pace} {p q p' q' : Parser α} (kind : TokenKind) (h : i < lookBound)
    (hp : Cut n ⟨0, k + 1⟩ t p q) (hq : Cut n ⟨i + 1, k⟩ t p' q') :
    Cut n ⟨i, k⟩ t (do if ← eat kind then p else p') (do if ← eat kind then q else q') :=
  .bind (cut_eat kind h) fun
    | true => hp
    | false => hq

theorem cut_expect (kind : TokenKind) (what : String) (h : i + 1 < lookBound) :
    Cut n ⟨i, k⟩ (fun _ => ⟨0, k + 1⟩) (expect kind what) (expect kind what) :=
  .bind (cut_isAt kind (by omega)) fun _ => .ite
    (fun _ => .bind cut_currentRange fun _ => .bind .bump fun _ => .pure _ ⟨le_refl _, le_refl _⟩)
    fun _ => cut_unexpected _ h

/-- Whether or not a lexeme is there, no more than one look was for nothing. -/
theorem cut_eaten (kind : TokenKind) (h : i < lookBound) :
    Cut n ⟨i, k⟩ (fun _ => ⟨i + 1, k⟩) (eat kind) (eat kind) :=
  (cut_eat kind h).mono ⟨le_refl _, le_refl _⟩ fun
    | true => ⟨Nat.zero_le _, Nat.le_succ _⟩
    | false => ⟨le_refl _, le_refl _⟩

/-! ## Repetition -/

section Repetition

variable {p q : Parser α} {w x y : Nat} {separator close mark : TokenKind}

theorem cut_separatedWithin
    (h : ∀ i, i + w ≤ lookBound → Cut n ⟨i, 1⟩ (fun _ => ⟨x, 1⟩) p q) (hx : x < lookBound)
    (m : Nat) (hi : i + w ≤ lookBound) :
    Cut n ⟨i, 1⟩ (fun _ => ⟨x + 1, 1⟩) (separatedWithin separator p m)
      (separatedWithin separator q m) := by
  induction m generalizing i with
  | zero => exact .throw _
  | succ m ih =>
    refine .bind (h i hi) fun a => .eatIte separator hx ?_ (.pure _ ⟨le_refl _, le_refl _⟩)
    exact .bind ((ih (i := 0) (by omega)).enter ⟨le_refl _, Nat.le_succ _⟩)
      fun _ => .pure _ ⟨le_refl _, le_refl _⟩

theorem cut_separated
    (h : ∀ i, i + w ≤ lookBound → Cut n ⟨i, 1⟩ (fun _ => ⟨x, 1⟩) p q) (hx : x < lookBound)
    (hi : i + w ≤ lookBound) :
    Cut n ⟨i, 1⟩ (fun _ => ⟨x + 1, 1⟩) (separated separator p) (separated separator q) :=
  .bind cut_rounds fun _ => cut_separatedWithin h hx _ hi

theorem cut_separatedUntilWithin
    (h : ∀ i, i + w ≤ lookBound → Cut n ⟨i, 1⟩ (fun _ => ⟨x, 1⟩) p q) (hx : x < lookBound)
    (hxy : x < y) (m : Nat) (hi : i + 1 + w ≤ lookBound) (hiy : i < y) :
    Cut n ⟨i, 1⟩ (fun _ => ⟨y, 1⟩) (separatedUntilWithin close separator p m)
      (separatedUntilWithin close separator q m) := by
  induction m generalizing i with
  | zero => exact .throw _
  | succ m ih =>
    refine .bind (cut_isAt close (by omega)) fun _ => .ite
      (fun _ => .pure _ ⟨hiy, le_refl _⟩) fun _ => .bind (h (i + 1) hi) fun a => ?_
    refine .eatIte separator hx ?_ (.pure _ ⟨hxy, le_refl _⟩)
    exact .bind ((ih (i := 0) (by omega) (by omega)).enter ⟨le_refl _, Nat.le_succ _⟩)
      fun _ => .pure _ ⟨le_refl _, le_refl _⟩

theorem cut_separatedUntil
    (h : ∀ i, i + w ≤ lookBound → Cut n ⟨i, 1⟩ (fun _ => ⟨x, 1⟩) p q) (hx : x < lookBound)
    (hxy : x < y) (hi : i + 1 + w ≤ lookBound) (hiy : i < y) :
    Cut n ⟨i, 1⟩ (fun _ => ⟨y, 1⟩) (separatedUntil close separator p)
      (separatedUntil close separator q) :=
  .bind cut_rounds fun _ => cut_separatedUntilWithin h hx hxy _ hi hiy

theorem cut_repeatedAfterWithin (h : Cut n ⟨0, 1⟩ (fun _ => ⟨x, 1⟩) p q) (hx : x < lookBound)
    (hxy : x < y) (m : Nat) (hi : i < lookBound) (hiy : i < y) :
    Cut n ⟨i, 1⟩ (fun _ => ⟨y, 1⟩) (repeatedAfterWithin mark p m)
      (repeatedAfterWithin mark q m) := by
  induction m generalizing i with
  | zero => exact .throw _
  | succ m ih =>
    refine .eatIte mark hi (.bind (h.enter ⟨le_refl _, Nat.le_succ _⟩) fun a => ?_)
      (.pure _ ⟨hiy, le_refl _⟩)
    exact .bind (ih hx hxy) fun _ => .pure _ ⟨le_refl _, le_refl _⟩

theorem cut_repeatedAfter (h : Cut n ⟨0, 1⟩ (fun _ => ⟨x, 1⟩) p q) (hx : x < lookBound)
    (hxy : x < y) (hi : i < lookBound) (hiy : i < y) :
    Cut n ⟨i, 1⟩ (fun _ => ⟨y, 1⟩) (repeatedAfter mark p) (repeatedAfter mark q) :=
  .bind cut_rounds fun _ => cut_repeatedAfterWithin h hx hxy _ hi hiy

end Repetition

/-! ## Names -/

theorem cut_enclosingSegmentsWithin {y : Nat} (m : Nat) (hi : i + 1 < lookBound)
    (hy : i + 2 ≤ y) :
    Cut n ⟨i, k⟩ (fun _ => ⟨y, k⟩) (enclosingSegmentsWithin m) (enclosingSegmentsWithin m) := by
  induction m generalizing i with
  | zero => exact .throw _
  | succ m ih =>
    refine .bind (cut_isAtPair _ _ hi) fun _ => .ite (fun _ => .bind .bump fun _ => .bind .bump
      fun _ => ?_) fun _ => .pure _ ⟨hy, le_refl _⟩
    exact .bind ((ih (i := 0) (by decide) (by omega)).enter (Pace.covers (le_refl _) (by omega)))
      fun _ => .pure _ ⟨le_refl _, le_refl _⟩

theorem cut_typeName (what : String) (accept : TokenKind → Bool) (h : i + 5 ≤ lookBound) :
    Cut n ⟨i, k⟩ (fun _ => ⟨0, k + 1⟩) (typeName what accept) (typeName what accept) :=
  .bind cut_startOffset fun start => .bind (cut_eaten _ (by omega)) fun _ =>
    .bind (.bind cut_rounds fun _ => cut_enclosingSegmentsWithin _ (by omega) (le_refl _)) fun _ =>
      .bind (cut_look (by omega)) fun _ => .ite
        (fun _ => .bind .bump fun _ => .bind (cut_rangeFrom start) fun _ =>
          .pure _ ⟨le_refl _, le_refl _⟩)
        fun _ => cut_unexpected _ (by omega)

/-! ## Parts of types -/

/-- A rule that opens a level, for which a lexeme was taken before. -/
def Opens (n : Nat) (p q : Parser α) : Prop := ∀ i, Cut n ⟨i, 1⟩ (fun _ => ⟨0, 1⟩) p q

section Parts

variable {type type' returnType returnType' : Parser TypeExpr}

/-- A rule that opens a level can be entered after any number of looks. -/
theorem Opens.enter (h : Opens n type type') : Cut n ⟨i, k + 1⟩ (fun _ => ⟨0, 1⟩) type type' :=
  Cut.enter (h i) (Pace.covers (le_refl _) (by omega))

theorem cut_separated_type (h : Opens n type type') (separator : TokenKind)
    (hi : i ≤ lookBound) :
    Cut n ⟨i, k + 1⟩ (fun _ => ⟨1, 1⟩) (separated separator type) (separated separator type') :=
  (cut_separated (w := 0) (fun i _ => h i) (by decide) hi).enter
    (Pace.covers (le_refl _) (by omega))

theorem cut_namedWith (h : Opens n type type') (what : String) (accept : TokenKind → Bool)
    (hi : i + 5 ≤ lookBound) :
    Cut n ⟨i, k⟩ (fun _ => ⟨1, 1⟩) (namedWith type what accept) (namedWith type' what accept) :=
  .bind cut_startOffset fun start => .bind (cut_typeName what accept hi) fun (name, _) =>
    .eatIte _ (by decide)
      (.bind (cut_separated_type h _ (by decide)) fun _ => .bind (cut_expect _ _ (by decide))
        fun _ => .bind (cut_spanFrom start) fun _ => .pure _ (Pace.covers (by decide) (by decide)))
      (.bind (cut_spanFrom start) fun _ => .pure _ (Pace.covers (by decide) (by omega)))

theorem cut_integerType : Cut n ⟨i, k⟩ (fun _ => ⟨0, 1⟩) integerType integerType :=
  .bind cut_currentRange fun _ => .bind .bump fun _ => .ite
    (fun _ => .pure _ (Pace.covers (le_refl _) (by omega))) fun _ => cut_failAt _ _

theorem cut_paramOf (slot : Slot) (h : Opens n type type') :
    Cut n ⟨i, k + 1⟩ (fun _ => ⟨1, 1⟩) (paramOf slot type) (paramOf slot type') :=
  .bind h.enter fun _ => .bind (cut_isAt _ (by decide)) fun _ => .ite
    (fun _ => .bind .bump fun _ => .pure _ (Pace.covers (by decide) (by decide)))
    fun _ => .pure _ (Pace.covers (le_refl _) (le_refl _))

theorem cut_keywordName : Cut n ⟨i, k⟩ (fun _ => ⟨0, k + 2⟩) keywordName keywordName :=
  .bind .bump fun _ => .bind (cut_expect _ _ (by decide)) fun _ =>
    .pure _ (Pace.covers (le_refl _) (le_refl _))

theorem cut_isOptionalKeyword (hi : i + 2 ≤ lookBound) :
    Cut n ⟨i, k⟩ (fun _ => ⟨i + 2, k⟩) isOptionalKeyword isOptionalKeyword :=
  .bind (cut_peek 1 (by omega)) fun _ => .ite
    (fun _ => .bind (cut_peek 2 (by omega)) fun _ => .pure _ (Pace.covers (le_refl _) (le_refl _)))
    fun _ => .pure _ (Pace.covers (by omega) (le_refl _))

theorem cut_param (h : Opens n type type') (hi : i + 3 ≤ lookBound) :
    Cut n ⟨i, 1⟩ (fun _ => ⟨1, 1⟩) (param type) (param type') := by
  refine .bind (cut_look (by omega)) fun kind => ?_
  split
  · exact .bind (cut_isOptionalKeyword (by omega)) fun _ => .ite
      (fun _ => .bind .bump fun _ => .bind cut_keywordName fun key => cut_paramOf _ h)
      fun _ => .bind .bump fun _ => cut_paramOf _ h
  · exact .bind .bump fun _ => cut_paramOf _ h
  · exact .bind .bump fun _ => cut_paramOf _ h
  · exact .ite (fun _ => .bind (cut_isFollowedBy _ (by omega)) fun _ => .ite
      (fun _ => .bind cut_keywordName fun key => cut_paramOf _ h) fun _ => cut_paramOf _ h)
      fun _ => cut_paramOf _ h

theorem cut_params (h : Opens n type type') (hi : i < lookBound) :
    Cut n ⟨i, 1⟩ (fun _ => ⟨i + 1, 1⟩) (params type) (params type') := by
  have hparams : Cut n ⟨0, 1⟩ (fun _ => ⟨2, 1⟩)
      (separatedUntil .parenClose .comma (param type))
      (separatedUntil .parenClose .comma (param type')) :=
    cut_separatedUntil (w := 3) (fun _ hi => cut_param h hi) (by decide) (by decide) (by decide)
      (by decide)
  exact .eatIte _ hi
    (.bind (hparams.enter (Pace.covers (le_refl _) (by decide))) fun _ =>
      .bind (cut_expect _ _ (by decide)) fun _ => .pure _ (Pace.covers (by omega) (by decide)))
    (.pure _ (Pace.covers (le_refl _) (le_refl _)))

theorem cut_blockBody (required : Bool) (h : Opens n type type') :
    Cut n ⟨0, k + 1⟩ (fun _ => ⟨0, 1⟩) (blockBody required type) (blockBody required type') :=
  .bind ((cut_params h (by decide)).enter (Pace.covers (le_refl _) (by omega))) fun _ =>
    .bind (cut_expect _ _ (by decide)) fun _ => .bind h.enter fun _ =>
      .bind (cut_expect _ _ (by decide)) fun _ => .pure _ (Pace.covers (le_refl _) (by decide))

theorem cut_block (h : Opens n type type') (hi : i + 2 ≤ lookBound) :
    Cut n ⟨i, 1⟩ (fun _ => ⟨i + 2, 1⟩) (block type) (block type') := by
  refine .bind (cut_look (by omega)) fun kind => ?_
  split
  · exact .bind .bump fun _ => (cut_blockBody true h).mono (Pace.covers (le_refl _) (le_refl _))
      fun _ => Pace.covers (Nat.zero_le _) (le_refl _)
  · exact .bind (cut_isFollowedBy _ (by omega)) fun _ => .ite
      (fun _ => .bind .bump fun _ => .bind .bump fun _ =>
        (cut_blockBody false h).mono (Pace.covers (le_refl _) (le_refl _))
          fun _ => Pace.covers (Nat.zero_le _) (le_refl _))
      fun _ => .pure _ (Pace.covers (le_refl _) (le_refl _))
  · exact .pure _ (Pace.covers (by omega) (le_refl _))

theorem cut_callable (h : Opens n type type') (hreturn : Opens n returnType returnType')
    (hi : i + 5 ≤ lookBound) :
    Cut n ⟨i, 1⟩ (fun _ => ⟨0, 1⟩) (callable type returnType) (callable type' returnType') :=
  .bind (cut_params h (by omega)) fun _ => .bind (cut_block h (by omega)) fun _ =>
    .bind (cut_expect _ _ (by omega)) fun _ => .bind hreturn.enter fun _ =>
      .pure _ (Pace.covers (le_refl _) (le_refl _))

/-! ## Types without operators -/

theorem cut_tupleType (h : Opens n type type') (hi : i < lookBound) :
    Cut n ⟨i, k⟩ (fun _ => ⟨0, 1⟩) (tupleType type) (tupleType type') := by
  have htypes : Cut n ⟨0, 1⟩ (fun _ => ⟨1, 1⟩) (separatedUntil .bracketClose .comma type)
      (separatedUntil .bracketClose .comma type') :=
    cut_separatedUntil (w := 0) (fun i _ => h i) (by decide) (by decide) (by decide) (by decide)
  exact .bind (cut_assertAt _ hi) fun _ => .bind .bump fun _ =>
    .bind (htypes.enter (Pace.covers (le_refl _) (by omega))) fun _ =>
      .bind (cut_expect _ _ (by decide)) fun _ => .pure _ (Pace.covers (le_refl _) (by decide))

/-- The key of a record field with an arrow behind it, if it begins with a lexeme of a kind. -/
def arrowKey (kind : TokenKind) : Parser RecordKey :=
  if kind == .stringLit then do
    let quoted ← bump
    let _ ← expect .fatArrow "`=>`"
    return .string quoted
  else if kind == .symbolLit then do
    let text ← bump
    let _ ← expect .fatArrow "`=>`"
    return .symbol (symbolName text)
  else unexpected "a record key"

/-- A key is a word with a colon behind it, or it has an arrow behind it. -/
theorem recordKey_eq : recordKey = (do
    let kind ← look
    if kind.isWord then
      if ← isFollowedBy .colon then
        let name ← bump
        let _ ← bump
        return .symbol name
      else arrowKey kind
    else arrowKey kind) := by
  refine congrArg (look >>= ·) (funext fun kind => ?_)
  rw [wordKey?]
  split
  · rfl
  · rw [pure_bind]
    rfl

theorem cut_wordKey (kind : TokenKind) (hi : i < lookBound) :
    Cut n ⟨i, k⟩ (fun _ => ⟨i + 1, k⟩) (wordKey? kind) (wordKey? kind) :=
  .ite (fun _ => cut_isFollowedBy _ hi) fun _ => .pure _ (Pace.covers (Nat.le_succ _) (le_refl _))

theorem cut_recordKey (hi : i + 3 ≤ lookBound) :
    Cut n ⟨i, k⟩ (fun _ => ⟨0, 1⟩) recordKey recordKey :=
  .bind (cut_look (by omega)) fun kind => .bind (cut_wordKey kind (by omega)) fun _ => .ite
    (fun _ => .bind .bump fun _ => .bind .bump fun _ =>
      .pure _ (Pace.covers (le_refl _) (by omega)))
    fun _ => .ite
      (fun _ => .bind .bump fun _ => .bind (cut_expect _ _ (by decide)) fun _ =>
        .pure _ (Pace.covers (le_refl _) (by omega)))
      fun _ => .ite
        (fun _ => .bind .bump fun _ => .bind (cut_expect _ _ (by decide)) fun _ =>
          .pure _ (Pace.covers (le_refl _) (by omega)))
        fun _ => cut_unexpected _ (by omega)

theorem cut_recordField (h : Opens n type type') (hi : i + 3 ≤ lookBound) :
    Cut n ⟨i, k⟩ (fun _ => ⟨0, 1⟩) (recordField type) (recordField type') :=
  .bind (cut_recordKey hi) fun _ => .bind h.enter fun _ =>
    .pure _ (Pace.covers (le_refl _) (le_refl _))

theorem cut_recordType (h : Opens n type type') (hi : i < lookBound) :
    Cut n ⟨i, k⟩ (fun _ => ⟨0, 1⟩) (recordType type) (recordType type') := by
  have hfields : Cut n ⟨0, 1⟩ (fun _ => ⟨1, 1⟩)
      (separatedUntil .braceClose .comma (recordField type))
      (separatedUntil .braceClose .comma (recordField type')) :=
    cut_separatedUntil (w := 3) (fun i hi => cut_recordField h hi) (by decide) (by decide)
      (by decide) (by decide)
  exact .bind (cut_assertAt _ hi) fun _ => .bind .bump fun _ =>
    .bind (hfields.enter (Pace.covers (le_refl _) (by omega))) fun _ =>
      .bind (cut_expect _ _ (by decide)) fun _ => .pure _ (Pace.covers (le_refl _) (by decide))

theorem cut_procType (h : Opens n type type') (hreturn : Opens n returnType returnType')
    (hi : i < lookBound) :
    Cut n ⟨i, k⟩ (fun _ => ⟨0, 1⟩) (procType type returnType) (procType type' returnType') :=
  .bind (cut_assertAt _ hi) fun _ => .bind .bump fun _ =>
    .bind ((cut_callable h hreturn (by decide)).enter (Pace.covers (le_refl _) (by omega)))
      fun (_, _) => .pure _ (Pace.covers (le_refl _) (le_refl _))

theorem cut_singletonType (hi : i < lookBound) :
    Cut n ⟨i, k⟩ (fun _ => ⟨0, 1⟩) singletonType singletonType :=
  .bind cut_startOffset fun start => .bind (cut_assertAt _ hi) fun _ => .bind .bump fun _ =>
    .bind (cut_expect _ _ (by decide)) fun _ => .bind (cut_typeName _ _ (by decide)) fun (_, _) =>
      .bind (cut_expect _ _ (by decide)) fun _ => .bind (cut_spanFrom start) fun _ =>
        .pure _ (Pace.covers (le_refl _) (by omega))

theorem cut_isAtTypeVar (vars : List String) (hi : i < lookBound) :
    Cut n ⟨i, k⟩ (fun _ => ⟨i + 1, k⟩) (isAtTypeVar vars) (isAtTypeVar vars) :=
  .bind cut_currentText fun _ => .bind (cut_isFollowedBy _ hi) fun _ => .ite
    (fun _ => .pure _ (Pace.covers (le_refl _) (le_refl _)))
    fun _ => .pure _ (Pace.covers (le_refl _) (le_refl _))

theorem cut_anyNamed (h : Opens n type type') (hi : i + 5 ≤ lookBound) :
    Cut n ⟨i, k⟩ (fun _ => ⟨1, 1⟩) (anyNamed type) (anyNamed type') :=
  .bind (cut_namedWith h _ _ hi) fun _ => .pure _ (Pace.covers (le_refl _) (le_refl _))

theorem cut_simpleType (vars : List String) (h : Opens n type type')
    (hreturn : Opens n returnType returnType') (hi : i + 7 ≤ lookBound) :
    Cut n ⟨i, k⟩ (fun _ => ⟨1, 1⟩) (simpleType vars type returnType)
      (simpleType vars type' returnType') := by
  have hone : ∀ a : TypeExpr, Cut n ⟨0, k + 1⟩ (fun _ => ⟨1, 1⟩) (Pure.pure a : Parser TypeExpr)
      (Pure.pure a) := fun a => .pure a (Pace.covers (by decide) (by omega))
  have hends : ∀ {p q : Parser TypeExpr}, Cut n ⟨i + 1, k⟩ (fun _ => ⟨0, 1⟩) p q →
      Cut n ⟨i + 1, k⟩ (fun _ => ⟨1, 1⟩) p q := fun h =>
    h.mono (Pace.covers (le_refl _) (le_refl _)) fun _ => Pace.covers (by decide) (le_refl _)
  refine .bind (cut_look (by omega)) fun kind => ?_
  split
  · exact .bind .bump fun _ => hone _
  · split
    · exact .bind .bump fun _ => .bind h.enter fun _ => .bind (cut_expect _ _ (by decide)) fun _ =>
        .pure _ (Pace.covers (by decide) (by decide))
    · exact hends (cut_tupleType h (by omega))
    · exact hends (cut_recordType h (by omega))
    · exact hends (cut_procType h hreturn (by omega))
    · exact .bind .bump fun _ => hone _
    · exact .bind .bump fun _ => hone _
    · exact hends cut_integerType
    · exact .bind .bump fun _ => hone _
    · exact .bind .bump fun _ => hone _
    · exact hends (cut_singletonType (by omega))
    · exact .bind (cut_isAtTypeVar vars (by omega)) fun _ => .ite
        (fun _ => .bind .bump fun _ => hone _) fun _ => cut_anyNamed h (by omega)
    · exact cut_anyNamed h (by omega)
    · exact cut_anyNamed h (by omega)
    · exact cut_anyNamed h (by omega)
    · exact cut_unexpected _ (by omega)

/-! ## Operators -/

theorem cut_isAtOptionalMark (hi : i + 2 ≤ lookBound) :
    Cut n ⟨i, k⟩ (fun _ => ⟨i + 2, k⟩) isAtOptionalMark isAtOptionalMark :=
  .bind (cut_isAt _ (by omega)) fun _ => .ite
    (fun _ => .bind (cut_isFollowedBy _ (by omega)) fun _ =>
      .pure _ (Pace.covers (le_refl _) (le_refl _)))
    fun _ => .pure _ (Pace.covers (by omega) (le_refl _))

theorem cut_optionalMarksWithin {y : Nat} (t : TypeExpr) (m : Nat) (hi : i + 2 ≤ lookBound)
    (hy : i + 2 ≤ y) :
    Cut n ⟨i, 1⟩ (fun _ => ⟨y, 1⟩) (optionalMarksWithin t m) (optionalMarksWithin t m) := by
  induction m generalizing i t with
  | zero => exact .throw _
  | succ m ih =>
    exact .bind (cut_isAtOptionalMark hi) fun _ => .ite
      (fun _ => .bind .bump fun _ => (ih (i := 0) _ (by decide) (by omega)).enter
        (Pace.covers (le_refl _) (by decide)))
      fun _ => .pure _ (Pace.covers hy (le_refl _))

theorem cut_optionalType {simple simple' : Parser TypeExpr}
    (h : Cut n ⟨i, k⟩ (fun _ => ⟨1, 1⟩) simple simple') :
    Cut n ⟨i, k⟩ (fun _ => ⟨3, 1⟩) (optionalType simple) (optionalType simple') :=
  .bind h fun _ => .bind cut_rounds fun _ => cut_optionalMarksWithin _ _ (by decide) (by decide)

theorem cut_operands {x : Nat} {mark : TokenKind} {build : List TypeExpr → TypeExpr}
    {operand operand' : Parser TypeExpr} (hfirst : Cut n ⟨i, k⟩ (fun _ => ⟨x, 1⟩) operand operand')
    (hnext : Cut n ⟨0, 1⟩ (fun _ => ⟨x, 1⟩) operand operand') (hx : x + 2 ≤ lookBound) :
    Cut n ⟨i, k⟩ (fun _ => ⟨x + 2, 1⟩) (operands mark build operand)
      (operands mark build operand') :=
  .bind hfirst fun _ => .bind (cut_isAt _ (by omega)) fun _ => .ite
    (fun _ => .bind (cut_repeatedAfter hnext (by omega) (by omega) (by omega) (by omega)) fun _ =>
      .pure _ (Pace.covers (le_refl _) (le_refl _)))
    fun _ => .pure _ (Pace.covers (by omega) (le_refl _))

theorem cut_unionType {simple simple' : Parser TypeExpr}
    (h : ∀ k, Cut n ⟨0, k⟩ (fun _ => ⟨1, 1⟩) simple simple') :
    Cut n ⟨0, k⟩ (fun _ => ⟨7, 1⟩) (unionType simple) (unionType simple') := by
  have hoperand : ∀ k, Cut n ⟨0, k⟩ (fun _ => ⟨5, 1⟩)
      (operands .amp .intersection (optionalType simple))
      (operands .amp .intersection (optionalType simple')) := fun k =>
    cut_operands (cut_optionalType (h k)) (cut_optionalType (h 1)) (by decide)
  exact cut_operands (hoperand k) (hoperand 1) (by decide)

end Parts

/-! ## Types and overloads -/

/-- A level around a rule that takes a lexeme first. -/
theorem opens_nested {x : Nat} {p q : Parser α} (h : Cut n ⟨0, 0⟩ (fun _ => ⟨x, 1⟩) p q) :
    Opens (n + 1) (nested p) (nested q) := fun _ =>
  (Cut.nested h).mono (Pace.covers (le_refl _) (le_refl _))
    fun _ => Pace.covers (le_refl _) (Nat.le_succ 1)

theorem opens_tooDeep {m x : Nat} {q : Parser α} (h : Cut m ⟨0, 0⟩ (fun _ => ⟨x, 1⟩) q q) :
    Opens 0 tooDeep (nested q) := fun _ =>
  (Cut.tooDeep h).mono (Pace.covers (le_refl _) (le_refl _))
    fun _ => Pace.covers (le_refl _) (Nat.le_succ 1)

/-- With fewer levels types and return types are what they are with more, as far as the levels go.
By induction on the larger number of levels. -/
theorem opens_typeExpr_returnType (vars : List String) {m : Nat} (h : n ≤ m) :
    Opens n (typeExpr vars n) (typeExpr vars m) ∧
      Opens n (returnType vars n) (returnType vars m) := by
  induction m generalizing n with
  | zero =>
    obtain rfl := Nat.le_zero.1 h
    exact ⟨fun _ => .throw _, fun _ => .throw _⟩
  | succ m ih =>
    cases n with
    | zero =>
      obtain ⟨htype, hreturn⟩ := ih (le_refl m)
      exact ⟨opens_tooDeep (cut_unionType fun _ => cut_simpleType vars htype hreturn (by decide)),
        opens_tooDeep (cut_optionalType (cut_simpleType vars htype hreturn (by decide)))⟩
    | succ n =>
      obtain ⟨htype, hreturn⟩ := ih (Nat.le_of_succ_le_succ h)
      exact ⟨opens_nested (cut_unionType fun _ => cut_simpleType vars htype hreturn (by decide)),
        opens_nested (cut_optionalType (cut_simpleType vars htype hreturn (by decide)))⟩

section Overloads

variable {m : Nat}

theorem opens_typeExpr (vars : List String) (h : n ≤ m) :
    Opens n (typeExpr vars n) (typeExpr vars m) :=
  (opens_typeExpr_returnType vars h).1

theorem cut_namedType (vars : List String) (what : String) (h : n ≤ m)
    (hi : i + 5 ≤ lookBound) :
    Cut n ⟨i, k⟩ (fun _ => ⟨1, 1⟩) (namedType vars n what) (namedType vars m what) :=
  cut_namedWith (opens_typeExpr vars h) what _ hi

theorem cut_variance (allowed : Bool) (hi : i < lookBound) :
    Cut n ⟨i, k⟩ (fun _ => ⟨i + 1, k⟩) (variance allowed) (variance allowed) := by
  refine .bind (cut_look hi) fun kind => ?_
  split
  · exact .ite (fun _ => .bind .bump fun _ => .pure _ (Pace.covers (by omega) (by omega)))
      fun _ => .pure _ (Pace.covers (le_refl _) (le_refl _))
  · exact .ite (fun _ => .bind .bump fun _ => .pure _ (Pace.covers (by omega) (by omega)))
      fun _ => .pure _ (Pace.covers (le_refl _) (le_refl _))
  · exact .pure _ (Pace.covers (le_refl _) (le_refl _))

theorem cut_upperBound {type type' : Parser TypeExpr} (h : Opens n type type') :
    Cut n ⟨0, k + 1⟩ (fun _ => ⟨1, 1⟩) (upperBound type) (upperBound type') :=
  .eatIte _ (by decide)
    (.bind h.enter fun _ => .pure _ (Pace.covers (by decide) (le_refl _)))
    (.pure _ (Pace.covers (le_refl _) (by omega)))

theorem cut_uncheckedMark (allowed : Bool) (hi : i < lookBound) :
    Cut n ⟨i, k⟩ (fun _ => ⟨i + 1, k⟩) (uncheckedMark allowed) (uncheckedMark allowed) :=
  .ite (fun _ => cut_eaten _ hi) fun _ => .pure _ (Pace.covers (Nat.le_succ _) (le_refl _))

theorem cut_typeParam (allowVariance : Bool) (vars : List String) (h : n ≤ m)
    (hi : i + 4 ≤ lookBound) :
    Cut n ⟨i, k⟩ (fun _ => ⟨1, 1⟩) (typeParam allowVariance vars n)
      (typeParam allowVariance vars m) :=
  .bind cut_startOffset fun start => .bind (cut_uncheckedMark _ (by omega)) fun _ =>
    .bind (cut_variance _ (by omega)) fun _ => .bind (cut_isAt _ (by omega)) fun _ => .ite
      (fun _ => .bind .bump fun _ => .bind (cut_upperBound (opens_typeExpr _ h)) fun _ =>
        .bind (cut_spanFrom start) fun _ => .pure _ (Pace.covers (le_refl _) (le_refl _)))
      fun _ => cut_unexpected _ (by omega)

theorem cut_typeParamsWithin (allowVariance : Bool) (vars : List String) (rounds : Nat) (h : n ≤ m)
    (hi : i + 4 ≤ lookBound) :
    Cut n ⟨i, k⟩ (fun _ => ⟨2, 1⟩) (typeParamsWithin allowVariance n vars rounds)
      (typeParamsWithin allowVariance m vars rounds) := by
  induction rounds generalizing i k vars with
  | zero => exact .throw _
  | succ rounds ih =>
    exact .bind (cut_typeParam allowVariance vars h hi) fun p => .eatIte _ (by decide)
      (.bind (ih _ (by decide)) fun _ => .pure _ (Pace.covers (le_refl _) (le_refl _)))
      (.pure _ (Pace.covers (le_refl _) (le_refl _)))

theorem cut_typeParams (allowVariance : Bool) (vars : List String) (h : n ≤ m)
    (hi : i < lookBound) :
    Cut n ⟨i, 1⟩ (fun _ => ⟨i + 1, 1⟩) (typeParams allowVariance vars n)
      (typeParams allowVariance vars m) :=
  .eatIte _ hi
    (.bind cut_rounds fun _ => .bind (cut_typeParamsWithin allowVariance vars _ h (by decide))
      fun _ => .bind (cut_expect _ _ (by decide)) fun _ =>
        .pure _ (Pace.covers (Nat.zero_le _) (by decide)))
    (.pure _ (Pace.covers (le_refl _) (le_refl _)))

theorem cut_methodType (vars : List String) (h : n ≤ m) (hi : i + 6 ≤ lookBound) :
    Cut n ⟨i, 1⟩ (fun _ => ⟨0, 1⟩) (methodType vars n) (methodType vars m) :=
  .bind cut_startOffset fun start => .bind (cut_typeParams false vars h (by omega)) fun ps =>
    .bind (cut_callable (opens_typeExpr _ h) (opens_typeExpr_returnType _ h).2 (by omega))
      fun (_, _) => .bind (cut_spanFrom start) fun _ =>
        .pure _ (Pace.covers (le_refl _) (le_refl _))

end Overloads

end Parser

end RubySig
