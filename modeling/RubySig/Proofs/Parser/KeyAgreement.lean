import RubySig.Proofs.Parser.PrintedKeys
import RubySig.Proofs.Parser.TypeSpelling

/-!
# Where two rules for keys agree

Two grammars differ in the rule for record keys only.  If these rules return the same key wherever
both of them return one, then the grammars return the same type wherever both of them return one,
and all of its keys are keys on which the rules agree.

* `Parser.Agree`: two rules agree wherever both of them return something.
* `Agree.bind`, `Agree.step`, `Agree.same`: the steps from which rules are built.
* `Parser.agree_simpleWith`, `Parser.agree_unionType`, `Parser.agree_typeWith`: the grammar.
* `Parser.agree_printedKey`: where the rule for printed keys agrees with that of the grammar a key
  has no mark.
-/

namespace RubySig

namespace Parser

variable {α β : Type}

/-- Two rules that are entered in front of the same lexemes of a text and both return something
return the same and end at the same place, and what they return has a property. -/
def Agree (p q : Parser α) (post : α → Prop) : Prop :=
  ∀ c a b d d', (∀ l ∈ c.rest, l.Proper) → p c = .ok a d → q c = .ok b d' →
    (a = b ∧ d = d') ∧ (∀ l ∈ d.rest, l.Proper) ∧ post a

namespace Agree

variable {p q : Parser α} {mid post : α → Prop} {result : β → Prop}

/-! ## Single steps -/

/-- A rule agrees with itself. -/
theorem same (h : Ensures anywhere p fun a _ => post a) : Agree p p post := by
  intro c a b d d' hproper hrun hrun'
  obtain ⟨hproper', ha⟩ := h c a d hproper trivial hrun
  exact ⟨EStateM.Result.ok.inj (hrun.symm.trans hrun'), hproper', ha⟩

theorem pure {a : α} (h : post a) : Agree (Pure.pure a : Parser α) (Pure.pure a) post :=
  same (.pure fun _ _ => h)

/-- A rule that returns nothing agrees with every rule. -/
theorem stops (h : Yields p fun _ => False) : Agree p q post :=
  fun c a _ d _ _ hrun _ => (h c a d hrun).elim

theorem throw (stop : Stop) : Agree (MonadExcept.throw stop : Parser α) q post :=
  stops (.throw stop)

theorem unexpected (what : String) : Agree (Parser.unexpected what : Parser α) q post :=
  stops (.unexpected what)

theorem bind {f g : α → Parser β} (hp : Agree p q mid)
    (hf : ∀ a, mid a → Agree (f a) (g a) result) : Agree (p >>= f) (q >>= g) result := by
  intro c b b' d d' hproper hrun hrun'
  obtain ⟨a, c₁, hfirst, hsecond⟩ := exists_of_bind_eq_ok hrun
  obtain ⟨a', c₁', hfirst', hsecond'⟩ := exists_of_bind_eq_ok hrun'
  obtain ⟨⟨rfl, rfl⟩, hproper₁, ha⟩ := hp c a a' c₁ c₁' hproper hfirst hfirst'
  exact hf a ha c₁ b b' d d' hproper₁ hsecond hsecond'

/-- A step that both rules take. -/
theorem step {t : α → Pace} {f g : α → Parser β} (h : Cut 0 ⟨0, 0⟩ t p p)
    (hf : ∀ a, Agree (f a) (g a) result) : Agree (p >>= f) (p >>= g) result :=
  have hfirst : Agree p p fun _ => True := same (.of_cut h)
  bind hfirst fun a _ => hf a

theorem ite {c : Prop} [Decidable c] {p' q' : Parser α} (hp : c → Agree p q post)
    (hq : ¬ c → Agree p' q' post) : Agree (if c then p else p') (if c then q else q') post := by
  split
  · exact hp ‹_›
  · exact hq ‹_›

theorem nested (h : Agree p q post) : Agree (Parser.nested p) (Parser.nested q) post := by
  intro c a b d d' hproper hrun hrun'
  obtain ⟨d₁, hinner, rfl⟩ := exists_of_nested_eq_ok hrun
  obtain ⟨d₁', hinner', rfl⟩ := exists_of_nested_eq_ok hrun'
  obtain ⟨⟨rfl, rfl⟩, hproper', ha⟩ := h (opened c) a b d₁ d₁' hproper hinner hinner'
  exact ⟨⟨rfl, rfl⟩, hproper', ha⟩

/-! ## Repetition -/

variable {separator close mark : TokenKind} {each : α → Prop}

theorem cons {r r' : Parser (List α)} {a : α} (ha : each a)
    (hr : Agree r r' fun as => ∀ a ∈ as, each a) :
    Agree (do return a :: (← r)) (do return a :: (← r')) fun as => ∀ a ∈ as, each a :=
  bind hr fun _ has => pure (List.forall_mem_cons.2 ⟨ha, has⟩)

theorem nil : Agree (Pure.pure [] : Parser (List α)) (Pure.pure []) fun as => ∀ a ∈ as, each a :=
  pure fun _ ha => absurd ha List.not_mem_nil

theorem singleton {a : α} (ha : each a) :
    Agree (Pure.pure [a] : Parser (List α)) (Pure.pure [a]) fun as => ∀ a ∈ as, each a :=
  pure (List.forall_mem_singleton.2 ha)

theorem separatedWithin (h : Agree p q each) (n : Nat) :
    Agree (Parser.separatedWithin separator p n) (Parser.separatedWithin separator q n)
      fun as => ∀ a ∈ as, each a := by
  induction n with
  | zero => exact throw _
  | succ n ih =>
    exact bind h fun a ha => step (cut_eaten _ (by decide)) fun _ =>
      ite (fun _ => cons ha ih) fun _ => singleton ha

theorem separated (h : Agree p q each) :
    Agree (Parser.separated separator p) (Parser.separated separator q)
      fun as => ∀ a ∈ as, each a :=
  step cut_rounds fun _ => separatedWithin h _

theorem separatedUntilWithin (h : Agree p q each) (n : Nat) :
    Agree (Parser.separatedUntilWithin close separator p n)
      (Parser.separatedUntilWithin close separator q n) fun as => ∀ a ∈ as, each a := by
  induction n with
  | zero => exact throw _
  | succ n ih =>
    exact step (cut_isAt _ (by decide)) fun _ => ite (fun _ => nil) fun _ =>
      bind h fun a ha => step (cut_eaten _ (by decide)) fun _ =>
        ite (fun _ => cons ha ih) fun _ => singleton ha

theorem separatedUntil (h : Agree p q each) :
    Agree (Parser.separatedUntil close separator p) (Parser.separatedUntil close separator q)
      fun as => ∀ a ∈ as, each a :=
  step cut_rounds fun _ => separatedUntilWithin h _

theorem repeatedAfterWithin (h : Agree p q each) (n : Nat) :
    Agree (Parser.repeatedAfterWithin mark p n) (Parser.repeatedAfterWithin mark q n)
      fun as => ∀ a ∈ as, each a := by
  induction n with
  | zero => exact throw _
  | succ n ih =>
    exact step (cut_eaten _ (by decide)) fun _ =>
      ite (fun _ => bind h fun _ ha => cons ha ih) fun _ => nil

theorem repeatedAfter (h : Agree p q each) :
    Agree (Parser.repeatedAfter mark p) (Parser.repeatedAfter mark q)
      fun as => ∀ a ∈ as, each a :=
  step cut_rounds fun _ => repeatedAfterWithin h _

end Agree

/-! ## Parts of types -/

section Grammar

open TypeExpr (NoMarkedKey)

variable {type type' returnType returnType' : Parser TypeExpr}

theorem noMarkedKey_of_children {t : TypeExpr} (ht : t.hasMarkedKey = false)
    (hchildren : ∀ c ∈ t.children, c.NoMarkedKey) : t.NoMarkedKey :=
  t.noMarkedKey_iff.2 ⟨ht, hchildren⟩

theorem agree_anyNamed (h : Agree type type' NoMarkedKey) :
    Agree (anyNamed type) (anyNamed type') NoMarkedKey := by
  have hnamed : Agree (namedWith type "a type" acceptsAny) (namedWith type' "a type" acceptsAny)
      fun t => ∀ a ∈ t.args, a.NoMarkedKey :=
    .step cut_startOffset fun _ => .step (cut_typeName _ _ (by decide)) fun _ =>
      .step (cut_eaten _ (by decide)) fun _ => .ite
        (fun _ => .bind (.separated h) fun _ hargs => .step (cut_expect _ _ (by decide)) fun _ =>
          .step (cut_spanFrom _) fun _ => .pure hargs)
        fun _ => .step (cut_spanFrom _) fun _ => .pure nofun
  exact .bind hnamed fun _ hargs => .pure (noMarkedKey_of_children rfl hargs)

theorem agree_paramOf (slot : Slot) (h : Agree type type' NoMarkedKey) :
    Agree (paramOf slot type) (paramOf slot type') fun p => p.type.NoMarkedKey :=
  .bind h fun _ ht => .step (cut_isAt _ (by decide)) fun _ => .ite
    (fun _ => .step .bump fun _ => .pure ht) fun _ => .pure ht

theorem agree_param (h : Agree type type' NoMarkedKey) :
    Agree (param type) (param type') fun p => p.type.NoMarkedKey := by
  refine .step (cut_look (by decide)) fun kind => ?_
  split
  · exact .step (cut_isOptionalKeyword (by decide)) fun _ => .ite
      (fun _ => .step .bump fun _ => .step cut_keywordName fun _ => agree_paramOf _ h)
      fun _ => .step .bump fun _ => agree_paramOf _ h
  · exact .step .bump fun _ => agree_paramOf _ h
  · exact .step .bump fun _ => agree_paramOf _ h
  · exact .ite (fun _ => .step (cut_isFollowedBy _ (by decide)) fun _ => .ite
      (fun _ => .step cut_keywordName fun _ => agree_paramOf _ h) fun _ => agree_paramOf _ h)
      fun _ => agree_paramOf _ h

/-- Sorting parameters makes no new types. -/
theorem agree_params (h : Agree type type' NoMarkedKey) :
    Agree (params type) (params type') fun ps => ∀ p ∈ ps, p.type.NoMarkedKey := by
  refine .step (cut_eaten _ (by decide)) fun _ => .ite (fun _ => ?_) fun _ => .pure nofun
  refine .bind (.separatedUntil (agree_param h)) fun written hwritten =>
    .step (cut_expect _ _ (by decide)) fun _ => .pure fun p hp => ?_
  obtain ⟨q, hq, htype, -⟩ := FunctionType.exists_of_mem_arrange hp
  rw [htype]
  exact hwritten q hq

/-- The types of a function have no marked keys. -/
def PlainFunction (f : FunctionType) : Prop := ∀ t ∈ f.types, t.NoMarkedKey

theorem plainFunction {ps : List Param} {t : TypeExpr} (hps : ∀ p ∈ ps, p.type.NoMarkedKey)
    (ht : t.NoMarkedKey) : PlainFunction ⟨ps, t⟩ :=
  List.forall_mem_append.2 ⟨List.forall_mem_map.2 hps, List.forall_mem_singleton.2 ht⟩

theorem agree_blockBody (required : Bool) (h : Agree type type' NoMarkedKey) :
    Agree (blockBody required type) (blockBody required type')
      fun block => ∀ t ∈ blockTypes block, t.NoMarkedKey :=
  .bind (agree_params h) fun _ hps => .step (cut_expect _ _ (by decide)) fun _ =>
    .bind h fun _ ht => .step (cut_expect _ _ (by decide)) fun _ => .pure (plainFunction hps ht)

theorem agree_block (h : Agree type type' NoMarkedKey) :
    Agree (block type) (block type') fun block => ∀ t ∈ blockTypes block, t.NoMarkedKey := by
  refine .step (cut_look (by decide)) fun kind => ?_
  split
  · exact .step .bump fun _ => agree_blockBody _ h
  · exact .step (cut_isFollowedBy _ (by decide)) fun _ => .ite
      (fun _ => .step .bump fun _ => .step .bump fun _ => agree_blockBody _ h) fun _ => .pure nofun
  · exact .pure nofun

theorem agree_procType (h : Agree type type' NoMarkedKey)
    (hreturn : Agree returnType returnType' NoMarkedKey) :
    Agree (procType type returnType) (procType type' returnType') NoMarkedKey := by
  have hcallable : Agree (callable type returnType) (callable type' returnType') fun r =>
      PlainFunction r.1 ∧ ∀ t ∈ blockTypes r.2, t.NoMarkedKey :=
    .bind (agree_params h) fun _ hps => .bind (agree_block h) fun _ hblock =>
      .step (cut_expect _ _ (by decide)) fun _ => .bind hreturn fun _ ht =>
        .pure ⟨plainFunction hps ht, hblock⟩
  exact .step (cut_assertAt _ (by decide)) fun _ => .step .bump fun _ =>
    .bind hcallable fun _ htypes => .pure (noMarkedKey_of_children rfl
      (List.forall_mem_append.2 htypes))

theorem agree_tupleType (h : Agree type type' NoMarkedKey) :
    Agree (tupleType type) (tupleType type') NoMarkedKey :=
  .step (cut_assertAt _ (by decide)) fun _ => .step .bump fun _ =>
    .bind (.separatedUntil h) fun _ htypes => .step (cut_expect _ _ (by decide)) fun _ =>
      .pure (noMarkedKey_of_children rfl htypes)

/-! ## Types without operators -/

variable {vars : List String}

/-- Away from records only the types inside a type matter. -/
theorem agree_simpleType {c : Cursor} (hbrace : kindOf c.rest 0 ≠ .braceOpen)
    (h : Agree type type' NoMarkedKey) (hreturn : Agree returnType returnType' NoMarkedKey)
    {a b : TypeExpr} {d d' : Cursor} (hproper : ∀ l ∈ c.rest, l.Proper)
    (hrun : simpleType vars type returnType c = .ok a d)
    (hrun' : simpleType vars type' returnType' c = .ok b d') :
    (a = b ∧ d = d') ∧ (∀ l ∈ d.rest, l.Proper) ∧ a.NoMarkedKey := by
  have hleaf : ∀ {t : TypeExpr}, t.hasMarkedKey = false → t.children = [] → t.NoMarkedKey :=
    fun ht hnone => noMarkedKey_of_children ht (by rw [hnone]; exact nofun)
  have hlook : look c = .ok (kindOf c.rest 0) (looked c) := peek_eq 0 c
  rw [simpleType, bind_of_ok hlook] at hrun hrun'
  refine (?_ : Agree _ _ NoMarkedKey) (looked c) a b d d' hproper hrun hrun'
  split
  · exact .step .bump fun _ => .pure (hleaf rfl rfl)
  · split
    · exact .step .bump fun _ => .bind h fun _ ht => .step (cut_expect _ _ (by decide)) fun _ =>
        .pure ht
    · exact agree_tupleType h
    · exact absurd ‹_› hbrace
    · exact agree_procType h hreturn
    · exact .step .bump fun _ => .pure (hleaf rfl rfl)
    · exact .step .bump fun _ => .pure (hleaf rfl rfl)
    · exact .step cut_currentRange fun _ => .step .bump fun _ => .ite
        (fun _ => .pure (hleaf rfl rfl)) fun _ => .stops (.failAt _ _)
    · exact .step .bump fun _ => .pure (hleaf rfl rfl)
    · exact .step .bump fun _ => .pure (hleaf rfl rfl)
    · exact .step cut_startOffset fun _ => .step (cut_assertAt _ (by decide)) fun _ =>
        .step .bump fun _ => .step (cut_expect _ _ (by decide)) fun _ =>
          .step (cut_typeName _ _ (by decide)) fun _ => .step (cut_expect _ _ (by decide)) fun _ =>
            .step (cut_spanFrom _) fun _ => .pure (hleaf rfl rfl)
    · exact .step (cut_isAtTypeVar _ (by decide)) fun _ => .ite
        (fun _ => .step .bump fun _ => .pure (hleaf rfl rfl)) fun _ => agree_anyNamed h
    · exact agree_anyNamed h
    · exact agree_anyNamed h
    · exact agree_anyNamed h
    · exact .unexpected _

section Keys

variable {keyRule keyRule' : Parser RecordKey}

theorem agree_recordWith (hkey : Agree keyRule keyRule' fun key => key.isMarked = false)
    (h : Agree type type' NoMarkedKey) :
    Agree (recordWith keyRule type) (recordWith keyRule' type') NoMarkedKey := by
  have hfield : Agree (fieldWith keyRule type) (fieldWith keyRule' type') fun f =>
      f.key.isMarked = false ∧ f.type.NoMarkedKey :=
    .bind hkey fun _ hplain => .bind h fun _ ht => .pure ⟨hplain, ht⟩
  refine .step (cut_assertAt _ (by decide)) fun _ => .step .bump fun _ =>
    .bind (.separatedUntil hfield) fun fields hfields =>
      .step (cut_expect _ _ (by decide)) fun _ => .pure ?_
  refine noMarkedKey_of_children (List.any_eq_false.2 fun f hf => ?_)
    (List.forall_mem_map.2 fun f hf => (hfields f hf).2)
  rw [(hfields f hf).1]
  exact Bool.false_ne_true

theorem agree_simpleWith (vars : List String)
    (hkey : Agree keyRule keyRule' fun key => key.isMarked = false)
    (h : Agree type type' NoMarkedKey) (hreturn : Agree returnType returnType' NoMarkedKey) :
    Agree (simpleWith keyRule vars type returnType) (simpleWith keyRule' vars type' returnType')
      NoMarkedKey := by
  intro c a b d d' hproper hrun hrun'
  rw [simpleWith] at hrun hrun'
  by_cases hbrace : kindOf c.rest 0 = .braceOpen
  · have hrecord : Agree (do let _ ← look; recordWith keyRule type)
        (do let _ ← look; recordWith keyRule' type') NoMarkedKey :=
      .step (cut_look (by decide)) fun _ => agree_recordWith hkey h
    rw [if_pos hbrace] at hrun hrun'
    exact hrecord c a b d d' hproper hrun hrun'
  · rw [if_neg hbrace] at hrun hrun'
    exact agree_simpleType hbrace h hreturn hproper hrun hrun'

/-! ## Operators -/

variable {simple simple' : Parser TypeExpr}

theorem agree_optionalType (h : Agree simple simple' NoMarkedKey) :
    Agree (optionalType simple) (optionalType simple') NoMarkedKey := by
  have hmarks : ∀ (n : Nat) {t : TypeExpr}, t.NoMarkedKey →
      Agree (optionalMarksWithin t n) (optionalMarksWithin t n) NoMarkedKey := by
    intro n
    induction n with
    | zero => exact fun _ => .throw _
    | succ n ih =>
      intro t ht
      exact .step (cut_isAtOptionalMark (by decide)) fun _ => .ite
        (fun _ => .step .bump fun _ =>
          ih (noMarkedKey_of_children rfl (List.forall_mem_singleton.2 ht)))
        fun _ => .pure ht
  exact .bind h fun _ ht => .step cut_rounds fun n => hmarks n ht

theorem agree_operands {mark : TokenKind} {build : List TypeExpr → TypeExpr}
    (hbuild : ∀ types, (∀ t ∈ types, t.NoMarkedKey) → (build types).NoMarkedKey)
    (h : Agree simple simple' NoMarkedKey) :
    Agree (operands mark build simple) (operands mark build simple') NoMarkedKey :=
  .bind h fun _ ht => .step (cut_isAt _ (by decide)) fun _ => .ite
    (fun _ => .bind (.repeatedAfter h) fun _ hts => .pure
      (hbuild _ (List.forall_mem_cons.2 ⟨ht, hts⟩)))
    fun _ => .pure ht

theorem agree_unionType (h : Agree simple simple' NoMarkedKey) :
    Agree (unionType simple) (unionType simple') NoMarkedKey :=
  agree_operands (fun _ htypes => noMarkedKey_of_children rfl htypes)
    (agree_operands (fun _ htypes => noMarkedKey_of_children rfl htypes) (agree_optionalType h))

/-! ## Types -/

/-- Grammars with rules for keys that agree.  By induction on the levels that may be opened. -/
theorem agree_typeWith (hkey : Agree keyRule keyRule' fun key => key.isMarked = false)
    (vars : List String) (levels : Nat) :
    Agree (typeWith keyRule vars levels) (typeWith keyRule' vars levels) NoMarkedKey ∧
      Agree (returnWith keyRule vars levels) (returnWith keyRule' vars levels) NoMarkedKey := by
  induction levels with
  | zero => exact ⟨.throw _, .throw _⟩
  | succ n ih =>
    have hsimple := agree_simpleWith vars hkey ih.1 ih.2
    exact ⟨.nested (agree_unionType hsimple), .nested (agree_optionalType hsimple)⟩

end Keys

end Grammar

/-! ## Printed keys -/

theorem arrowKey_plain (kind : TokenKind) :
    Ensures (fun ls => kindOf ls 0 = kind ∧ kindOf ls 0 ≠ .symbolLit) (arrowKey kind) fun key _ =>
      key.isMarked = false := by
  refine .ite (fun _ => ?_) fun _ => .ite (fun hkind => ?_) fun _ => .unexpected _
  · exact .step .bump fun _ => .step (cut_expect _ _ (by decide)) fun _ => .pure fun _ _ => rfl
  · exact .of_pre False (fun _ h => h.2 (h.1.trans (beq_iff_eq.1 hkind))) False.elim

/-- A word in front of a colon is a key without a mark, and so is a quoted text. -/
theorem recordKey_plain : Ensures (fun ls => kindOf ls 0 ≠ .symbolLit) recordKey fun key _ =>
    key.isMarked = false := by
  rw [recordKey_eq]
  refine .look fun kind => .ite (fun hword => ?_) fun _ => arrowKey_plain kind
  refine .isFollowedBy .colon ?_ ((arrowKey_plain kind).mono (fun _ h => h.2) fun _ _ => id)
  refine .bump fun l hl => .of_pre _ (fun _ h => show l.kind = kind from h.2.1) fun hsame =>
    .step .bump fun _ => .pure fun _ _ => ?_
  have hgarbage : l.kind ≠ .garbage := by
    intro hgarbage
    rw [← hsame, hgarbage] at hword
    cases hword
  exact IsWord.isMarked ⟨l.kind, hsame ▸ hword, hl hgarbage⟩

/-- The grammar has no rule for a word with a mark and a colon behind it. -/
theorem recordKey_stops :
    Ensures (fun ls => isAtMarkedKey ls = true) recordKey fun _ _ => False := by
  refine .look fun kind => .of_pre (kind.isWord = true) (fun ls h => ?_) fun hword => ?_
  · have hmarked := h.2
    rw [isAtMarkedKey, h.1, Bool.and_assoc, Bool.and_eq_true] at hmarked
    exact hmarked.1
  · rw [wordKey?, if_pos hword]
    refine .isFollowedBy .colon (.of_pre False (fun ls h => ?_) False.elim) ?_
    · -- a mark stands where a colon would have to
      have hmarked := h.2.2
      rw [isAtMarkedKey, h.1] at hmarked
      simp [isMarkKind] at hmarked
    · refine .ite (absurd · Bool.false_ne_true) fun _ => .ite (fun hkind => ?_)
        fun _ => .ite (fun hkind => ?_) fun _ => .unexpected _
      all_goals
        rw [beq_iff_eq.1 hkind] at hword
        cases hword

/-- Where both rules for keys return something it is a key without a mark. -/
theorem agree_printedKey : Agree recordKey printedKey fun key => key.isMarked = false := by
  intro c a b d d' hproper hrun hrun'
  rw [printedKey] at hrun'
  split at hrun'
  · have hnone : Yields (Parser.unexpected "a record key" : Parser RecordKey) fun _ => False :=
      .unexpected _
    exact (hnone c b d' hrun').elim
  · split at hrun'
    · exact (recordKey_stops c a d hproper ‹_› hrun).2.elim
    · obtain ⟨hproper', hplain⟩ := recordKey_plain c a d hproper ‹_› hrun
      exact ⟨EStateM.Result.ok.inj (hrun.symm.trans hrun'), hproper', hplain⟩

end Parser

end RubySig
