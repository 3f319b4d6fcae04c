import RubySig.Proofs.Parser.Ensures
import RubySig.Proofs.TypeExpr.Spelled

/-!
# Parsed types can be written

Every type that the grammar returns can be written in the scope in which it is read: its names, keys
and literals are lexemes of the text, its parameters were sorted, and a bare capitalized name that
is no variable is not in scope.

* `Parser.typeName_spelled`, `Parser.typeName_bare`: names.
* `Parser.params_spelled`, `Parser.recordKey_spelled`: parameters and keys.
* `Parser.simpleType_spelled`, `Parser.unionType_spelled`: the levels of the grammar.
* `Parser.typeExpr_returnType_spelled`: types.
-/

namespace RubySig

namespace Parser

/-! ## Names -/

theorem enclosingSegmentsWithin_spelled (n : Nat) :
    Ensures anywhere (enclosingSegmentsWithin n) fun path _ =>
      ∀ segment ∈ path, TokenKind.upperIdent.Spells segment.toList := by
  induction n with
  | zero => exact .throw _
  | succ n ih =>
    exact .isAtPair .upperIdent .doubleColon
      (.bumpAt .upperIdent nofun (fun _ h => h.1.1) fun segment hsegment => .step .bump fun _ =>
        .cons hsegment ih)
      .nil

/-- If there is no segment then no lexeme is taken. -/
theorem enclosingSegments_bare (ls : List Lexeme) :
    Ensures (· = ls) enclosingSegments fun path left =>
      path = [] → left = ls ∧ ¬ (kindOf ls 0 = .upperIdent ∧ kindOf ls 1 = .doubleColon) := by
  refine .reads (fun c n c' hrun => by cases hrun; rfl) fun n => ?_
  cases n with
  | zero => exact .throw _
  | succ n =>
    refine .isAtPair .upperIdent .doubleColon
      (.step .bump fun _ => .step .bump fun _ => .step (cut_enclosingSegmentsWithin n (by decide)
        (le_refl _)) fun _ => .pure fun _ _ hnil => absurd hnil (List.cons_ne_nil _ _)) ?_
    refine .pure fun left hleft _ => ?_
    obtain ⟨hpair, rfl⟩ := hleft
    exact ⟨rfl, hpair⟩

section Names

variable {accept : TokenKind → Bool}

theorem typeName_spelled (what : String) (haccept : accept .garbage = false) :
    Ensures anywhere (typeName what accept) fun r _ => r.1.Spelled accept := by
  have hsegments : Ensures anywhere enclosingSegments fun path _ =>
      ∀ segment ∈ path, TokenKind.upperIdent.Spells segment.toList :=
    .step cut_rounds fun n => enclosingSegmentsWithin_spelled n
  refine .step cut_startOffset fun _ => .step (cut_eaten _ (by decide)) fun absolute =>
    .known hsegments fun path hpath => .look fun kind => .ite (fun hkind => ?_)
      fun _ => .unexpected _
  have hgarbage : kind ≠ .garbage := by
    rintro rfl
    rw [haccept] at hkind
    cases hkind
  exact .bumpAt kind hgarbage (fun _ h => h.1) fun last hlast => .step (cut_rangeFrom _) fun _ =>
    .pure fun _ _ => ⟨hpath, kind, hkind, hlast⟩

/-- A bare name is the next lexeme, and no segment that encloses another name. -/
def IsNext (ls : List Lexeme) (name : TypeName) : Prop :=
  name.isBare = true → ∃ l rest, ls = l :: rest ∧ l.text = name.name ∧ l.Proper ∧
    l.kind ≠ .garbage ∧ ¬ (kindOf ls 0 = .upperIdent ∧ kindOf ls 1 = .doubleColon)

theorem typeName_bare (what : String) (haccept : accept .garbage = false) (ls : List Lexeme) :
    Ensures (· = ls) (typeName what accept) fun r _ => IsNext ls r.1 := by
  refine .reads (fun c start c' hrun => by cases hrun; rfl) fun start => .eat ?_ ?_
  · exact .step (cut_rounds.bind fun n => cut_enclosingSegmentsWithin n (by decide)
      (le_refl _)) fun path => .step (cut_look (by decide)) fun kind => .ite
        (fun _ => .step .bump fun last => .step (cut_rangeFrom _) fun _ =>
          .pure fun _ _ hbare => by cases hbare)
        fun _ => .unexpected _
  · have hsegments : Ensures (fun ls' => kindOf ls' 0 ≠ .doubleColon ∧ ls' = ls) enclosingSegments
        fun path left => path = [] →
          left = ls ∧ ¬ (kindOf ls 0 = .upperIdent ∧ kindOf ls 1 = .doubleColon) :=
      (enclosingSegments_bare ls).mono (fun _ h => h.2) fun _ _ => id
    refine .bind hsegments fun path => .look fun kind => .ite (fun hkind => ?_)
      fun _ => .unexpected _
    refine .bump fun l hl => .reads (fun c range c' hrun => by cases hrun; rfl) fun range =>
      .pure fun rest hrest hbare => ?_
    have hpath : path = [] := by
      have hempty : path.isEmpty = true := (Bool.and_eq_true_iff.1 hbare).2
      exact List.isEmpty_iff.1 hempty
    obtain ⟨hls, hpair⟩ := hrest.2 hpath
    refine ⟨l, rest, hls.symm, rfl, hl, ?_, hpair⟩
    have hsame : l.kind = kind := hrest.1
    rintro hgarbage
    rw [← hsame, hgarbage, haccept] at hkind
    cases hkind

end Names

section Parts

variable {β : Type} {vars : List String} {accept : TokenKind → Bool}
  {type returnType : Parser TypeExpr}

theorem namedWith_spelled (what : String) (haccept : accept .garbage = false)
    (h : Ensures anywhere type fun t _ => t.Spelled vars) (ls : List Lexeme) :
    Ensures (· = ls) (namedWith type what accept) fun t _ =>
      (t.name.Spelled accept ∧ IsNext ls t.name) ∧ ∀ a ∈ t.args, a.Spelled vars := by
  have hname : Ensures (· = ls) (typeName what accept) fun r _ =>
      r.1.Spelled accept ∧ IsNext ls r.1 :=
    (typeName_spelled what haccept).enter.and (typeName_bare what haccept ls)
  refine .reads (fun c start c' hrun => by cases hrun; rfl) fun start =>
    .known hname fun (name, _) hname => .step (cut_eaten _ (by decide)) fun _ => .ite
      (fun _ => .known (.separated h) fun args hargs => .step (cut_expect _ _ (by decide)) fun _ =>
        .step (cut_spanFrom _) fun _ => .pure fun _ _ => ⟨hname, hargs⟩)
      fun _ => .step (cut_spanFrom _) fun _ =>
        .pure fun _ _ => ⟨hname, fun _ ha => absurd ha List.not_mem_nil⟩

/-- What the rule for names makes of a capitalized name in scope is not bare. -/
theorem anyNamed_spelled (h : Ensures anywhere type fun t _ => t.Spelled vars) {ls : List Lexeme}
    (hfree : ∀ l rest, ls = l :: rest → l.kind = .upperIdent → kindOf ls 1 ≠ .doubleColon →
      l.text ∉ vars) :
    Ensures (· = ls) (anyNamed type) fun t _ => t.Spelled vars := by
  refine .known (namedWith_spelled "a type" rfl h ls) fun t ht => .pure fun _ _ => ?_
  obtain ⟨⟨hname, hnext⟩, hargs⟩ := ht
  refine (TypeExpr.spelled_iff _).2 ⟨⟨hname, fun hbare hupper => ?_⟩, hargs⟩
  obtain ⟨l, rest, rfl, htext, hproper, hgarbage, hpair⟩ := hnext hbare
  rw [← htext] at hupper ⊢
  have hkind : l.kind = .upperIdent := (hproper hgarbage).unique hupper
  exact hfree l rest rfl hkind fun hcolon => hpair ⟨hkind, hcolon⟩

/-! ## Parameters and blocks -/

/-- A parameter as it is read. -/
structure WrittenParam (vars : List String) (p : Param) : Prop where
  type : p.type.Spelled vars
  spelled : p.Spelled
  slot : p.slot ≠ .trailing

theorem paramOf_spelled (slot : Slot) (hslot : slot.Spelled) (htrailing : slot ≠ .trailing)
    (h : Ensures anywhere type fun t _ => t.Spelled vars) :
    Ensures anywhere (paramOf slot type) fun p _ => WrittenParam vars p :=
  .known h fun _ ht => .isAt .lowerIdent
    (.bumpAt .lowerIdent nofun (fun _ h => h.1) fun _ hname => .pure fun _ _ =>
      ⟨ht, ⟨hslot, fun _ hn => Option.mem_some.1 hn ▸ hname⟩, htrailing⟩)
    (.pure fun _ _ => ⟨ht, ⟨hslot, nofun⟩, htrailing⟩)

theorem keywordName_spelled :
    Ensures (fun ls => (kindOf ls 0).isWord = true) keywordName fun key _ => IsWord key := by
  refine .bump fun l hl => .of_pre _ (fun _ h => show l.kind.isWord = true from h) fun hkind => ?_
  have hgarbage : l.kind ≠ .garbage := by
    intro hgarbage
    rw [hgarbage] at hkind
    cases hkind
  exact .step (cut_expect _ _ (by decide)) fun _ => .pure fun _ _ => ⟨l.kind, hkind, hl hgarbage⟩

/-- Where an optional keyword is announced, its name follows. -/
theorem isOptionalKeyword_ensures {pre : List Lexeme → Prop} {f : Bool → Parser β}
    {result : β → List Lexeme → Prop}
    (htrue : Ensures (fun ls => (kindOf ls 1).isWord = true) (f true) result)
    (hfalse : Ensures anywhere (f false) result) :
    Ensures pre (isOptionalKeyword >>= f) result := by
  rw [isOptionalKeyword, bind_assoc]
  refine .peek 1 fun kind => ?_
  split
  · refine .isKind 2 .colon (htrue.mono (fun ls hls => ?_) fun _ _ => id) hfalse.enter
    rw [hls.2.1]
    assumption
  · exact hfalse.enter

theorem param_spelled (h : Ensures anywhere type fun t _ => t.Spelled vars) :
    Ensures anywhere (param type) fun p _ => WrittenParam vars p := by
  refine .look fun kind => ?_
  split
  · exact isOptionalKeyword_ensures
      (.bump fun _ _ => .known (keywordName_spelled.mono (fun _ h => h) fun _ _ => id)
        fun key hkey => paramOf_spelled (.optionalKeyword key) hkey nofun h)
      (.step .bump fun _ => paramOf_spelled .optional trivial nofun h)
  · exact .step .bump fun _ => paramOf_spelled .restKeywords trivial nofun h
  · exact .step .bump fun _ => paramOf_spelled .rest trivial nofun h
  · have hrequired := paramOf_spelled .required trivial nofun h
    refine .ite (fun hword => .isFollowedBy .colon ?_ hrequired.enter) fun _ => hrequired.enter
    exact .known (keywordName_spelled.mono (fun _ hls => hls.2.1 ▸ hword) fun _ _ => id)
      fun key hkey => paramOf_spelled (.requiredKeyword key) hkey nofun h

/-- Parameters that were sorted can be written. -/
theorem spelledParams_arrange {written : List Param} (h : ∀ p ∈ written, WrittenParam vars p) :
    SpelledParams (FunctionType.arrange written) ∧
      ∀ p ∈ FunctionType.arrange written, p.type.Spelled vars := by
  refine ⟨⟨FunctionType.settled_arrange fun p hp => (h p hp).slot, fun p hp => ?_⟩,
    fun p hp => ?_⟩
  all_goals
    obtain ⟨q, hq, htype, hname, hslot⟩ := FunctionType.exists_of_mem_arrange hp
    have hwritten := h q hq
  · refine ⟨?_, hname ▸ hwritten.spelled.name⟩
    rcases hslot with hslot | hslot <;> rw [hslot]
    · exact hwritten.spelled.slot
    · exact trivial
  · rw [htype]
    exact hwritten.type

theorem spelledParams_nil : SpelledParams [] := ⟨FunctionType.settled_nil, nofun⟩

theorem params_spelled (h : Ensures anywhere type fun t _ => t.Spelled vars) :
    Ensures anywhere (params type) fun ps _ =>
      SpelledParams ps ∧ ∀ p ∈ ps, p.type.Spelled vars :=
  .step (cut_eaten _ (by decide)) fun _ => .ite
    (fun _ => .known (.separatedUntil (param_spelled h)) fun _ hwritten =>
      .step (cut_expect _ _ (by decide)) fun _ => .pure fun _ _ => spelledParams_arrange hwritten)
    fun _ => .pure fun _ _ => ⟨spelledParams_nil, nofun⟩

/-- A function type with parameters that can be written. -/
def SpelledFunction (vars : List String) (f : FunctionType) : Prop :=
  SpelledParams f.params ∧ ∀ t ∈ f.types, t.Spelled vars

theorem spelledFunction {ps : List Param} {t : TypeExpr}
    (hps : SpelledParams ps ∧ ∀ p ∈ ps, p.type.Spelled vars) (ht : t.Spelled vars) :
    SpelledFunction vars ⟨ps, t⟩ :=
  ⟨hps.1, List.forall_mem_append.2
    ⟨List.forall_mem_map.2 hps.2, List.forall_mem_singleton.2 ht⟩⟩

theorem blockBody_spelled (required : Bool)
    (h : Ensures anywhere type fun t _ => t.Spelled vars) :
    Ensures anywhere (blockBody required type) fun block _ =>
      ∀ b ∈ block, SpelledFunction vars b.function :=
  .known (params_spelled h) fun _ hps => .step (cut_expect _ _ (by decide)) fun _ =>
    .known h fun _ ht => .step (cut_expect _ _ (by decide)) fun _ =>
      .pure fun _ _ _ hb => Option.mem_some.1 hb ▸ spelledFunction hps ht

theorem block_spelled (h : Ensures anywhere type fun t _ => t.Spelled vars) :
    Ensures anywhere (block type) fun block _ => ∀ b ∈ block, SpelledFunction vars b.function := by
  refine .look fun kind => ?_
  split
  · exact .step .bump fun _ => blockBody_spelled _ h
  · exact .step (cut_isFollowedBy _ (by decide)) fun _ => .ite
      (fun _ => .step .bump fun _ => .step .bump fun _ => blockBody_spelled _ h)
      fun _ => .pure fun _ _ => nofun
  · exact .pure fun _ _ => nofun

theorem callable_spelled (h : Ensures anywhere type fun t _ => t.Spelled vars)
    (hreturn : Ensures anywhere returnType fun t _ => t.Spelled vars) :
    Ensures anywhere (callable type returnType) fun r _ =>
      SpelledFunction vars r.1 ∧ ∀ b ∈ r.2, SpelledFunction vars b.function :=
  .known (params_spelled h) fun _ hps => .known (block_spelled h) fun _ hblock =>
    .step (cut_expect _ _ (by decide)) fun _ => .known hreturn fun _ ht =>
      .pure fun _ _ => ⟨spelledFunction hps ht, hblock⟩

/-! ## Types without operators -/

theorem tupleType_spelled (h : Ensures anywhere type fun t _ => t.Spelled vars) :
    Ensures anywhere (tupleType type) fun t _ => t.Spelled vars :=
  .step (cut_assertAt _ (by decide)) fun _ => .step .bump fun _ =>
    .known (.separatedUntil h) fun _ htypes => .step (cut_expect _ _ (by decide)) fun _ =>
      .pure fun _ _ => (TypeExpr.spelled_iff _).2 ⟨trivial, htypes⟩

/-- The name of a symbol is a word or marked. -/
theorem spelled_symbolName {text : String} (h : TokenKind.symbolLit.Spells text.toList) :
    (RecordKey.symbol (symbolName text)).Spelled :=
  (symbol_cases (spells_symbolName h)).elim
    (fun hmarked => Or.inr (isMarkedWord_of_symbol (spells_symbolName h) hmarked.1))
    fun hword => Or.inl hword.2

theorem arrowKey_spelled (kind : TokenKind) :
    Ensures (fun ls => kindOf ls 0 = kind) (arrowKey kind) fun key _ => key.Spelled := by
  refine .ite (fun hkind => ?_) fun _ => .ite (fun hkind => ?_) fun _ => .unexpected _
  · exact .bumpAt .stringLit nofun (fun _ h => h.trans (beq_iff_eq.1 hkind)) fun _ hquoted =>
      .step (cut_expect _ _ (by decide)) fun _ => .pure fun _ _ => hquoted
  · exact .bumpAt .symbolLit nofun (fun _ h => h.trans (beq_iff_eq.1 hkind)) fun _ htext =>
      .step (cut_expect _ _ (by decide)) fun _ => .pure fun _ _ => spelled_symbolName htext

theorem recordKey_spelled : Ensures anywhere recordKey fun key _ => key.Spelled := by
  rw [recordKey_eq]
  refine .look fun kind => .ite (fun hword => ?_) fun _ =>
    (arrowKey_spelled kind).mono (fun _ h => h.1) fun _ _ => id
  refine .isFollowedBy .colon ?_ ((arrowKey_spelled kind).mono (fun _ h => h.2.1) fun _ _ => id)
  refine .bump fun l hl => .of_pre _ (fun _ h => show l.kind = kind from h.2.1) fun hsame =>
    .step .bump fun _ => .pure fun _ _ => Or.inl ?_
  refine ⟨kind, hword, hsame ▸ hl ?_⟩
  rintro hgarbage
  rw [← hsame, hgarbage] at hword
  cases hword

theorem recordType_spelled (h : Ensures anywhere type fun t _ => t.Spelled vars) :
    Ensures anywhere (recordType type) fun t _ => t.Spelled vars := by
  have hfield : Ensures anywhere (recordField type) fun f _ =>
      f.key.Spelled ∧ f.type.Spelled vars :=
    .known recordKey_spelled fun _ hkey => .known h fun _ ht => .pure fun _ _ => ⟨hkey, ht⟩
  exact .step (cut_assertAt _ (by decide)) fun _ => .step .bump fun _ =>
    .known (.separatedUntil hfield) fun _ hfields => .step (cut_expect _ _ (by decide)) fun _ =>
      .pure fun _ _ => (TypeExpr.spelled_iff _).2
        ⟨fun f hf => (hfields f hf).1, List.forall_mem_map.2 fun f hf => (hfields f hf).2⟩

theorem procType_spelled (h : Ensures anywhere type fun t _ => t.Spelled vars)
    (hreturn : Ensures anywhere returnType fun t _ => t.Spelled vars) :
    Ensures anywhere (procType type returnType) fun t _ => t.Spelled vars := by
  refine .step (cut_assertAt _ (by decide)) fun _ => .step .bump fun _ =>
    .known (callable_spelled h hreturn) fun (function, block) hcallable => .pure fun _ _ => ?_
  obtain ⟨hfunction, hblock⟩ := hcallable
  refine (TypeExpr.spelled_iff _).2 ⟨⟨hfunction.1, fun b hb => (hblock b hb).1⟩, ?_⟩
  refine List.forall_mem_append.2 ⟨hfunction.2, ?_⟩
  cases block with
  | none => exact fun _ ht => absurd ht List.not_mem_nil
  | some b => exact (hblock b rfl).2

theorem spelled_literal {value : Literal} (h : value.Spelled) :
    (TypeExpr.literal value).Spelled vars :=
  (TypeExpr.spelled_iff _).2 ⟨h, nofun⟩

theorem integerType_spelled : Ensures anywhere integerType fun t _ => t.Spelled vars :=
  .step cut_currentRange fun _ => .step .bump fun _ => .ite
    (fun hfits => .pure fun _ _ => spelled_literal hfits) fun _ => .stops (.failAt _ _)

theorem singletonType_spelled : Ensures anywhere singletonType fun t _ => t.Spelled vars :=
  .step cut_startOffset fun _ => .step (cut_assertAt _ (by decide)) fun _ => .step .bump fun _ =>
    .step (cut_expect _ _ (by decide)) fun _ => .known (typeName_spelled _ rfl)
      fun (_, _) hname => .step (cut_expect _ _ (by decide)) fun _ =>
        .step (cut_spanFrom _) fun _ => .pure fun _ _ => (TypeExpr.spelled_iff _).2 ⟨hname, nofun⟩

theorem isAtTypeVar_eq (vars : List String) (c : Cursor) :
    isAtTypeVar vars c = .ok (!(kindOf c.rest 1 == .doubleColon) &&
      vars.contains ((c.rest.head?.map (·.text)).getD "")) (looked c) := by
  have htext : currentText c = .ok ((c.rest.head?.map (·.text)).getD "") c := rfl
  have hfollowed : isFollowedBy .doubleColon c =
      .ok (kindOf c.rest 1 == .doubleColon) (looked c) := rfl
  rw [isAtTypeVar, bind_of_ok htext, bind_of_ok hfollowed]
  cases kindOf c.rest 1 == .doubleColon <;> rfl

/-- A name that becomes a variable is in scope, and a bare one that does not is not. -/
theorem typeVar_spelled {other : Parser TypeExpr}
    (hother : ∀ l rest, (kindOf (l :: rest) 1 ≠ .doubleColon → l.text ∉ vars) →
      Ensures (· = l :: rest) other fun t _ => t.Spelled vars) :
    Ensures (fun ls => kindOf ls 0 = .upperIdent)
      (do if ← isAtTypeVar vars then return .var (← bump) else other)
      fun t _ => t.Spelled vars := by
  intro c t c' hproper hupper hrun
  rw [bind_of_ok (isAtTypeVar_eq vars c)] at hrun
  obtain ⟨l, rest, hrest, hkind⟩ := head_of_kindOf hupper nofun
  cases hvar : !(kindOf c.rest 1 == .doubleColon) &&
      vars.contains ((c.rest.head?.map (·.text)).getD "") with
  | false =>
    rw [hvar] at hrun
    refine hother l rest (fun hcolon hmem => ?_) (looked c) t c' hproper hrest hrun
    rw [hrest, beq_eq_false_iff_ne.2 hcolon] at hvar
    rw [show vars.contains (((l :: rest).head?.map (·.text)).getD "") = true from
      List.contains_iff_mem.2 hmem] at hvar
    cases hvar
  | true =>
    rw [hvar] at hrun
    rw [hrest] at hvar
    have hmem : l.text ∈ vars := List.contains_iff_mem.1 (Bool.and_eq_true_iff.1 hvar).2
    have htaken : Ensures (· = l :: rest) (do return .var (← bump) : Parser TypeExpr)
        fun t _ => t.Spelled vars := by
      refine .bump fun l' hl' => .of_pre _ (fun _ h => (List.cons.inj h).1) ?_
      rintro rfl
      exact .pure fun _ _ => (TypeExpr.spelled_iff _).2
        ⟨⟨hmem, hkind ▸ hl' (hkind ▸ nofun)⟩, nofun⟩
    exact htaken (looked c) t c' hproper hrest hrun

theorem simpleType_spelled (h : Ensures anywhere type fun t _ => t.Spelled vars)
    (hreturn : Ensures anywhere returnType fun t _ => t.Spelled vars) :
    Ensures anywhere (simpleType vars type returnType) fun t _ => t.Spelled vars := by
  have hnamed : ∀ {kind : TokenKind}, kind ≠ .upperIdent →
      Ensures (fun ls => kindOf ls 0 = kind ∧ anywhere ls) (anyNamed type) fun t _ =>
        t.Spelled vars := by
    intro kind hkind
    refine .of_forall fun ls hls => anyNamed_spelled h ?_
    rintro l rest rfl hupper
    exact absurd (hls.1.symm.trans hupper) hkind
  refine .look fun kind => ?_
  split
  · exact .step .bump fun _ => .pure fun _ _ => (TypeExpr.spelled_iff _).2 ⟨trivial, nofun⟩
  · split
    · exact .step .bump fun _ => .known h fun _ ht => .step (cut_expect _ _ (by decide)) fun _ =>
        .pure fun _ _ => ht
    · exact (tupleType_spelled h).enter
    · exact (recordType_spelled h).enter
    · exact (procType_spelled h hreturn).enter
    · exact .bumpAt .stringLit nofun (fun _ h => h.1) fun _ hquoted =>
        .pure fun _ _ => spelled_literal hquoted
    · exact .bumpAt .symbolLit nofun (fun _ h => h.1) fun _ htext =>
        .pure fun _ _ => spelled_literal (spells_symbolName htext)
    · exact integerType_spelled.enter
    · exact .step .bump fun _ => .pure fun _ _ => spelled_literal trivial
    · exact .step .bump fun _ => .pure fun _ _ => spelled_literal trivial
    · exact singletonType_spelled.enter
    · exact (typeVar_spelled fun l rest hfree => anyNamed_spelled h fun l' rest' heq _ hcolon => by
        obtain ⟨rfl, rfl⟩ := List.cons.inj heq
        exact hfree hcolon).mono (fun _ hls => hls.1) fun _ _ => id
    · exact hnamed nofun
    · exact hnamed nofun
    · exact hnamed nofun
    · exact .unexpected _

/-! ## Operators -/

theorem optionalMarksWithin_spelled {t : TypeExpr} (ht : t.Spelled vars) (n : Nat) :
    Ensures anywhere (optionalMarksWithin t n) fun t _ => t.Spelled vars := by
  induction n generalizing t with
  | zero => exact .throw _
  | succ n ih =>
    have hoptional : (TypeExpr.optional t).Spelled vars :=
      (TypeExpr.spelled_iff _).2 ⟨trivial, List.forall_mem_singleton.2 ht⟩
    exact .step (cut_isAtOptionalMark (by decide)) fun _ => .ite
      (fun _ => .step .bump fun _ => ih hoptional) fun _ => .pure fun _ _ => ht

theorem optionalType_spelled {simple : Parser TypeExpr}
    (h : Ensures anywhere simple fun t _ => t.Spelled vars) :
    Ensures anywhere (optionalType simple) fun t _ => t.Spelled vars :=
  .known h fun _ ht => .step cut_rounds fun _ => optionalMarksWithin_spelled ht _

theorem operands_spelled {mark : TokenKind} {build : List TypeExpr → TypeExpr}
    {operand : Parser TypeExpr}
    (hbuild : ∀ types, 2 ≤ types.length → (∀ t ∈ types, t.Spelled vars) →
      (build types).Spelled vars)
    (h : Ensures anywhere operand fun t _ => t.Spelled vars) :
    Ensures anywhere (operands mark build operand) fun t _ => t.Spelled vars := by
  refine .known h fun first hfirst => .isAt mark ?_ (.pure fun _ _ => hfirst)
  have hrest : Ensures (fun ls => kindOf ls 0 = mark ∧ anywhere ls) (repeatedAfter mark operand)
      fun types _ => types ≠ [] ∧ ∀ t ∈ types, t.Spelled vars :=
    (Ensures.repeatedAfter h).mono (fun _ hls => hls.1) fun _ _ => id
  refine .known hrest fun rest hrest => .pure fun _ _ => hbuild _ ?_ ?_
  · exact Nat.succ_le_succ (List.length_pos_iff.2 hrest.1)
  · exact List.forall_mem_cons.2 ⟨hfirst, hrest.2⟩

theorem unionType_spelled {simple : Parser TypeExpr}
    (h : Ensures anywhere simple fun t _ => t.Spelled vars) :
    Ensures anywhere (unionType simple) fun t _ => t.Spelled vars :=
  operands_spelled (fun _ hlength htypes => (TypeExpr.spelled_iff _).2 ⟨hlength, htypes⟩)
    (operands_spelled (fun _ hlength htypes => (TypeExpr.spelled_iff _).2 ⟨hlength, htypes⟩)
      (optionalType_spelled h))

end Parts

/-! ## Types -/

/-- Every type can be written in the scope in which it is read.  By induction on the levels that may
be opened. -/
theorem typeExpr_returnType_spelled (vars : List String) (levels : Nat) :
    Ensures anywhere (typeExpr vars levels) (fun t _ => t.Spelled vars) ∧
      Ensures anywhere (returnType vars levels) (fun t _ => t.Spelled vars) := by
  induction levels with
  | zero => exact ⟨.throw _, .throw _⟩
  | succ n ih =>
    have hsimple := simpleType_spelled ih.1 ih.2
    exact ⟨.nested (unionType_spelled hsimple), .nested (optionalType_spelled hsimple)⟩

end Parser

end RubySig
