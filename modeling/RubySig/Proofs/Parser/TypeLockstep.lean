import RubySig.Proofs.Parser.Lockstep
import RubySig.Proofs.TypeExpr.Adoption

/-!
# Types in two runs

In one run a type parameter is in scope, in the other one it is a name like any others and becomes a
variable afterwards.  Both runs take the same lexemes, unless the name has arguments: these are
lost if the name is a variable.

* `Extends`: the scope of the second run, with further type parameters.
* `TypeExpr.Adopts`: the type that the second run reads where the first one reads another one.
* `Parser.typeName_inStep`, `Parser.namedWith_inStep`: names.
* `Parser.callable_inStep`: parameters, blocks and return types.
* `Parser.typeVar_inStep`: the one place where the runs do different things.
* `Parser.typeExpr_inStep`, `Parser.methodType_inStep`: types and overloads.
-/

namespace RubySig

/-! ## Two scopes -/

/-- A scope with further type parameters. -/
def Extends (params vars vars' : List String) : Prop := ∀ v, v ∈ vars' ↔ v ∈ vars ∨ v ∈ params

namespace Extends

variable {params vars vars' : List String}

theorem refl (vars : List String) : Extends [] vars vars := fun v => by
  rw [or_iff_left List.not_mem_nil]

theorem ofEq (h : vars = vars') : Extends [] vars vars' := h ▸ refl vars

theorem ofNil (params : List String) : Extends params [] params := fun v => by
  rw [or_iff_right List.not_mem_nil]

theorem append (h : Extends params vars vars') (names : List String) :
    Extends params (names ++ vars) (names ++ vars') := fun v => by
  rw [List.mem_append, List.mem_append, h v, or_assoc]

theorem cons (h : Extends params vars vars') (name : String) :
    Extends params (name :: vars) (name :: vars') :=
  h.append [name]

end Extends

/-- In the second type names are read as type parameters, and nothing else is different but
spans. -/
def TypeExpr.Adopts (params : List String) (t t' : TypeExpr) : Prop :=
  t.adopted params = t'.adopted []

namespace Parser

variable {x : Header} {lost pre : List Lexeme → Prop} {params : List String}

/-! ## Names -/

theorem enclosingSegments_inStep :
    InStep x lost pre enclosingSegments enclosingSegments fun path path' => path = path' := by
  have hwithin : ∀ n m, InStep x never anywhere (enclosingSegmentsWithin n)
      (enclosingSegmentsWithin m) fun path path' => path = path' := by
    intro n
    induction n with
    | zero => exact fun m => .stops (.throw _)
    | succ n ih =>
      intro m
      cases m with
      | zero => exact .stops' (.throw _)
      | succ m =>
        refine .isAtPair .upperIdent .doubleColon ?_ (.pure rfl)
        refine .bump (fun ls hls => hls.1.1 ▸ rfl) fun segment _ =>
          .bump (fun ls hls => (show kindOf ls 0 = .doubleColon from hls.1.2) ▸ rfl) fun _ _ => ?_
        exact .sure (ih m).enter fun path path' hpath => .pure (congrArg _ hpath)
  exact .rounds fun n m => (hwithin n m).enter.weaken

theorem typeName_inStep (what : String) {accept : TokenKind → Bool}
    (haccept : ∀ kind, accept kind = true → kind.isKey = false) :
    InStep x lost pre (typeName what accept) (typeName what accept) fun r r' => r.1 = r'.1 := by
  refine .startOffset fun start start' => ?_
  have hrest : ∀ absolute : Bool, InStep x lost anywhere
      (do
        let path ← enclosingSegments
        if accept (← look) then
          let last ← bump
          return ((⟨⟨path, absolute⟩, last⟩ : TypeName), ← rangeFrom start)
        else unexpected what)
      (do
        let path ← enclosingSegments
        if accept (← look) then
          let last ← bump
          return ((⟨⟨path, absolute⟩, last⟩ : TypeName), ← rangeFrom start')
        else unexpected what) fun r r' => r.1 = r'.1 := by
    intro absolute
    refine .sure enclosingSegments_inStep fun path path' hpath => .look fun kind =>
      .ite (fun hkind => ?_) fun _ => .unexpected what
    refine .bumpAt kind (haccept kind hkind) (fun _ => And.left) fun last =>
      .rangeFrom fun range range' => .pure ?_
    rw [hpath]
  exact .eat rfl (hrest true) (hrest false).enter

theorem isKey_of_acceptsAny {kind : TokenKind} (h : acceptsAny kind = true) :
    kind.isKey = false := by
  simp only [acceptsAny, acceptsMixin, Bool.or_eq_true, beq_iff_eq] at h
  rcases h with (rfl | rfl) | rfl <;> rfl

theorem isKey_of_acceptsMixin {kind : TokenKind} (h : acceptsMixin kind = true) :
    kind.isKey = false :=
  isKey_of_acceptsAny (Bool.or_eq_true_iff.2 (Or.inl h))

theorem isKey_of_acceptsUpper {kind : TokenKind} (h : acceptsUpper kind = true) :
    kind.isKey = false :=
  isKey_of_acceptsMixin (Bool.or_eq_true_iff.2 (Or.inl h))

/-- In front of a name of one segment nothing but that is read. -/
theorem typeName_alone (what : String) {accept : TokenKind → Bool} {l : Lexeme} {rest : List Lexeme}
    (hkind : l.kind = .upperIdent) (hnext : kindOf rest 0 ≠ .doubleColon) :
    Ensures (· = l :: rest) (typeName what accept) fun r left =>
      r.1 = .bare l.text ∧ left = rest := by
  have hsegments : Ensures (· = l :: rest) enclosingSegments fun path left =>
      path = [] ∧ left = l :: rest := by
    refine .reads (fun c n c' hrun => by cases hrun; rfl) fun n => ?_
    cases n with
    | zero => exact .throw _
    | succ n =>
      refine .isAtPair .upperIdent .doubleColon ?_ (.pure fun _ hls => ⟨rfl, hls.2⟩)
      refine .of_pre False (fun ls hls => ?_) False.elim
      rw [hls.2] at hls
      exact hnext hls.1.2
  refine .reads (fun c start c' hrun => by cases hrun; rfl) fun start => ?_
  rw [eat, bind_assoc]
  refine .isAt .doubleColon (.of_pre False (fun ls hls => ?_) False.elim) ?_
  · rw [hls.2] at hls
    exact absurd (hkind.symm.trans hls.1) (by decide)
  · simp only [Bool.false_eq_true, if_false, pure_bind]
    refine .bind (hsegments.mono (fun _ => And.right) fun _ _ => id) fun path =>
      .of_pre _ (fun _ => And.left) fun hpath => .look fun kind =>
        .ite (fun _ => .bump fun k _ => .reads (fun c r c' hrun => by cases hrun; rfl) fun range =>
          .pure fun left hleft => ?_) fun _ => .unexpected _
    obtain ⟨rfl, rfl⟩ := List.cons.inj hleft.2.2
    rw [hpath]
    exact ⟨rfl, rfl⟩

/-! ## Parameters and blocks -/

section Parts

variable {type type' returnType returnType' : Parser TypeExpr}
  (h : InStep x Stray anywhere type type' (TypeExpr.Adopts params))
  (hreturn : InStep x Stray anywhere returnType returnType' (TypeExpr.Adopts params))

include h

theorem separated_inStep :
    InStep x Stray pre (separated .comma type) (separated .comma type') fun ts ts' =>
      ts.map (TypeExpr.adopted params) = ts'.map (TypeExpr.adopted []) :=
  (h.separated rfl rfl).relax fun _ _ => map_eq_iff_forall₂.2

/-- Names with arguments are the same up to their arguments. -/
theorem namedWith_inStep (what : String) {accept : TokenKind → Bool}
    (haccept : ∀ kind, accept kind = true → kind.isKey = false) :
    InStep x never pre (namedWith type what accept) (namedWith type' what accept) fun t t' =>
      t.adopted params = t'.adopted [] := by
  refine .startOffset fun start start' => .sure (typeName_inStep what haccept) ?_
  rintro ⟨name, range⟩ ⟨name', range'⟩ hname
  obtain rfl : name = name' := hname
  refine .eat rfl ?_ (.spanFrom fun span span' => .pure ?_)
  · refine .bind (separated_inStep h) (fun args args' hargs => .expect rfl fun _ _ =>
      .spanFrom fun span span' => .pure ?_) fun _ => Strays.expect rfl
    rw [NamedType.adopted_eq, NamedType.adopted_eq, hargs]
  · rw [NamedType.adopted_eq, NamedType.adopted_eq]
    rfl

theorem paramOf_inStep (slot : Slot) :
    InStep x Stray pre (paramOf slot type) (paramOf slot type') fun p p' =>
      FunctionType.withType (TypeExpr.adopted params) p =
        FunctionType.withType (TypeExpr.adopted []) p' := by
  refine .bind h.enter (fun t t' ht => .isAt .lowerIdent ?_ (.pure ?_))
    fun _ => Strays.isAt rfl (Strays.pure _)
  · exact .bumpAt .lowerIdent rfl (fun _ => And.left) fun name => .pure
      (congrArg (Param.mk slot · (some name)) ht)
  · exact congrArg (Param.mk slot · none) ht

omit h in
theorem keywordName_inStep :
    InStep x never pre keywordName keywordName fun key key' => key = key' :=
  .bumpAny (fun _ => .expect rfl fun _ _ => .pure rfl) fun _ => atName_of_stray (Strays.expect rfl)

omit h in
/-- Where a question mark stands, both texts show the same next three lexemes. -/
theorem isOptionalKeyword_inStep {α β : Type} {f : Bool → Parser α} {g : Bool → Parser β}
    {rel : α → β → Prop} (hpre : ∀ ls, pre ls → kindOf ls 0 = .question)
    (hf : ∀ b, InStep x lost pre (f b) (g b) rel) :
    InStep x lost pre (isOptionalKeyword >>= f) (isOptionalKeyword >>= g) rel := by
  rw [isOptionalKeyword, bind_assoc, bind_assoc]
  refine .peek Nat.one_lt_two fun kind => ?_
  by_cases hword : kind.isWord = true
  · rw [if_pos hword, bind_assoc, bind_assoc]
    refine .peekOf 2 (fun ls ls' hlinked hls => hlinked.abreast.kindOf_two_eq ?_) fun kind' => ?_
    · rw [hpre ls hls.2]
      exact ⟨by decide, by decide⟩
    · exact (hf _).mono (fun _ hls => hls.2.2) fun _ _ => id
  · rw [if_neg hword]
    exact (hf false).mono (fun _ => And.right) fun _ _ => id

theorem param_inStep :
    InStep x Stray anywhere (param type) (param type') fun p p' =>
      FunctionType.withType (TypeExpr.adopted params) p =
        FunctionType.withType (TypeExpr.adopted []) p' := by
  have hkeyword : ∀ {pre : List Lexeme → Prop} (slot : String → Slot), InStep x Stray pre
      (do
        let key ← keywordName
        paramOf (slot key) type)
      (do
        let key ← keywordName
        paramOf (slot key) type') fun p p' =>
          FunctionType.withType (TypeExpr.adopted params) p =
            FunctionType.withType (TypeExpr.adopted []) p' := by
    intro pre slot
    refine .sure keywordName_inStep ?_
    rintro key _ rfl
    exact paramOf_inStep h _
  refine .look fun kind => ?_
  split
  · refine isOptionalKeyword_inStep (fun _ => And.left) fun optional =>
      .ite (fun _ => ?_) fun _ => ?_
    · exact .bumpAt .question rfl (fun _ => And.left) fun _ => hkeyword _
    · exact .bumpAt .question rfl (fun _ => And.left) fun _ => paramOf_inStep h _
  · exact .bumpAt .starStar rfl (fun _ => And.left) fun _ => paramOf_inStep h _
  · exact .bumpAt .star rfl (fun _ => And.left) fun _ => paramOf_inStep h _
  · refine .ite (fun _ => .isFollowedBy .colon ?_ ?_) fun _ => paramOf_inStep h _
    · exact hkeyword _
    · exact paramOf_inStep h _

theorem params_inStep :
    InStep x never pre (Parser.params type) (Parser.params type') fun ps ps' =>
      ps.map (FunctionType.withType (TypeExpr.adopted params)) =
        ps'.map (FunctionType.withType (TypeExpr.adopted [])) := by
  refine .eat rfl (.bind ((param_inStep h).separatedUntil rfl rfl) (fun written written' hall =>
    .expect rfl fun _ _ => .pure ?_) fun _ => Strays.expect rfl) (.pure rfl)
  rw [FunctionType.arrange_map, FunctionType.arrange_map, map_eq_iff_forall₂.2 hall]

omit h in
theorem adoptedFunction_eq {ps ps' : List Param} {t t' : TypeExpr}
    (hps : ps.map (FunctionType.withType (TypeExpr.adopted params)) =
      ps'.map (FunctionType.withType (TypeExpr.adopted [])))
    (ht : t.Adopts params t') :
    FunctionType.mapTypes (TypeExpr.adopted params) ⟨ps, t⟩ =
      FunctionType.mapTypes (TypeExpr.adopted []) ⟨ps', t'⟩ :=
  congrArg₂ FunctionType.mk hps ht

theorem blockBody_inStep (required : Bool) :
    InStep x never pre (blockBody required type) (blockBody required type') fun b b' =>
      b.map (·.mapTypes (TypeExpr.adopted params)) = b'.map (·.mapTypes (TypeExpr.adopted [])) :=
  .sure (params_inStep h) fun _ _ hps => .expect rfl fun _ _ =>
    .bind h (fun _ _ ht => .expect rfl fun _ _ => .pure
      (congrArg (fun function => some (Block.mk required function)) (adoptedFunction_eq hps ht)))
      fun _ => Strays.expect rfl

theorem block_inStep :
    InStep x never pre (block type) (block type') fun b b' =>
      b.map (·.mapTypes (TypeExpr.adopted params)) = b'.map (·.mapTypes (TypeExpr.adopted [])) := by
  refine .look fun kind => ?_
  split
  · exact .bumpAt .braceOpen rfl (fun _ => And.left) fun _ => blockBody_inStep h _
  · refine .isFollowedBy .braceOpen ?_ (.pure rfl)
    refine .bump (fun ls hls => hls.2.1 ▸ rfl) fun _ _ =>
      .bump (fun ls hls => (show kindOf ls 0 = .braceOpen from hls.1) ▸ rfl) fun _ _ => ?_
    exact blockBody_inStep h _
  · exact .pure rfl

include hreturn

theorem callable_inStep :
    InStep x Stray pre (callable type returnType) (callable type' returnType') fun r r' =>
      r.1.mapTypes (TypeExpr.adopted params) = r'.1.mapTypes (TypeExpr.adopted []) ∧
        r.2.map (·.mapTypes (TypeExpr.adopted params)) =
          r'.2.map (·.mapTypes (TypeExpr.adopted [])) :=
  .sure (params_inStep h) fun _ _ hps => .sure (block_inStep h) fun _ _ hblock =>
    .expect rfl fun _ _ => .bind hreturn (fun _ _ ht => .pure ⟨adoptedFunction_eq hps ht, hblock⟩)
      fun _ => Strays.pure _

omit hreturn

/-! ## Types without operators -/

omit h in
theorem assertAt_inStep {α β : Type} {kind : TokenKind} {f : Unit → Parser α} {g : Unit → Parser β}
    {rel : α → β → Prop}
    (hf : InStep x lost (fun ls => kindOf ls 0 = kind ∧ pre ls) (f ()) (g ()) rel) :
    InStep x lost pre (assertAt kind >>= f) (assertAt kind >>= g) rel := by
  rw [assertAt, bind_assoc, bind_assoc]
  refine .look fun found => ?_
  by_cases hfound : found = kind
  · rw [hfound, bne_self_eq_false']
    exact hf
  · rw [bne_iff_ne.2 hfound]
    exact .stops (.bind (.throw _) fun _ => False.elim)

theorem tupleType_inStep :
    InStep x never pre (tupleType type) (tupleType type') (TypeExpr.Adopts params) := by
  refine assertAt_inStep (.bumpAt .bracketOpen rfl (fun _ => And.left) fun _ =>
    .bind (h.separatedUntil rfl rfl) (fun ts ts' hts => .expect rfl fun _ _ => .pure ?_)
      fun _ => Strays.expect rfl)
  rw [TypeExpr.Adopts, TypeExpr.adopted_tuple, TypeExpr.adopted_tuple, map_eq_iff_forall₂.2 hts]

omit h in
theorem arrowKey_inStep (kind : TokenKind) :
    InStep x never (fun ls => kindOf ls 0 = kind) (arrowKey kind) (arrowKey kind)
      fun key key' => key = key' := by
  refine .ite (fun hkind => ?_) fun _ => .ite (fun hkind => ?_) fun _ => .unexpected _
  · exact .bumpAt .stringLit rfl (fun _ hls => hls.trans (beq_iff_eq.1 hkind)) fun _ =>
      .expect rfl fun _ _ => .pure rfl
  · exact .bumpAt .symbolLit rfl (fun _ hls => hls.trans (beq_iff_eq.1 hkind)) fun _ =>
      .expect rfl fun _ _ => .pure rfl

omit h in
theorem recordKey_inStep :
    InStep x never pre recordKey recordKey fun key key' => key = key' := by
  rw [recordKey_eq]
  refine .look fun kind => .ite (fun hword => ?_) fun _ =>
    (arrowKey_inStep kind).mono (fun _ hls => hls.1) fun _ _ => id
  refine .isFollowedBy .colon ?_ ((arrowKey_inStep kind).mono (fun _ hls => hls.2.1) fun _ _ => id)
  refine .bumpBefore (fun ls hls => hls.1 ▸ rfl) fun l _ => ?_
  exact .bump (fun ls hls => (show kindOf ls 0 = .colon from hls.1) ▸ rfl) fun _ _ => .pure rfl

theorem recordType_inStep :
    InStep x never pre (recordType type) (recordType type') (TypeExpr.Adopts params) := by
  have hfield : InStep x Stray anywhere (recordField type) (recordField type') fun f f' =>
      RecordField.mk f.key (f.type.adopted params) = ⟨f'.key, f'.type.adopted []⟩ := by
    refine .sure recordKey_inStep ?_
    rintro key _ rfl
    exact .bind h (fun _ _ ht => .pure (congrArg (RecordField.mk key) ht)) fun _ => Strays.pure _
  refine assertAt_inStep (.bumpAt .braceOpen rfl (fun _ => And.left) fun _ =>
    .bind (hfield.separatedUntil rfl rfl) (fun fs fs' hfs => .expect rfl fun _ _ => .pure ?_)
      fun _ => Strays.expect rfl)
  rw [TypeExpr.Adopts, TypeExpr.adopted_record, TypeExpr.adopted_record, map_eq_iff_forall₂.2 hfs]

include hreturn in
theorem procType_inStep :
    InStep x Stray pre (procType type returnType) (procType type' returnType')
      (TypeExpr.Adopts params) := by
  refine assertAt_inStep (.bumpAt .caret rfl (fun _ => And.left) fun _ =>
    .bind (callable_inStep h hreturn) ?_ fun r => Strays.pure _)
  rintro ⟨function, block⟩ ⟨function', block'⟩ ⟨hfunction, hblock⟩
  refine .pure ?_
  dsimp only at hfunction hblock
  rw [TypeExpr.Adopts, TypeExpr.adopted_proc, TypeExpr.adopted_proc, hfunction, hblock]

omit h in
theorem adopts_literal (value : Literal) :
    (TypeExpr.literal value).Adopts params (.literal value) := by
  rw [TypeExpr.Adopts, TypeExpr.adopted_literal, TypeExpr.adopted_literal]

omit h in
theorem integerType_inStep (hpre : ∀ ls, pre ls → kindOf ls 0 = .integerLit) :
    InStep x never pre integerType integerType (TypeExpr.Adopts params) := by
  refine .reads (fun c a c' hrun => by cases hrun; rfl) (fun c a c' hrun => by cases hrun; rfl)
    fun range range' => .bumpAt .integerLit rfl hpre fun text => ?_
  exact .ite (fun _ => .pure (adopts_literal _)) fun _ => .stops (.failAt _ _)

omit h in
theorem singletonType_inStep :
    InStep x never pre singletonType singletonType (TypeExpr.Adopts params) := by
  refine .startOffset fun start start' => assertAt_inStep (.bumpAt (.keyword .kwSingleton) rfl
    (fun _ => And.left) fun _ => .expect rfl fun _ _ =>
      .sure (typeName_inStep _ fun _ => isKey_of_acceptsUpper) ?_)
  rintro ⟨name, range⟩ ⟨name', range'⟩ hname
  obtain rfl : name = name' := hname
  refine .expect rfl fun _ _ => .spanFrom fun _ _ => .pure ?_
  rw [TypeExpr.Adopts, TypeExpr.adopted_singleton, TypeExpr.adopted_singleton]

/-! ## Names that may be type parameters -/

omit h in
theorem name_of_namedWith {what : String} {accept : TokenKind → Bool} {c d : Cursor}
    {t : NamedType} (hrun : namedWith type what accept c = .ok t d) :
    ∃ r d', typeName what accept c = .ok r d' ∧ t.name = r.1 := by
  obtain ⟨start, c₁, hstart, hrun⟩ := exists_of_bind_eq_ok hrun
  cases hstart
  obtain ⟨⟨name, range⟩, c₂, hname, hrun⟩ := exists_of_bind_eq_ok hrun
  obtain ⟨listed, c₃, -, hrun⟩ := exists_of_bind_eq_ok hrun
  refine ⟨_, c₂, hname, ?_⟩
  cases listed with
  | true =>
    obtain ⟨args, c₄, -, hrun⟩ := exists_of_bind_eq_ok hrun
    obtain ⟨closing, c₅, -, hrun⟩ := exists_of_bind_eq_ok hrun
    obtain ⟨span, c₆, -, hrun⟩ := exists_of_bind_eq_ok hrun
    rw [← (EStateM.Result.ok.inj hrun).1]
  | false =>
    obtain ⟨span, c₄, -, hrun⟩ := exists_of_bind_eq_ok hrun
    rw [← (EStateM.Result.ok.inj hrun).1]

/-- A name that is no type parameter is the same in both runs. -/
theorem anyNamed_inStep (hspelled : ∀ v ∈ params, TokenKind.upperIdent.Spells v.toList)
    {ls : List Lexeme} (hfree : ∀ l rest, ls = l :: rest → l.kind = .upperIdent →
      kindOf ls 1 ≠ .doubleColon → l.text ∉ params) :
    InStep x never (· = ls) (anyNamed type) (anyNamed type') (TypeExpr.Adopts params) := by
  have hnext : ∀ c t d, (∀ l ∈ c.rest, l.Proper) → c.rest = ls →
      namedWith type "a type" acceptsAny c = .ok t d → IsNext ls t.name := by
    intro c t d hproper hc hrun
    obtain ⟨r, d', hname, heq⟩ := name_of_namedWith hrun
    rw [heq]
    exact (typeName_bare "a type" rfl ls c r d' hproper hc hname).2
  refine .sure ((namedWith_inStep h _ fun _ => isKey_of_acceptsAny).and hnext) ?_
  rintro t t' ⟨hargs, hnext⟩
  refine .pure ?_
  rw [NamedType.adopted_eq, NamedType.adopted_eq] at hargs
  obtain ⟨hname, hargs, -⟩ := NamedType.mk.inj hargs
  rw [TypeExpr.Adopts, TypeExpr.adopted_named, TypeExpr.adopted_named, if_neg, if_neg, hname, hargs]
  · simp
  · intro hadopted
    simp only [Bool.and_eq_true, List.contains_iff_mem] at hadopted
    obtain ⟨⟨-, hbare⟩, hmem⟩ := hadopted
    obtain ⟨l, rest, rfl, htext, hproper, hgarbage, hpair⟩ := hnext hbare
    rw [← htext] at hmem
    have hkind : l.kind = .upperIdent := (hproper hgarbage).unique (hspelled _ hmem)
    exact hfree l rest rfl hkind (fun hcolon => hpair ⟨hkind, hcolon⟩) hmem

omit h in
/-- A name in the first run is a variable in the second one.  If it has arguments they are lost. -/
theorem adopted_inStep {l : Lexeme} {rest : List Lexeme} (hkind : l.kind = .upperIdent)
    (hnext : kindOf rest 0 ≠ .doubleColon) (hparam : l.text ∈ params) :
    InStep x Stray (· = l :: rest) (anyNamed type) (do return .var (← bump))
      (TypeExpr.Adopts params) := by
  intro c c' t t' d d' hlinked hc hrun hrun'
  obtain ⟨text, c₁', hbump, hrun'⟩ := exists_of_bind_eq_ok hrun'
  cases hrun'
  obtain ⟨l', hrest', rfl, -⟩ := taken_of_bump hbump
  obtain ⟨hproper, hproper', habreast⟩ := hlinked
  rw [hc, hrest'] at habreast
  rw [hrest'] at hproper'
  obtain ⟨k, rest', heq, hface, habreast⟩ := habreast.tail
  obtain ⟨rfl, rfl⟩ := List.cons.inj heq
  have hbehind : x.Abreast rest d'.rest := by
    have hkey : (kindOf (l :: rest) 0).isKey = false := by
      show l.kind.isKey = false
      rw [hkind]
      rfl
    exact habreast.resolve_right fun hheader => Header.ne_without hkey hheader.1
  have hproper' := (List.forall_mem_cons.1 hproper').2
  obtain ⟨named, c₁, hnamed, hrun⟩ := exists_of_bind_eq_ok hrun
  cases hrun
  obtain ⟨start, c₂, hstart, hnamed⟩ := exists_of_bind_eq_ok hnamed
  cases hstart
  obtain ⟨⟨name, range⟩, c₃, hname, hnamed⟩ := exists_of_bind_eq_ok hnamed
  obtain ⟨hproper₃, hbare, hleft⟩ := typeName_alone _ hkind hnext c _ c₃ hproper hc hname
  by_cases hbracket : kindOf rest 0 = .bracketOpen
  · refine Or.inr ⟨hproper', ?_⟩
    have hopen : kindOf d'.rest 0 = .bracketOpen :=
      (hbehind.kindOf_eq Nat.two_pos).symm.trans hbracket
    obtain ⟨k, more, hd', hk⟩ := head_of_kindOf hopen nofun
    rw [hd']
    exact Or.inl hk
  · have heat : eat .bracketOpen c₃ = .ok false (looked c₃) := eat_of_ne (hleft ▸ hbracket)
    dsimp only at hnamed
    rw [bind_of_ok heat] at hnamed
    obtain ⟨span, c₄, hspan, hnamed⟩ := exists_of_bind_eq_ok hnamed
    cases hspan
    cases hnamed
    refine Or.inl ⟨⟨hproper₃, hproper', ?_⟩, ?_⟩
    · show x.Abreast c₃.rest d'.rest
      rw [hleft]
      exact hbehind
    · obtain rfl : name = .bare l.text := hbare
      rw [TypeExpr.Adopts, TypeExpr.adopted_named, TypeExpr.adopted_var, if_pos]
      · rw [← Lexeme.text_eq_of_face hface]
        rfl
      · exact Bool.and_eq_true_iff.2 ⟨rfl, List.contains_iff_mem.2 hparam⟩

omit h in
theorem isAtTypeVar_inStep {α β : Type} {f : Bool → Parser α} {g : Bool → Parser β}
    {rel : α → β → Prop} {vars vars' : List String} {l : Lexeme} {rest : List Lexeme}
    (hf : InStep x lost (· = l :: rest)
      (f (!(kindOf rest 0 == .doubleColon) && vars.contains l.text))
      (g (!(kindOf rest 0 == .doubleColon) && vars'.contains l.text)) rel) :
    InStep x lost (· = l :: rest) (isAtTypeVar vars >>= f) (isAtTypeVar vars' >>= g) rel := by
  intro c c' a b d d' hlinked hc hrun hrun'
  have hsecond : kindOf c'.rest 1 = kindOf rest 0 := by
    rw [← hlinked.abreast.kindOf_eq Nat.one_lt_two, hc]
    rfl
  have htext : (c'.rest.head?.map (·.text)).getD "" = l.text := by
    have hfirst := hlinked.abreast.face_eq Nat.two_pos
    rw [hc] at hfirst
    cases hrest : c'.rest with
    | nil => rw [hrest] at hfirst; cases hfirst
    | cons l' rest' =>
      rw [hrest] at hfirst
      exact (Lexeme.text_eq_of_face (Option.some.inj hfirst)).symm
  rw [bind_of_ok (isAtTypeVar_eq vars c), hc] at hrun
  rw [bind_of_ok (isAtTypeVar_eq vars' c'), hsecond, htext] at hrun'
  exact hf (looked c) (looked c') _ _ _ _ hlinked hc hrun hrun'

/-- The one place where the runs do different things: a name may be a variable in both of them, in
the second one only, or in none. -/
theorem typeVar_inStep {vars vars' : List String} (hscope : Extends params vars vars')
    (hspelled : ∀ v ∈ params, TokenKind.upperIdent.Spells v.toList) :
    InStep x Stray (fun ls => kindOf ls 0 = .upperIdent)
      (do if ← isAtTypeVar vars then return .var (← bump) else anyNamed type)
      (do if ← isAtTypeVar vars' then return .var (← bump) else anyNamed type')
      (TypeExpr.Adopts params) := by
  refine .of_forall fun ls hls => ?_
  obtain ⟨l, rest, rfl, hkind⟩ := head_of_kindOf hls nofun
  refine isAtTypeVar_inStep ?_
  by_cases hnext : kindOf rest 0 = .doubleColon
  · rw [hnext]
    exact (anyNamed_inStep h hspelled fun l' rest' heq _ hother => by
      obtain ⟨rfl, rfl⟩ := List.cons.inj heq
      exact absurd hnext hother).weaken
  rw [beq_eq_false_iff_ne.2 hnext, Bool.not_false, Bool.true_and, Bool.true_and]
  by_cases hvar : l.text ∈ vars
  · rw [List.contains_iff_mem.2 hvar, List.contains_iff_mem.2 ((hscope _).2 (Or.inl hvar))]
    refine .bumpAt .upperIdent rfl (fun _ hls' => hls' ▸ hkind) fun text => .pure ?_
    rw [TypeExpr.Adopts, TypeExpr.adopted_var, TypeExpr.adopted_var]
  by_cases hparam : l.text ∈ params
  · rw [List.contains_iff_mem.2 ((hscope _).2 (Or.inr hparam)),
      Bool.eq_false_iff.2 fun hmem => hvar (List.contains_iff_mem.1 hmem)]
    exact adopted_inStep hkind hnext hparam
  · have hnone : ¬ l.text ∈ vars' := fun hmem => ((hscope _).1 hmem).elim hvar hparam
    rw [Bool.eq_false_iff.2 fun hmem => hvar (List.contains_iff_mem.1 hmem),
      Bool.eq_false_iff.2 fun hmem => hnone (List.contains_iff_mem.1 hmem)]
    exact (anyNamed_inStep h hspelled fun l' rest' heq _ _ => by
      obtain ⟨rfl, rfl⟩ := List.cons.inj heq
      exact hparam).weaken

include hreturn in
theorem simpleType_inStep {vars vars' : List String} (hscope : Extends params vars vars')
    (hspelled : ∀ v ∈ params, TokenKind.upperIdent.Spells v.toList) :
    InStep x Stray anywhere (simpleType vars type returnType) (simpleType vars' type' returnType')
      (TypeExpr.Adopts params) := by
  have hnamed : ∀ {kind : TokenKind}, kind ≠ .upperIdent →
      InStep x Stray (fun ls => kindOf ls 0 = kind ∧ anywhere ls) (anyNamed type) (anyNamed type')
        (TypeExpr.Adopts params) := by
    intro kind hkind
    refine .of_forall fun ls hls => (anyNamed_inStep h hspelled ?_).weaken
    rintro l rest rfl hupper
    exact absurd (hls.1.symm.trans hupper) hkind
  refine .look fun kind => ?_
  split
  · exact .bumpAny (fun _ => .pure (by
      rw [TypeExpr.Adopts, TypeExpr.adopted_special, TypeExpr.adopted_special]))
      fun _ => atName_of_stray (Strays.pure _)
  · split
    · exact .bumpAt .parenOpen rfl (fun _ => And.left) fun _ =>
        .bind h (fun _ _ ht => .expect rfl fun _ _ => .pure ht) fun _ => Strays.expect rfl
    · exact (tupleType_inStep h).weaken
    · exact (recordType_inStep h).weaken
    · exact procType_inStep h hreturn
    · exact .bumpAt .stringLit rfl (fun _ => And.left) fun _ => .pure (adopts_literal _)
    · exact .bumpAt .symbolLit rfl (fun _ => And.left) fun _ => .pure (adopts_literal _)
    · exact (integerType_inStep fun _ => And.left).weaken
    · exact .bumpAt (.keyword .kwTrue) rfl (fun _ => And.left) fun _ => .pure (adopts_literal _)
    · exact .bumpAt (.keyword .kwFalse) rfl (fun _ => And.left) fun _ => .pure (adopts_literal _)
    · exact singletonType_inStep.weaken
    · exact (typeVar_inStep h hscope hspelled).mono (fun _ => And.left) fun _ _ => id
    · exact hnamed nofun
    · exact hnamed nofun
    · exact hnamed nofun
    · exact .unexpected _

/-! ## Operators -/

omit h in
theorem isAtOptionalMark_inStep {α β : Type} {f : Bool → Parser α} {g : Bool → Parser β}
    {rel : α → β → Prop}
    (htrue : InStep x lost (fun ls => kindOf ls 0 = .question) (f true) (g true) rel)
    (hfalse : InStep x lost anywhere (f false) (g false) rel) :
    InStep x lost pre (isAtOptionalMark >>= f) (isAtOptionalMark >>= g) rel := by
  rw [isAtOptionalMark, bind_assoc, bind_assoc]
  refine .isAt .question ?_ hfalse.enter
  simp only [if_true, bind_assoc, pure_bind]
  exact .isFollowedBy .braceOpen hfalse.enter (htrue.mono (fun _ hls => hls.2.1) fun _ _ => id)

omit h in
theorem optionalMarksWithin_inStep {t t' : TypeExpr} (ht : t.Adopts params t') (n m : Nat) :
    InStep x lost anywhere (optionalMarksWithin t n) (optionalMarksWithin t' m)
      (TypeExpr.Adopts params) := by
  induction n generalizing t t' m with
  | zero => exact .stops (.throw _)
  | succ n ih =>
    cases m with
    | zero => exact .stops' (.throw _)
    | succ m =>
      refine isAtOptionalMark_inStep ?_ (.pure ht)
      refine .bumpAt .question rfl (fun _ => id) fun _ => ih ?_ m
      rw [TypeExpr.Adopts, TypeExpr.adopted_optional, TypeExpr.adopted_optional, ht]

omit h in
theorem strays_optionalMarksWithin (t : TypeExpr) (n : Nat) :
    Strays (optionalMarksWithin t n) := by
  cases n with
  | zero => exact Ensures.throw _
  | succ n =>
    show Strays (isAtOptionalMark >>= _)
    rw [isAtOptionalMark, bind_assoc]
    exact Strays.isAt rfl (Strays.pure _)

theorem optionalType_inStep :
    InStep x Stray anywhere (optionalType type) (optionalType type') (TypeExpr.Adopts params) :=
  .bind h (fun _ _ ht => .rounds fun n m => (optionalMarksWithin_inStep ht n m).enter)
    fun t => Strays.reads (fun c a c' hrun => by cases hrun; rfl) fun n =>
      strays_optionalMarksWithin t n

theorem operands_inStep {mark : TokenKind} (hkey : mark.isKey = false)
    (hstray : mark.isStray = false) {build : List TypeExpr → TypeExpr}
    (hbuild : ∀ params types, (build types).adopted params =
      build (types.map (TypeExpr.adopted params))) :
    InStep x Stray anywhere (operands mark build type) (operands mark build type')
      (TypeExpr.Adopts params) := by
  refine .bind h (fun t t' ht => .isAt mark ?_ (.pure ht)) fun _ =>
    Strays.isAt hstray (Strays.pure _)
  refine .bind (h.repeatedAfter hkey hstray) (fun ts ts' hts => .pure ?_) fun _ => Strays.pure _
  rw [TypeExpr.Adopts, hbuild, hbuild, List.map_cons, List.map_cons, map_eq_iff_forall₂.2 hts, ht]

theorem unionType_inStep :
    InStep x Stray anywhere (unionType type) (unionType type') (TypeExpr.Adopts params) :=
  operands_inStep (operands_inStep (optionalType_inStep h) rfl rfl TypeExpr.adopted_intersection)
    rfl rfl TypeExpr.adopted_union

end Parts

/-! ## Types and overloads -/

section Types

variable {vars vars' : List String} (hscope : Extends params vars vars')
  (hspelled : ∀ v ∈ params, TokenKind.upperIdent.Spells v.toList)
include hscope hspelled

/-- Every type is in step with the one in the other scope, whatever levels may be opened.  By
induction on the levels of the first run. -/
theorem typeExpr_returnType_inStep (n m : Nat) :
    InStep x Stray anywhere (typeExpr vars n) (typeExpr vars' m) (TypeExpr.Adopts params) ∧
      InStep x Stray anywhere (returnType vars n) (returnType vars' m)
        (TypeExpr.Adopts params) := by
  induction n generalizing m with
  | zero => exact ⟨.stops .tooDeep, .stops .tooDeep⟩
  | succ n ih =>
    cases m with
    | zero => exact ⟨.stops' .tooDeep, .stops' .tooDeep⟩
    | succ m =>
      have hsimple := simpleType_inStep (ih m).1 (ih m).2 hscope hspelled
      exact ⟨.nested (unionType_inStep hsimple), .nested (optionalType_inStep hsimple)⟩

theorem typeExpr_inStep (n m : Nat) :
    InStep x Stray pre (typeExpr vars n) (typeExpr vars' m) (TypeExpr.Adopts params) :=
  (typeExpr_returnType_inStep hscope hspelled n m).1.enter

theorem namedType_inStep (n m : Nat) (what : String) :
    InStep x never pre (namedType vars n what) (namedType vars' m what) fun t t' =>
      t.adopted params = t'.adopted [] :=
  namedWith_inStep (typeExpr_inStep hscope hspelled n m) what fun _ => isKey_of_acceptsMixin

/-! ## Overloads -/

omit hscope hspelled in
theorem uncheckedMark_inStep (allowed : Bool) :
    InStep x never pre (uncheckedMark allowed) (uncheckedMark allowed) fun b b' => b = b' := by
  refine .ite (fun _ => ?_) fun _ => .pure rfl
  rw [← bind_pure (eat (.keyword .kwUnchecked))]
  exact .eat rfl (.pure rfl) (.pure rfl)

omit hscope hspelled in
theorem variance_inStep (allowed : Bool) :
    InStep x never pre (variance allowed) (variance allowed) fun v v' => v = v' := by
  refine .look fun kind => ?_
  split
  · exact .ite (fun _ => .bumpAt (.keyword .kwIn) rfl (fun _ => And.left) fun _ => .pure rfl)
      fun _ => .pure rfl
  · exact .ite (fun _ => .bumpAt (.keyword .kwOut) rfl (fun _ => And.left) fun _ => .pure rfl)
      fun _ => .pure rfl
  · exact .pure rfl

theorem typeParam_inStep (allowVariance : Bool) (n m : Nat) :
    InStep x Stray pre (typeParam allowVariance vars n) (typeParam allowVariance vars' m)
      fun p p' => MethodType.adoptedParam params p = MethodType.adoptedParam [] p' := by
  refine .startOffset fun start start' => .sure (uncheckedMark_inStep _) ?_
  rintro unchecked _ rfl
  refine .sure (variance_inStep _) ?_
  rintro variance _ rfl
  refine .isAt .upperIdent ?_ (.unexpected _)
  refine .bumpAt .upperIdent rfl (fun _ => And.left) fun name => ?_
  have hbound : InStep x Stray anywhere (upperBound (typeExpr (name :: vars) n))
      (upperBound (typeExpr (name :: vars') m)) fun b b' =>
        b.map (TypeExpr.adopted params) = b'.map (TypeExpr.adopted []) :=
    .eat rfl (.bind (typeExpr_inStep (hscope.cons name) hspelled n m)
      (fun _ _ ht => .pure (congrArg some ht)) fun _ => Strays.pure _) (.pure rfl)
  refine .bind hbound (fun b b' hb => .spanFrom fun _ _ => .pure ?_)
    fun _ => Strays.spanFrom fun _ => Strays.pure _
  exact congrArg (TypeParam.mk name variance unchecked · default) hb

omit hscope hspelled in
theorem name_eq_of_adoptedParam {p p' : TypeParam}
    (h : MethodType.adoptedParam params p = MethodType.adoptedParam [] p') : p.name = p'.name :=
  (TypeParam.mk.inj h).1

/-- The scope grows with every parameter that is read. -/
theorem typeParamsWithin_inStep (allowVariance : Bool) (levels levels' n m : Nat) :
    InStep x Stray anywhere (typeParamsWithin allowVariance levels vars n)
      (typeParamsWithin allowVariance levels' vars' m) fun ps ps' =>
        ps.map (MethodType.adoptedParam params) = ps'.map (MethodType.adoptedParam []) := by
  induction n generalizing vars vars' m with
  | zero => exact .stops (.throw _)
  | succ n ih =>
    cases m with
    | zero => exact .stops' (.throw _)
    | succ m =>
      refine .bind (typeParam_inStep hscope hspelled allowVariance levels levels')
        (fun p p' hp => .eat rfl ?_ (.pure (congrArg (fun q => [q]) hp)))
        fun _ => Strays.eat rfl (Strays.pure _)
      rw [← name_eq_of_adoptedParam hp]
      refine .bind (ih (hscope.cons _) m) (fun ps ps' hps => .pure ?_) fun _ => Strays.pure _
      rw [List.map_cons, List.map_cons, hp, hps]

theorem typeParams_inStep (allowVariance : Bool) (levels levels' : Nat) :
    InStep x never pre (typeParams allowVariance vars levels)
      (typeParams allowVariance vars' levels') fun ps ps' =>
        ps.map (MethodType.adoptedParam params) = ps'.map (MethodType.adoptedParam []) := by
  refine .eat rfl (.rounds fun n m => ?_) (.pure rfl)
  exact .bind (typeParamsWithin_inStep hscope hspelled allowVariance levels levels' n m).enter
    (fun _ _ hps => .expect rfl fun _ _ => .pure hps) fun _ => Strays.expect rfl

omit hscope hspelled in
theorem names_eq_of_adoptedParam {ps ps' : List TypeParam}
    (h : ps.map (MethodType.adoptedParam params) = ps'.map (MethodType.adoptedParam [])) :
    typeParamNames ps = typeParamNames ps' := by
  have hnames : ∀ (params : List String) (ps : List TypeParam),
      typeParamNames ps = typeParamNames (ps.map (MethodType.adoptedParam params)) :=
    fun params ps => by
      rw [typeParamNames, typeParamNames, List.map_map]
      rfl
  exact (hnames params ps).trans ((congrArg typeParamNames h).trans (hnames [] ps').symm)

/-- Overloads are in step; their own type parameters are in scope in both runs. -/
theorem methodType_inStep (n m : Nat) :
    InStep x Stray pre (methodType vars n) (methodType vars' m) fun o o' =>
      o.adopted params = o'.adopted [] := by
  refine .startOffset fun start start' =>
    .sure (typeParams_inStep hscope hspelled false n m) fun ps ps' hps => ?_
  have hscope' : Extends params (typeParamNames ps ++ vars) (typeParamNames ps' ++ vars') := by
    rw [← names_eq_of_adoptedParam hps]
    exact hscope.append _
  have htypes := typeExpr_returnType_inStep hscope' hspelled n m (x := x)
  refine .bind (callable_inStep htypes.1 htypes.2) ?_ fun _ =>
    Strays.spanFrom fun _ => Strays.pure _
  rintro ⟨function, block⟩ ⟨function', block'⟩ ⟨hfunction, hblock⟩
  refine .spanFrom fun _ _ => .pure ?_
  dsimp only at hfunction hblock
  rw [MethodType.adopted_eq, MethodType.adopted_eq, hps, hfunction, hblock]

end Types

end Parser

end RubySig
