import RubySig.Proofs.Environment.Counterparts
import RubySig.Proofs.Parser.HeaderLockstep

/-!
# Elements of bodies in two runs

The rules for elements of bodies are in step.  Where the list is lost it is found behind a name.

* `Parser.methodName_inStep`: the one rule that takes any keyword, also that of the header.
* `Parser.methodMember_inStep`, `Parser.attributeMember_inStep`, `Parser.mixinMember_inStep`: one
  result for each kind of element.
* `Parser.bodyMember_inStep`: an element of the body of a class or a module.
* `Parser.interfaceMember_inStep`: an element of the body of an interface.
-/

namespace RubySig

/-- A span starts where the name in the header does. -/
def Header.Here (x : Header) (s : Span) : Prop := s.range.start = x.start

namespace Parser

variable {x : Header} {lost pre : List Lexeme → Prop} {α β : Type} {rel : α → β → Prop}

/-! ## In front of a name -/

/-- A name may be taken in front of the list. -/
theorem Strays.bump {q : String → Parser β} {post : β → List Lexeme → Prop}
    (hq : ∀ text, Ensures Stray (q text) post) : Ensures AtName (Parser.bump >>= q) post :=
  .bump fun l _ => (hq l.text).mono (fun _ hls => (hls.1.resolve_left hls.2).2) fun _ _ => id

theorem strays_enclosingSegments : Strays enclosingSegments := by
  have hwithin : ∀ n, Strays (enclosingSegmentsWithin n) := by
    intro n
    induction n with
    | zero => exact Ensures.throw _
    | succ n ih =>
      refine Ensures.isAtPair .upperIdent .doubleColon (Ensures.bump fun l _ => ?_)
        (Ensures.pure fun _ hls => hls.2)
      refine Ensures.mono (Strays.bump fun _ => ?_) (fun ls hls => ⟨?_, ?_⟩) fun _ _ => id
      · exact ih.bind fun _ => Strays.pure _
      · refine (hls.2.resolve_left fun hopen => ?_).2
        exact absurd (hls.1.1.symm.trans hopen) nofun
      · rw [show kindOf ls 0 = .doubleColon from hls.1.2]
        exact nofun
  exact Strays.reads (fun c a c' hrun => by cases hrun; rfl) hwithin

/-- A name in front of the list is read up to the list at most. -/
theorem strays_typeName (what : String) : Strays (typeName what acceptsUpper) := by
  refine Strays.reads (fun c a c' hrun => by cases hrun; rfl) fun start => ?_
  have hname : ∀ absolute : Bool, Strays (do
      let path ← enclosingSegments
      if acceptsUpper (← look) then
        let last ← bump
        return ((⟨⟨path, absolute⟩, last⟩ : TypeName), ← rangeFrom start)
      else unexpected what) := fun absolute => by
    refine strays_enclosingSegments.bind fun path => Ensures.look fun kind =>
      Ensures.ite (fun hkind => ?_) fun _ => Ensures.unexpected what
    refine Ensures.mono (Strays.bump fun last => ?_) (fun ls hls => ⟨hls.2, ?_⟩) fun _ _ => id
    · exact Strays.reads (fun c a c' hrun => by cases hrun; rfl) fun range => Strays.pure _
    · rw [hls.1, beq_iff_eq.1 hkind]
      decide
  rw [eat, bind_assoc]
  refine Ensures.isAt .doubleColon ?_ ((hname false).mono (fun _ => And.right) fun _ _ => id)
  simp only [if_true, bind_assoc, pure_bind]
  refine Ensures.mono (Strays.bump fun _ => hname true) (fun ls hls => ⟨hls.2, ?_⟩) fun _ _ => id
  rw [hls.1]
  decide

/-! ## Method names -/

section Names

theorem isTouching_inStep {f : Bool → Parser α} {g : Bool → Parser β} (accept : TokenKind → Bool)
    (htrue : InStep x lost (fun ls => accept (kindOf ls 0) = true ∧ pre ls) (f true) (g true) rel)
    (hfalse : InStep x lost pre (f false) (g false) rel) :
    InStep x lost pre (isTouching accept >>= f) (isTouching accept >>= g) rel := by
  rw [isTouching, bind_assoc, bind_assoc]
  refine .look fun kind => ?_
  have hweak : InStep x lost (fun ls => kindOf ls 0 = kind ∧ pre ls) (f false) (g false) rel :=
    hfalse.mono (fun _ => And.right) fun _ _ => id
  by_cases hkind : accept kind = true
  · rw [if_pos hkind]
    refine .readsSame (fun ls => (ls.head?.map fun l => !l.spaced).getD false) (fun _ => rfl) ?_ ?_
    · intro ls ls' hlinked
      have hhead : ∀ ls : List Lexeme, (ls.head?.map fun l => !l.spaced).getD false =
          ((ls[0]?.map Lexeme.face).map fun f => !f.2.2.1).getD false := fun ls => by
        rw [Option.map_map, List.head?_eq_getElem?]
        rfl
      rw [hhead, hhead, hlinked.abreast.face_eq Nat.two_pos]
    · intro touching
      cases touching with
      | false => exact hweak
      | true => exact htrue.mono (fun _ hls => ⟨hls.1 ▸ hkind, hls.2⟩) fun _ _ => id
  · rw [if_neg hkind, pure_bind, pure_bind]
    exact hweak

/-- A kind that is not accepted is not asked any further. -/
theorem ensures_isTouching {f : Bool → Parser β} {post : β → List Lexeme → Prop}
    (accept : TokenKind → Bool) (hpre : ∀ ls, pre ls → accept (kindOf ls 0) = false)
    (hf : Ensures pre (f false) post) : Ensures pre (isTouching accept >>= f) post := by
  rw [isTouching, bind_assoc]
  refine Ensures.look fun kind => .of_pre (accept kind = false)
    (fun ls hls => hls.1 ▸ hpre ls hls.2) fun hkind => ?_
  rw [hkind]
  exact hf.mono (fun _ => And.right) fun _ _ => id

theorem isNameSuffix_of_stray {ls : List Lexeme} (h : Stray ls) :
    isNameSuffix (kindOf ls 0) = false := by
  have hstray := h.isStray
  generalize kindOf ls 0 = kind at hstray
  cases kind <;> first | rfl | cases hstray

theorem indexName_inStep :
    InStep x lost pre indexName indexName fun name name' => name = name' := by
  refine isTouching_inStep _ ?_ (.unexpected _)
  refine .bumpAt .bracketClose rfl (fun _ hls => beq_iff_eq.1 hls.1) fun _ => ?_
  refine isTouching_inStep _ ?_ (.pure rfl)
  exact .bumpAt .equals rfl (fun _ hls => beq_iff_eq.1 hls.1) fun _ => .pure rfl

/-- The one rule that takes any keyword.  Behind that of the header the list is lost. -/
theorem methodName_inStep :
    InStep x AtName pre methodName methodName fun name name' => name = name' := by
  refine .look fun kind => .ite (fun _ => .bumpAny (fun word => ?_) fun word => ?_) fun _ => ?_
  · refine isTouching_inStep _ (.bump (fun ls hls => ?_) fun _ _ => .pure rfl) (.pure rfl)
    have hsuffix := hls.1
    generalize kindOf ls 0 = kind at hsuffix
    cases kind <;> first | rfl | cases hsuffix
  · exact ensures_isTouching _ (fun _ hls => isNameSuffix_of_stray hls.1) (.pure fun _ => id)
  · refine .ite (fun hkind => ?_) fun _ => .ite (fun hkind => ?_) fun _ => .unexpected _
    · rw [← bind_pure bump]
      refine .bump (fun ls hls => ?_) fun _ _ => .pure rfl
      rw [hls.1]
      cases kind <;> first | rfl | cases hkind
    · exact .bumpAt .bracketOpen rfl (fun _ hls => hls.1.trans (beq_iff_eq.1 hkind))
        fun _ => indexName_inStep

/-- The name in front of the list may be taken for that of a method. -/
theorem ensures_methodName : Ensures AtName methodName fun _ => Stray := by
  refine .look fun kind => .of_pre (kind.isStray = true ∧ kind ≠ .bracketOpen)
    (fun ls hls => ⟨hls.1 ▸ hls.2.1.isStray, hls.1 ▸ hls.2.2⟩) fun hkind => ?_
  refine .ite (fun _ => ?_) fun hword => ?_
  · exact .mono (Strays.bump fun word => ensures_isTouching _ (fun _ => isNameSuffix_of_stray)
      (Strays.pure _)) (fun _ => And.right) fun _ _ => id
  · obtain rfl : kind = .doubleColon := by
      cases kind <;> first | rfl | exact absurd rfl hword | exact absurd rfl hkind.2 | cases hkind.1
    exact .unexpected _

theorem eatSelfDot_inStep {f : Bool → Parser α} {g : Bool → Parser β}
    (h : ∀ b, InStep x lost anywhere (f b) (g b) rel) :
    InStep x lost pre (eatSelfDot >>= f) (eatSelfDot >>= g) rel := by
  rw [eatSelfDot, bind_assoc, bind_assoc]
  refine .isAtPair (.keyword .kwSelf) .dot ?_ ?_
  · simp only [if_true, bind_assoc, pure_bind]
    exact .bump (fun ls hls => hls.1.1 ▸ rfl) fun _ _ => .bump (fun ls hls =>
      (show kindOf ls 0 = .dot from hls.1.2) ▸ rfl) fun _ _ => (h true).enter
  · exact (h false).enter

/-- In front of a name there is no `self`. -/
theorem strays_eatSelfDot {f : Bool → Parser β} {post : β → List Lexeme → Prop}
    (hpre : ∀ ls, pre ls → Stray ls) (h : Ensures pre (f false) post) :
    Ensures pre (eatSelfDot >>= f) post := by
  rw [eatSelfDot, bind_assoc]
  refine .isAtPair (.keyword .kwSelf) .dot ?_ ?_
  · refine .of_pre False (fun ls hls => ?_) False.elim
    have hstray := (hpre ls hls.2).isStray
    rw [hls.1.1] at hstray
    cases hstray
  · exact h.mono (fun _ => And.right) fun _ _ => id

theorem methodKind_inStep :
    InStep x lost pre methodKind methodKind fun kind kind' => kind = kind' := by
  refine .isAt (.keyword .kwSelf) ?_ (.pure rfl)
  refine .peek Nat.one_lt_two fun first => .peekOf 2 (fun ls ls' hlinked hls => ?_) fun second => ?_
  · exact hlinked.abreast.kindOf_two_eq (by rw [hls.2.1]; exact ⟨nofun, nofun⟩)
  · refine .ite (fun hfirst => ?_) fun _ => .ite (fun hpair => ?_) fun _ => .pure rfl
    · refine .bump (fun ls hls => hls.2.2.1 ▸ rfl) fun _ _ => .bump (fun ls hls => ?_)
        fun _ _ => .pure rfl
      rw [show kindOf ls 0 = first from hls.2.1, beq_iff_eq.1 hfirst]
      rfl
    · obtain ⟨hquestion, hdot⟩ := Bool.and_eq_true_iff.1 hpair
      refine .bump (fun ls hls => hls.2.2.1 ▸ rfl) fun _ _ => .bump (fun ls hls => ?_)
        fun _ _ => .bump (fun ls hls => ?_) fun _ _ => .pure rfl
      · rw [show kindOf ls 0 = first from hls.2.1, beq_iff_eq.1 hquestion]
        rfl
      · rw [show kindOf ls 0 = second from hls.1, beq_iff_eq.1 hdot]
        rfl

end Names

/-! ## Elements of bodies -/

section Members

variable {params vars vars' : List String} (hscope : Extends params vars vars')
  (hspelled : ∀ v ∈ params, TokenKind.upperIdent.Spells v.toList) (n m : Nat)
include hscope hspelled

theorem methodMember_inStep (visibility : Option Visibility) (start start' : Nat) :
    InStep x Stray pre (methodMember vars n visibility start)
      (methodMember vars' m visibility start') fun d d' =>
        (Member.method d).adopted? params = (Member.method d').adopted? [] := by
  have htype : InStep x Stray anywhere (methodType vars n) (methodType vars' m) fun o o' =>
      o.adopted params = o'.adopted [] := methodType_inStep hscope hspelled n m
  refine assertAt_inStep (.bumpAt (.keyword .kwDef) rfl (fun _ => And.left) fun _ => ?_)
  refine .sure methodKind_inStep ?_
  rintro kind _ rfl
  refine .bind methodName_inStep ?_ fun name => atName_of_stray (Strays.expect rfl)
  rintro name _ rfl
  refine .expect rfl fun _ _ => .bind htype (fun first first' hfirst => ?_) fun _ => ?_
  · refine .bind (htype.repeatedAfter rfl rfl) (fun others others' hothers => ?_) fun _ =>
      Strays.spanFrom fun _ => Strays.pure _
    refine .spanFrom fun _ _ => .pure ?_
    rw [Member.adopted?_method, Member.adopted?_method, List.map_cons, List.map_cons, hfirst,
      map_eq_iff_forall₂.2 hothers]
  · exact (Strays.repeatedAfter rfl _).bind fun _ => Strays.spanFrom fun _ => Strays.pure _

omit hscope hspelled in
theorem attributeKind_inStep {f : AttributeKind → Parser α} {g : AttributeKind → Parser β}
    (h : ∀ kind, InStep x lost (fun ls => (kindOf ls 0).isKey = false) (f kind) (g kind) rel) :
    InStep x lost pre (attributeKind >>= f) (attributeKind >>= g) rel := by
  rw [attributeKind, bind_assoc, bind_assoc]
  refine .look fun kind => ?_
  split
  · exact (h .reader).mono (fun _ hls => hls.1 ▸ rfl) fun _ _ => id
  · exact (h .writer).mono (fun _ hls => hls.1 ▸ rfl) fun _ _ => id
  · rw [bind_assoc, bind_assoc]
    exact assertAt_inStep ((h .accessor).mono (fun _ hls => hls.1 ▸ rfl) fun _ _ => id)

theorem attributeMember_inStep (visibility : Option Visibility) (start start' : Nat) :
    InStep x Stray pre (attributeMember vars n visibility start)
      (attributeMember vars' m visibility start') fun d d' =>
        (Member.attr d).adopted? params = (Member.attr d').adopted? [] := by
  refine attributeKind_inStep fun kind => .bump (fun _ => id) fun _ _ => eatSelfDot_inStep
    fun singleton => .look fun word => .ite (fun _ => .bumpAny (fun name => ?_) fun name => ?_)
      fun _ => .unexpected _
  · refine .expect rfl fun _ _ => .bind (typeExpr_inStep hscope hspelled n m)
      (fun type type' htype => .spanFrom fun _ _ => .pure ?_) fun _ =>
        Strays.spanFrom fun _ => Strays.pure _
    exact congrArg (fun t => some (Member.attr ⟨kind, name, t, singleton, visibility, default⟩))
      htype
  · exact atName_of_stray (Strays.expect rfl)

omit hscope hspelled in
theorem aliasMember_inStep :
    InStep x Stray pre aliasMember aliasMember fun d d' =>
      (Member.methodAlias d).adopted? params = (Member.methodAlias d').adopted? [] := by
  refine .startOffset fun start start' => assertAt_inStep (.bumpAt (.keyword .kwAlias) rfl
    (fun _ => And.left) fun _ => eatSelfDot_inStep fun singleton => ?_)
  have hold : ∀ name : String, Ensures AtName (do
      let oldStart ← currentRange
      if (← eatSelfDot) == singleton then
        let oldName ← methodName
        return (⟨name, oldName, singleton, ← spanFrom start'⟩ : AliasMember)
      else failAt oldStart "alias must name two instance methods or two singleton methods")
      fun _ => Stray := fun name => by
    refine .reads (fun c a c' hrun => by cases hrun; rfl) fun oldStart => ?_
    refine strays_eatSelfDot (fun _ => And.left) (.ite (fun _ => ?_) fun _ => .stops (.failAt _ _))
    exact ensures_methodName.bind fun _ => Strays.spanFrom fun _ => Strays.pure _
  refine .bind methodName_inStep ?_ hold
  rintro newName _ rfl
  refine .reads (fun c a c' hrun => by cases hrun; rfl) (fun c a c' hrun => by cases hrun; rfl)
    fun oldStart oldStart' => eatSelfDot_inStep fun other => .ite (fun _ => ?_) fun _ =>
      .stops (.failAt _ _)
  refine .bind methodName_inStep ?_ fun oldName => ?_
  · rintro oldName _ rfl
    exact .spanFrom fun _ _ => .pure rfl
  · exact atName_of_stray (Strays.spanFrom fun _ => Strays.pure _)

theorem mixinMember_inStep (kind : MixinKind) (hpre : ∀ ls, pre ls → (kindOf ls 0).isKey = false) :
    InStep x never pre (mixinMember vars n kind) (mixinMember vars' m kind) fun d d' =>
      (Member.mixin d).adopted? params = (Member.mixin d').adopted? [] := by
  refine .startOffset fun start start' => .bump hpre fun _ _ =>
    .sure (namedType_inStep hscope hspelled n m _) fun target target' htarget =>
      .spanFrom fun _ _ => .pure ?_
  exact congrArg (fun t => some (Member.mixin ⟨kind, t, default⟩)) htarget

theorem variableMember_inStep (hpre : ∀ ls, pre ls → (kindOf ls 0).isKey = false) :
    InStep x Stray pre (variableMember vars n) (variableMember vars' m) fun d d' =>
      (Member.typedVar d).adopted? params = (Member.typedVar d').adopted? [] := by
  have hrest : ∀ (start start' : Nat) (b : Bool), InStep x Stray pre
      (do
        let name ← bump
        let _ ← expect .colon "`:`"
        let type ← typeExpr vars n
        return (⟨if b then .ofInstance else .ofClass, name, type, ← spanFrom start⟩ :
          VariableMember))
      (do
        let name ← bump
        let _ ← expect .colon "`:`"
        let type ← typeExpr vars' m
        return (⟨if b then .ofInstance else .ofClass, name, type, ← spanFrom start'⟩ :
          VariableMember)) fun d d' =>
            (Member.typedVar d).adopted? params = (Member.typedVar d').adopted? [] := by
    intro start start' b
    refine .bump hpre fun name _ => .expect rfl fun _ _ =>
      .bind (typeExpr_inStep hscope hspelled n m)
        (fun type type' htype => .spanFrom fun _ _ => .pure ?_)
        fun _ => Strays.spanFrom fun _ => Strays.pure _
    exact congrArg (fun t => some (Member.typedVar ⟨_, _, t, default⟩)) htype
  exact .startOffset fun start start' => .isAt .instanceVar
    ((hrest start start' true).mono (fun _ => And.right) fun _ _ => id)
    ((hrest start start' false).mono (fun _ => And.right) fun _ _ => id)

omit hscope hspelled in
/-- A rule for an element without a declaration in it. -/
theorem member_inStep {p : Parser α} {q : Parser β} {build : α → Member} {build' : β → Member}
    (h : InStep x Stray pre p q fun a b => (build a).adopted? params = (build' b).adopted? [])
    (hsome : ∀ a, ((build a).adopted? params).isSome) :
    InStep x Stray pre (do return build (← p)) (do return build' (← q))
      (Member.Corresponds x.params x.Here params) :=
  .bind h (fun a _ hab => .pure (.of_own hab (hsome a))) fun _ => Strays.pure _

theorem method_inStep (visibility : Option Visibility) (start start' : Nat) :
    InStep x Stray pre (do return Member.method (← methodMember vars n visibility start))
      (do return Member.method (← methodMember vars' m visibility start'))
      (Member.Corresponds x.params x.Here params) :=
  member_inStep (methodMember_inStep hscope hspelled n m visibility start start') fun _ => rfl

theorem attr_inStep (visibility : Option Visibility) (start start' : Nat) :
    InStep x Stray pre (do return Member.attr (← attributeMember vars n visibility start))
      (do return Member.attr (← attributeMember vars' m visibility start'))
      (Member.Corresponds x.params x.Here params) :=
  member_inStep (attributeMember_inStep hscope hspelled n m visibility start start') fun _ => rfl

omit hscope hspelled in
theorem prefixesMember_inStep {f : Bool → Parser α} {g : Bool → Parser β}
    (h : ∀ b, InStep x lost pre (f b) (g b) rel) :
    InStep x lost pre (prefixesMember >>= f) (prefixesMember >>= g) rel := by
  rw [prefixesMember, bind_assoc, bind_assoc]
  refine .readsSame (fun ls => (ls[1]?.map fun l => !l.onNewLine).getD false) (fun _ => rfl) ?_
    fun sameLine => ?_
  · intro ls ls' hlinked
    have hsecond : ∀ ls : List Lexeme, (ls[1]?.map fun l => !l.onNewLine).getD false =
        ((ls[1]?.map Lexeme.face).map fun f => !f.2.2.2).getD false := fun ls => by
      rw [Option.map_map]
      rfl
    rw [hsecond, hsecond, hlinked.abreast.face_eq Nat.one_lt_two]
  · cases sameLine with
    | false => exact h false
    | true =>
      simp only [if_true, bind_assoc, pure_bind]
      exact .peek Nat.one_lt_two fun kind => (h _).mono (fun _ => And.right) fun _ _ => id

theorem visibilityMember_inStep (hpre : ∀ ls, pre ls → (kindOf ls 0).isKey = false) :
    InStep x Stray pre (visibilityMember vars n) (visibilityMember vars' m)
      (Member.Corresponds x.params x.Here params) := by
  have hrest : ∀ (start start' : Nat) (range range' : TextRange) (visibility : Visibility),
      InStep x Stray pre
        (do
          let applies ← prefixesMember
          let _ ← bump
          if applies then
            if ← isAt (.keyword .kwDef) then
              return Member.method (← methodMember vars n (some visibility) start)
            else return .attr (← attributeMember vars n (some visibility) start)
          else return .marker ⟨visibility, ← spanOf range⟩)
        (do
          let applies ← prefixesMember
          let _ ← bump
          if applies then
            if ← isAt (.keyword .kwDef) then
              return Member.method (← methodMember vars' m (some visibility) start')
            else return .attr (← attributeMember vars' m (some visibility) start')
          else return .marker ⟨visibility, ← spanOf range'⟩)
        (Member.Corresponds x.params x.Here params) := by
    intro start start' range range' visibility
    refine prefixesMember_inStep fun applies => .bump hpre fun _ _ => .ite (fun _ => ?_) fun _ => ?_
    · exact .isAt (.keyword .kwDef) (method_inStep hscope hspelled n m _ _ _)
        (attr_inStep hscope hspelled n m _ _ _)
    · exact .spanOf fun _ _ _ => .pure (.of_own rfl rfl)
  refine .startOffset fun start start' => ?_
  refine .reads (fun c a c' hrun => by cases hrun; rfl) (fun c a c' hrun => by cases hrun; rfl)
    fun range range' => .isAt (.keyword .kwPrivate) ?_ ?_
  · exact (hrest start start' range range' _).mono (fun _ => And.right) fun _ _ => id
  · exact (hrest start start' range range' _).mono (fun _ => And.right) fun _ _ => id

theorem bodyMember_inStep {declaration declaration' : Parser EntityDecl}
    (h : InStep x Stray anywhere declaration declaration'
      (EntityDecl.Corresponds x.params x.Here)) :
    InStep x Stray anywhere (bodyMember vars n declaration) (bodyMember vars' m declaration')
      (Member.Corresponds x.params x.Here params) := by
  have hmixin : ∀ (kind : MixinKind) (token : TokenKind), token.isKey = false →
      InStep x Stray (fun ls => kindOf ls 0 = token ∧ anywhere ls)
        (do return Member.mixin (← mixinMember vars n kind))
        (do return Member.mixin (← mixinMember vars' m kind))
        (Member.Corresponds x.params x.Here params) := by
    intro kind token htoken
    refine member_inStep (mixinMember_inStep hscope hspelled n m kind ?_).weaken fun _ => rfl
    exact fun _ hls => hls.1.symm ▸ htoken
  have hattr : ∀ token : TokenKind, InStep x Stray (fun ls => kindOf ls 0 = token ∧ anywhere ls)
      (do
        let start ← startOffset
        return Member.attr (← attributeMember vars n none start))
      (do
        let start ← startOffset
        return Member.attr (← attributeMember vars' m none start))
      (Member.Corresponds x.params x.Here params) := fun token =>
    .startOffset fun start start' => attr_inStep hscope hspelled n m none start start'
  have hvariable : ∀ token : TokenKind, token.isKey = false →
      InStep x Stray (fun ls => kindOf ls 0 = token ∧ anywhere ls)
        (do return Member.typedVar (← variableMember vars n))
        (do return Member.typedVar (← variableMember vars' m))
        (Member.Corresponds x.params x.Here params) := by
    intro token htoken
    refine member_inStep (variableMember_inStep hscope hspelled n m ?_) fun _ => rfl
    exact fun _ hls => hls.1.symm ▸ htoken
  have hnested : ∀ token : TokenKind, InStep x Stray (fun ls => kindOf ls 0 = token ∧ anywhere ls)
      (do return Member.nested (← declaration)) (do return Member.nested (← declaration'))
      (Member.Corresponds x.params x.Here params) := fun token =>
    h.enter.bind (fun _ _ hd => .pure (.of_nested hd)) fun _ => Strays.pure _
  refine .look fun kind => ?_
  split
  · exact .startOffset fun start start' => method_inStep hscope hspelled n m none start start'
  · exact member_inStep aliasMember_inStep fun _ => rfl
  · exact hmixin _ _ rfl
  · exact hmixin _ _ rfl
  · exact hmixin _ _ rfl
  · exact hattr _
  · exact hattr _
  · exact hattr _
  · exact visibilityMember_inStep hscope hspelled n m fun _ hls => hls.1.symm ▸ rfl
  · exact visibilityMember_inStep hscope hspelled n m fun _ hls => hls.1.symm ▸ rfl
  · exact hvariable _ rfl
  · exact hvariable _ rfl
  all_goals first | exact hnested _ | exact .unexpected _

theorem interfaceMember_inStep :
    InStep x Stray anywhere (interfaceMember vars n) (interfaceMember vars' m)
      (Member.Corresponds x.params x.Here params) := by
  refine .look fun kind => ?_
  split
  · exact .startOffset fun start start' => method_inStep hscope hspelled n m none start start'
  · exact member_inStep aliasMember_inStep fun _ => rfl
  · refine member_inStep (mixinMember_inStep hscope hspelled n m .included ?_).weaken fun _ => rfl
    exact fun _ hls => hls.1.symm ▸ rfl
  · exact .unexpected _

end Members

end Parser

end RubySig
