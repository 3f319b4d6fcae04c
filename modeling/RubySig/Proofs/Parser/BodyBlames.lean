import RubySig.Proofs.Parser.MethodBlames

/-!
# Syntax errors in bodies

Wherever an element of a body stops, what it took can be completed to an element, and a body is
completed by its `end`.

* `Parser.methodMember_blames`, `Parser.attributeMember_blames`, `Parser.aliasMember_blames`,
  `Parser.mixinMember_blames`, `Parser.variableMember_blames`, `Parser.visibilityMember_blames`: the
  elements by their kinds.
* `Parser.bodyMember_continuable`, `Parser.interfaceMember_continuable`: elements of bodies.
* `Parser.memberList_completable`: bodies.
-/

namespace RubySig

namespace Parser

variable {α β : Type} {n : Nat} {w : List Filler}

/-! ## Members -/

section Members

variable (vars : List String) (levels : Nat)

theorem methodMember_blames (visibility : Option Visibility) (start : Nat)
    {k : MethodMember → Parser β} {ls : List Face} {goal : List Face → Prop} {possible : Prop}
    (hls : ls.length ≤ n + 1) (hat : seen ls 0 = .keyword .kwDef) (hn : n < levels) (hw : Closed w)
    (hk : ∀ a, Viable n w Shy (k a)) (hgoal : ∀ s, goal s) :
    Blames ls goal possible (methodMember vars levels visibility start >>= k) := by
  simp only [methodMember, bind_assoc, pure_bind]
  have hoverloads := methodType_completable vars levels
  refine .assertAt hat (.opens (.lower :: .colon :: .arrow :: .void :: w) hls hat nofun nofun
    (fun _ => ?_) fun _ _ _ _ _ _ => hgoal _)
  refine methodKind_viable (by exact nofun) fun kind => ?_
  refine (methodName_viable ⟨by rfl, by exact nofun⟩ fun name => ?_).weaken fun _ _ _ h => h.2
  refine .expect _ rfl (fun _ => ?_) fun f ls s hf _ => unmarked_of_ne hf nofun
  refine (hoverloads hn hw fun first => ?_).free
  refine repeatedAfter_viable hoverloads (shortens_methodType vars levels) divides_pipe hn hw
    fun others => ?_
  exact .idles (idles_spanFrom start) fun span => hk _

/-- The directive of an attribute is seen. -/
def AtAttribute (ls : List Face) : Prop :=
  takesVisibility (seen ls 0) = true ∧ seen ls 0 ≠ .keyword .kwDef

theorem AtAttribute.accessor {ls : List Face} (h : AtAttribute ls)
    (hreader : seen ls 0 ≠ .keyword .kwAttrReader) (hwriter : seen ls 0 ≠ .keyword .kwAttrWriter) :
    seen ls 0 = .keyword .kwAttrAccessor := by
  obtain ⟨htakes, hdef⟩ := h
  unfold takesVisibility at htakes
  split at htakes
  · exact absurd ‹_› hdef
  · exact absurd ‹_› hreader
  · exact absurd ‹_› hwriter
  · assumption
  · cases htakes

theorem attributeKind_blames {k : AttributeKind → Parser β} {ls : List Face}
    {goal : List Face → Prop} {possible : Prop} (hat : AtAttribute ls)
    (hk : ∀ a, Blames ls goal possible (k a)) :
    Blames ls goal possible (attributeKind >>= k) := by
  simp only [attributeKind, bind_assoc]
  refine .look ?_
  split
  · rw [pure_bind]
    exact hk _
  · rw [pure_bind]
    exact hk _
  · next hreader hwriter =>
    rw [bind_assoc]
    refine .assertAt (hat.accessor hreader hwriter) ?_
    rw [pure_bind]
    exact hk _

/-- A name with a type behind it. -/
theorem typedName_viable {what : String} {γ : Type} {k' : γ → Parser β}
    {k : String → TypeExpr → Parser β} (hn : n < levels) (hw : Closed w)
    (hk : ∀ name a, Viable n w Shy (k name a)) :
    Viable n (.lower :: .colon :: .void :: w) Bare (look >>= fun kind =>
      if kind.isWord then bump >>= fun name => expect .colon "`:`" >>= fun _ =>
        (typeExpr vars levels : Parser TypeExpr) >>= k name
      else unexpected what >>= k') := by
  have hname : ∀ m ≤ n, ∀ name, Viable m (.colon :: .void :: w) Unmarked
      (expect .colon "`:`" >>= fun _ => (typeExpr vars levels : Parser TypeExpr) >>= k name) := by
    intro m hm name
    refine .expect _ rfl (fun _ => ?_) fun f ls s hf _ => unmarked_of_ne hf nofun
    exact ((typed_typeExpr vars levels).completable (hm.trans_lt hn) hw fun a =>
      (hk name a).mono hm).free
  constructor
  · exact .asks asks_look (.bump (hname n (le_refl n) _).accepts)
  · intro ls hls
    refine .look ?_
    split
    · next hword =>
      obtain ⟨f, rest, rfl⟩ := exists_cons_of_ne (readable_of_isWord hword).2
      have hrest := hname _ (Nat.le_of_succ_le hls) f.2.1
      refine .bump (readable_of_isWord hword).1 (hrest.blames rest (le_refl _))
        (fun _ => ⟨.colon :: .void :: w, fun _ => ⟨nofun, nofun⟩, hrest.accepts⟩)
        fun s halike hunmarked _ => ⟨fun h => halike.seen_eq.symm.trans h, fun h => ?_⟩
      exact absurd (halike.seen_eq.symm.trans h) hunmarked
    · exact .unexpected _ trivial

theorem attributeMember_blames (visibility : Option Visibility) (start : Nat)
    {k : AttributeMember → Parser β} {ls : List Face} {goal : List Face → Prop} {possible : Prop}
    (hls : ls.length ≤ n + 1) (hat : AtAttribute ls) (hn : n < levels) (hw : Closed w)
    (hk : ∀ a, Viable n w Shy (k a)) (hgoal : ∀ s, goal s) :
    Blames ls goal possible (attributeMember vars levels visibility start >>= k) := by
  simp only [attributeMember, bind_assoc, ite_bind, pure_bind, typeExpr_bind]
  refine attributeKind_blames hat fun kind => ?_
  have hend : seen ls 0 ≠ .garbage ∧ seen ls 0 ≠ .endOfText := by
    constructor <;> intro h <;> have htakes := hat.1 <;> rw [h] at htakes <;> cases htakes
  refine .opens (.lower :: .colon :: .void :: w) hls rfl hend.1 hend.2 (fun _ => ?_)
    fun _ _ _ _ _ _ => hgoal _
  have hname : ∀ singleton, Viable n (.lower :: .colon :: .void :: w) Bare (look >>= fun kind' =>
      if kind'.isWord then bump >>= fun name => expect .colon "`:`" >>= fun _ =>
        (typeExpr vars levels : Parser TypeExpr) >>= fun type => spanFrom start >>= fun span =>
          k ⟨kind, name, type, singleton, visibility, span⟩
      else unexpected "an attribute name" >>= k) := fun singleton =>
    typedName_viable vars levels hn hw fun name type =>
      .idles (idles_spanFrom start) fun span => hk _
  exact eatSelfDot_viable nofun (hname true).free (hname false)

/-- How the second name of an alias is completed. -/
def otherName : Bool → List Filler
  | true => [.self, .dot, .lower]
  | false => [.lower]

/-- What is seen of `self.` is taken. -/
theorem eatSelfDot_eq_ok {c : Cursor} (hfuel : c.fuel = none) : ∃ d, eatSelfDot c =
    .ok (seen (faces c.rest) 0 == .keyword .kwSelf && seen (faces c.rest) 1 == .dot) d := by
  obtain ⟨d, hpair, hlevel⟩ := asks_isAtPair (.keyword .kwSelf) .dot c
  have hsteps : eatSelfDot c = (if seen (faces c.rest) 0 == TokenKind.keyword .kwSelf &&
      seen (faces c.rest) 1 == TokenKind.dot then do
        let _ ← bump
        let _ ← bump
        return true
      else return false) d := bind_of_ok hpair
  rw [hsteps]
  cases hseen : seen (faces c.rest) 0 == .keyword .kwSelf && seen (faces c.rest) 1 == .dot with
  | false => exact ⟨d, rfl⟩
  | true =>
    rw [Bool.and_eq_true, beq_iff_eq, beq_iff_eq, ← hlevel.rest] at hseen
    obtain ⟨f, g, rest, hrest, -, -⟩ := exists_cons_cons_of_seen hseen.1 hseen.2 nofun nofun
    obtain ⟨l, ls, hd, -, hls⟩ := List.map_eq_cons_iff.1 hrest
    obtain ⟨l', ls', rfl, -, -⟩ := List.map_eq_cons_iff.1 hls
    have hspent : d.fuel = none := hlevel.fuel.trans hfuel
    rw [if_pos rfl, bind_of_ok (bump_of_free hspent hd),
      bind_of_ok (bump_of_free (fuel_behind hspent l (l' :: ls')) rfl)]
    exact ⟨_, rfl⟩

/-- The second name of an alias has to be of the same side as the first one. -/
theorem otherName_viable (singleton : Bool) {message : String} {γ : Type} {k' : γ → Parser β}
    {k : String → Parser β} (hw : Parts w) (hk : ∀ name, Viable n w Unmarked (k name)) :
    Viable n (otherName singleton ++ w) Unmarked (currentRange >>= fun range =>
      eatSelfDot >>= fun again => if again == singleton then methodName >>= k
        else failAt range message >>= k') := by
  have hname := methodName_viable hw hk
  constructor
  · refine .idles idles_currentRange fun range => ?_
    cases singleton with
    | false => exact eatSelfDot_accepts (fun h => by cases h) hname.accepts
    | true =>
      simp only [eatSelfDot, bind_assoc, ite_bind, pure_bind]
      exact .asks (asks_isAtPair _ _) (.bump (.bump hname.accepts))
  · intro ls hls
    by_cases hsame : (seen ls 0 == .keyword .kwSelf && seen ls 1 == .dot) = singleton
    · refine .idles idles_currentRange fun range => ?_
      cases singleton with
      | false =>
        refine eatSelfDot_left (fun h => ?_) (fun s hs => hs) (hname.blames ls hls)
        rw [h.1, h.2] at hsame
        cases hsame
      | true =>
        rw [Bool.and_eq_true, beq_iff_eq, beq_iff_eq] at hsame
        refine eatSelfDot_taken hls hsame.1 hsame.2 (fun s => ?_) hname.free
        show seen ls 0 ≠ .question
        rw [hsame.1]
        decide
    · refine .stops trivial fun c hfuel hrest => ?_
      subst hrest
      obtain ⟨d, hd⟩ := eatSelfDot_eq_ok hfuel
      have hrange : currentRange c = .ok (rangeAt c) c := rfl
      refine ⟨message, d, ?_⟩
      rw [bind_of_ok hrange, bind_of_ok hd, if_neg (fun h => hsame (beq_iff_eq.1 h))]
      rfl

theorem aliasMember_blames {k : AliasMember → Parser β} {ls : List Face} (hls : ls.length ≤ n + 1)
    (hat : seen ls 0 = .keyword .kwAlias) (hw : Parts w) (hk : ∀ a, Viable n w Unmarked (k a))
    {goal : List Face → Prop} (hgoal : ∀ s, goal s) :
    Blames ls goal True (aliasMember >>= k) := by
  simp only [aliasMember, bind_assoc, ite_bind, pure_bind]
  refine .idles idles_startOffset fun start => .assertAt hat ?_
  have hnames : ∀ singleton, Viable n (.lower :: (otherName singleton ++ w)) Bare
      (methodName >>= fun newName => currentRange >>= fun range => eatSelfDot >>= fun again =>
        if again == singleton then methodName >>= fun oldName => spanFrom start >>= fun span =>
          k ⟨newName, oldName, singleton, span⟩
        else
          failAt range "alias must name two instance methods or two singleton methods" >>= k) := by
    intro singleton
    have hother : Parts (otherName singleton ++ w) := by
      cases singleton <;> exact ⟨rfl, nofun⟩
    refine (methodName_viable hother fun newName => ?_).weaken fun _ _ _ h => h.2
    exact otherName_viable singleton hw fun oldName =>
      .idles (idles_spanFrom start) fun span => hk _
  exact .opens (.lower :: .lower :: w) hls hat nofun nofun
    (fun _ => eatSelfDot_viable nofun (hnames true).free (hnames false)) fun _ _ _ _ _ _ => hgoal _

theorem mixinMember_blames (mixin : MixinKind) {k : Mixin → Parser β} {ls : List Face}
    {kind : TokenKind} (hls : ls.length ≤ n + 1) (hat : seen ls 0 = kind) (hkind : kind ≠ .garbage)
    (hend : kind ≠ .endOfText) (hn : n < levels) (hw : Closed w)
    (hk : ∀ a, Viable n w unrelated (k a)) {goal : List Face → Prop} (hgoal : ∀ s, goal s) :
    Blames ls goal True (mixinMember vars levels mixin >>= k) := by
  simp only [mixinMember, bind_assoc, pure_bind]
  refine .idles idles_startOffset fun start => .opens (.upper :: w) hls hat hkind hend (fun _ => ?_)
    fun _ _ _ _ _ _ => hgoal _
  exact (namedType_completable vars levels _ hn hw fun target =>
    .idles (idles_spanFrom start) fun span => hk _).free

theorem variableMember_blames {k : VariableMember → Parser β} {ls : List Face} {kind : TokenKind}
    (hls : ls.length ≤ n + 1) (hat : seen ls 0 = kind) (hkind : kind ≠ .garbage)
    (hend : kind ≠ .endOfText) (hn : n < levels) (hw : Closed w) (hk : ∀ a, Viable n w Shy (k a))
    {goal : List Face → Prop} (hgoal : ∀ s, goal s) :
    Blames ls goal True (variableMember vars levels >>= k) := by
  simp only [variableMember, bind_assoc, pure_bind, typeExpr_bind]
  have hrest : ∀ start (isInstance : Bool) name, Viable n (.colon :: .void :: w) unrelated
      (expect .colon "`:`" >>= fun _ => (typeExpr vars levels : Parser TypeExpr) >>= fun type =>
        spanFrom start >>= fun span =>
          k ⟨if isInstance then .ofInstance else .ofClass, name, type, span⟩) :=
    fun start isInstance name => .expect _ rfl
      (fun _ => ((typed_typeExpr vars levels).completable hn hw fun type =>
        .idles (idles_spanFrom start) fun span => hk _).free) fun _ _ _ _ _ => trivial
  refine .idles idles_startOffset fun start => .isAt _ (fun _ => ?_) fun _ => ?_
  · exact .opens _ hls hat hkind hend (hrest start true) fun _ _ _ _ _ _ => hgoal _
  · exact .opens _ hls hat hkind hend (hrest start false) fun _ _ _ _ _ _ => hgoal _

/-- Whether a visibility is seen to apply to the member behind it. -/
def prefixSeen (s : List Face) : Bool :=
  ((s[1]?.map fun f => !f.2.2.2).getD false) && takesVisibility (seen s 1)

theorem asks_prefixesMember : Asks prefixesMember prefixSeen := by
  have htakes : Asks (do return takesVisibility (← peek 1)) fun s => takesVisibility (seen s 1) :=
    (asks_peek 1).bind fun kind => .pure (takesVisibility kind)
  exact asks_nextOnSameLine.and htakes

theorem prefixSeen_eq {f : Face} {ls s : List Face} (h : Alike ls s) :
    prefixSeen (f :: s) = prefixSeen (f :: ls) := by
  obtain ⟨g, ls', s', rfl, rfl⟩ := h
  rfl

theorem visibilityMember_blames {k : Member → Parser β} {ls : List Face} {kind : TokenKind}
    (hls : ls.length ≤ n + 1) (hat : seen ls 0 = kind) (hkind : kind ≠ .garbage)
    (hend : kind ≠ .endOfText) (hn : n < levels) (hk : ∀ a, Viable n (.ended :: w) Unmarked (k a))
    {goal : List Face → Prop} (hgoal : ∀ s, goal s) :
    Blames ls goal True (visibilityMember vars levels >>= k) := by
  simp only [visibilityMember, bind_assoc, ite_bind, pure_bind]
  obtain ⟨f, rest, rfl, hf⟩ := exists_cons_of_seen hat hend
  have hw : Closed (.ended :: w) := rfl
  have hshy : ∀ a, Viable n (.ended :: w) Shy (k a) := fun a =>
    (hk a).weaken fun _ _ _ h => h.shy
  have hbump : ∀ (start : Nat) (range : TextRange) (visibility : Visibility),
      Blames (f :: rest) goal True (prefixesMember >>= fun applies => bump >>= fun _ =>
        if applies then
          isAt (.keyword .kwDef) >>= fun isDef =>
            if isDef then
              methodMember vars levels (some visibility) start >>= fun m => k (.method m)
            else attributeMember vars levels (some visibility) start >>= fun m => k (.attr m)
        else spanOf range >>= fun span => k (.marker ⟨visibility, span⟩)) := by
    intro start range visibility
    cases happlies : prefixSeen (f :: rest) with
    | true =>
      have htakes : takesVisibility (seen rest 0) = true := (Bool.and_eq_true_iff.1 happlies).2
      refine .answered asks_prefixesMember happlies (fun s _ hs => ⟨hgoal s, hs⟩) ?_
      -- the member behind it begins with a lexeme that is seen, so nothing has to complete it
      refine .pass (hf ▸ hkind) ?_ fun s halike (_ : True) => (prefixSeen_eq halike).trans happlies
      refine .isAt _ (fun hdef => ?_) fun hdef => ?_
      · exact methodMember_blames vars levels _ start (Nat.le_of_succ_le hls) hdef hn hw
          (fun m => hshy _) fun _ => trivial
      · exact attributeMember_blames vars levels _ start (Nat.le_of_succ_le hls) ⟨htakes, hdef⟩
          hn hw (fun m => hshy _) fun _ => trivial
    | false =>
      refine .answered asks_prefixesMember happlies (fun s _ hs => ⟨hgoal s, hs⟩) ?_
      refine .take (.ended :: w) (hf ▸ hkind) ?_ fun s hs => ?_
      · exact .idles (idles_spanOf range) fun span =>
          ((hk _).mono (Nat.le_of_succ_le_succ hls)).free
      · rcases hs with rfl | halike
        · rfl
        · exact (prefixSeen_eq halike).trans happlies
  refine .idles idles_startOffset fun start => .idles idles_currentRange fun range => ?_
  exact .isAt _ (fun _ => hbump start range _) fun _ => hbump start range _

/-! ## Bodies -/

/-- A completion of a body. -/
def Ending (w : List Filler) : Prop := ∃ w', w = .ended :: w'

section Elements

variable {k : Member → Parser β} {ls : List Face} {kind : TokenKind} (hls : ls.length ≤ n + 1)
  (hn : n < levels) (hk : ∀ a, Viable n (.ended :: w) Unmarked (k a))

include hls hn hk

theorem methodElement_blames (hat : seen ls 0 = .keyword .kwDef) :
    Blames ls (Unmarked ls) True ((do
      let start ← startOffset
      return .method (← methodMember vars levels none start)) >>= k) := by
  simp only [bind_assoc, pure_bind]
  refine .idles idles_startOffset fun start => ?_
  exact methodMember_blames vars levels none start hls hat hn (by rfl)
    (fun m => (hk _).weaken fun _ _ _ h => h.shy) (unmarked_of_seen hat nofun)

theorem attributeElement_blames (hat : seen ls 0 = kind) (htakes : takesVisibility kind = true)
    (hdef : kind ≠ .keyword .kwDef) (hmark : kind ≠ .question) :
    Blames ls (Unmarked ls) True ((do
      let start ← startOffset
      return .attr (← attributeMember vars levels none start)) >>= k) := by
  simp only [bind_assoc, pure_bind]
  refine .idles idles_startOffset fun start => ?_
  subst hat
  exact attributeMember_blames vars levels none start hls ⟨htakes, hdef⟩ hn (by rfl)
    (fun m => (hk _).weaken fun _ _ _ h => h.shy) fun _ => hmark

omit hn in
theorem aliasElement_blames (hat : seen ls 0 = .keyword .kwAlias) :
    Blames ls (Unmarked ls) True ((do return .methodAlias (← aliasMember)) >>= k) := by
  simp only [bind_assoc, pure_bind]
  exact aliasMember_blames hls hat ⟨by rfl, by exact nofun⟩ (fun m => hk _)
    (unmarked_of_seen hat nofun)

theorem mixinElement_blames (mixin : MixinKind) (hat : seen ls 0 = kind) (hkind : kind ≠ .garbage)
    (hend : kind ≠ .endOfText) (hmark : kind ≠ .question) :
    Blames ls (Unmarked ls) True ((do return .mixin (← mixinMember vars levels mixin)) >>= k) := by
  simp only [bind_assoc, pure_bind]
  exact mixinMember_blames vars levels mixin hls hat hkind hend hn (by rfl) (fun m => (hk _).free)
    (unmarked_of_seen hat hmark)

theorem variableElement_blames (hat : seen ls 0 = kind) (hkind : kind ≠ .garbage)
    (hend : kind ≠ .endOfText) (hmark : kind ≠ .question) :
    Blames ls (Unmarked ls) True ((do return .typedVar (← variableMember vars levels)) >>= k) := by
  simp only [bind_assoc, pure_bind]
  exact variableMember_blames vars levels hls hat hkind hend hn (by rfl)
    (fun m => (hk _).weaken fun _ _ _ h => h.shy) (unmarked_of_seen hat hmark)

end Elements

theorem bodyMember_continuable {declaration : Parser EntityDecl}
    (hdeclaration : Continuable levels Closed Unmarked Unmarked declaration) :
    Continuable levels Ending Unmarked Unmarked (bodyMember vars levels declaration) := by
  rintro β n w k hn ⟨w, rfl⟩ hk ls hls
  have hnested : Blames ls (Unmarked ls) True ((do return .nested (← declaration)) >>= k) := by
    simp only [bind_assoc, pure_bind]
    exact hdeclaration hn (by rfl) (fun d => hk _) ls hls
  simp only [bodyMember, bind_assoc]
  refine .look ?_
  split
  · next hat => exact methodElement_blames vars levels hls hn hk hat
  · next hat => exact aliasElement_blames hls hk hat
  · next hat => exact mixinElement_blames vars levels hls hn hk .included hat nofun nofun nofun
  · next hat => exact mixinElement_blames vars levels hls hn hk .extended hat nofun nofun nofun
  · next hat => exact mixinElement_blames vars levels hls hn hk .prepended hat nofun nofun nofun
  · next hat => exact attributeElement_blames vars levels hls hn hk hat rfl nofun nofun
  · next hat => exact attributeElement_blames vars levels hls hn hk hat rfl nofun nofun
  · next hat => exact attributeElement_blames vars levels hls hn hk hat rfl nofun nofun
  · next hat =>
    exact visibilityMember_blames vars levels hls hat nofun nofun hn hk (unmarked_of_seen hat nofun)
  · next hat =>
    exact visibilityMember_blames vars levels hls hat nofun nofun hn hk (unmarked_of_seen hat nofun)
  · next hat => exact variableElement_blames vars levels hls hn hk hat nofun nofun nofun
  · next hat => exact variableElement_blames vars levels hls hn hk hat nofun nofun nofun
  all_goals first
    | exact hnested
    | exact .unexpected _ trivial

theorem interfaceMember_continuable :
    Continuable levels Ending Unmarked Unmarked (interfaceMember vars levels) := by
  rintro β n w k hn ⟨w, rfl⟩ hk ls hls
  simp only [interfaceMember, bind_assoc]
  refine .look ?_
  split
  · next hat => exact methodElement_blames vars levels hls hn hk hat
  · next hat => exact aliasElement_blames hls hk hat
  · next hat => exact mixinElement_blames vars levels hls hn hk .included hat nofun nofun nofun
  · exact .unexpected _ trivial

end Members

/-- A body is completed by its `end`, wherever an element of it stops.  An element opens a level. -/
theorem memberList_completable {levels : Nat} {member : Parser Member}
    (hmember : Continuable levels Ending Unmarked Unmarked member) (hshort : Shortens 1 member) :
    Completable (levels + 1) (fun _ => True) [.ended] unrelated Unmarked (memberList member) := by
  intro β n w k hn _ hk
  induction n using Nat.strong_induction_on generalizing k with
  | _ n ih =>
    rw [memberList_eq hshort]
    simp only [memberRound, eat, bind_assoc, ite_bind, pure_bind, if_true, Bool.false_eq_true,
      if_false]
    constructor
    · exact .asks (asks_isAt _) (.bump (hk []).accepts)
    · intro ls hls
      refine .isAt _ (fun hat => ?_) fun _ => .atEnd ?_
      · exact .opens w (Nat.le_succ_of_le hls) hat (by decide) (by decide) (fun _ => hk [])
          fun f rest s hcons _ _ => unmarked_of_seen hat (by decide) _
      · cases ls with
        | nil => exact .unexpected _ trivial
        | cons f rest =>
          -- an element takes a lexeme, so the rest of the body stands in front of fewer of them
          obtain ⟨n, rfl⟩ := Nat.exists_eq_succ_of_ne_zero (Nat.ne_zero_of_lt hls)
          have hrest : n < levels := Nat.lt_of_succ_lt_succ hn
          exact hmember hrest ⟨w, rfl⟩ (fun m => ih n (Nat.lt_succ_self n) (Nat.lt_succ_of_lt hrest)
            fun as => (hk (m :: as)).mono (Nat.le_succ n)) (f :: rest) hls

end Parser

end RubySig
