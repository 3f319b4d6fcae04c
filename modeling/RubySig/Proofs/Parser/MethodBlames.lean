import RubySig.Proofs.Parser.TypeBlames

/-!
# Syntax errors in methods

Wherever the type parameters, the name or an overload of a method stop, what was taken can be
completed to them.

* `Unmarked`: nothing that begins with a mark is read.
* `Parser.typeParams_viable`, `Parser.methodType_completable`: type parameters and overloads.
* `Parser.methodName_viable`: the names of methods.
* `Parser.methodKind_viable`, `Parser.eatSelfDot_viable`: the receivers of methods.
-/

namespace RubySig

/-- Nothing that begins with a mark `?` is read. -/
def Unmarked (ls _ : List Face) : Prop := seen ls 0 ≠ .question

theorem unmarked_of_ne {f : Face} {ls s : List Face} {kind : TokenKind} (hf : f.1 = kind)
    (hkind : kind ≠ .question) : Unmarked (f :: ls) s :=
  fun hmark => absurd (hf.symm.trans hmark) hkind

theorem unmarked_of_seen {ls : List Face} {kind : TokenKind} (hat : seen ls 0 = kind)
    (hkind : kind ≠ .question) (s : List Face) : Unmarked ls s :=
  fun hmark => absurd (hat.symm.trans hmark) hkind

theorem Unmarked.shy {ls s : List Face} (h : Unmarked ls s) : Shy ls s :=
  fun hmark => absurd hmark h

namespace Parser

variable {α β : Type} {n : Nat} {w : List Filler}

/-! ## Type parameters and overloads -/

theorem namedType_completable (vars : List String) (levels : Nat) (what : String) :
    Completable levels Closed [.upper] unrelated Near (namedType vars levels what) := by
  intro β n w k hn hw hk
  have haccept : ∀ kind, acceptsMixin kind = true → acceptsAny kind = true := fun kind h => by
    rw [acceptsAny, h, Bool.true_or]
  exact namedWith_viable (typed_typeExpr vars levels) what haccept rfl (Nat.lt_succ_of_lt hn) hw hk

theorem variance_viable (allowed : Bool) {k : Variance → Parser β}
    (hin : seen (shown w) 0 ≠ .keyword .kwIn) (hout : seen (shown w) 0 ≠ .keyword .kwOut)
    (hk : ∀ a, Viable n w unrelated (k a)) : Viable n w unrelated (variance allowed >>= k) := by
  simp only [variance, bind_assoc]
  constructor
  · refine .asks asks_look ?_
    split
    · exact absurd ‹_› hin
    · exact absurd ‹_› hout
    · rw [pure_bind]
      exact (hk _).accepts
  · intro ls hls
    have hmark : ∀ {kind : TokenKind} (a : Variance), seen ls 0 = kind → kind ≠ .garbage →
        kind ≠ .endOfText → Blames ls (unrelated ls) True
          ((if allowed then do let _ ← bump; return a else return .invariant) >>= k) := by
      intro kind a hat hkind hend
      simp only [ite_bind, bind_assoc, pure_bind]
      split
      · exact .opens w (Nat.le_succ_of_le hls) hat hkind hend (fun _ => hk _)
          fun _ _ _ _ _ _ => trivial
      · exact (hk _).blames ls hls
    refine .look ?_
    split
    · next hat => exact hmark _ hat nofun nofun
    · next hat => exact hmark _ hat nofun nofun
    · rw [pure_bind]
      exact (hk _).blames ls hls

theorem uncheckedMark_viable (allowed : Bool) {k : Bool → Parser β}
    (hw : seen (shown w) 0 ≠ .keyword .kwUnchecked) (hk : ∀ a, Viable n w unrelated (k a)) :
    Viable n w unrelated (uncheckedMark allowed >>= k) := by
  unfold uncheckedMark
  rw [ite_bind]
  split
  · exact .eat w nofun nofun (fun m hm => (hk true).mono hm.le) (hk false) hw
      fun _ _ _ _ _ => trivial
  · rw [pure_bind]
    exact hk false

theorem upperBound_viable {levels : Nat} {type : Parser TypeExpr} (htype : Typed levels type)
    {k : Option TypeExpr → Parser β} (hn : n < levels) (hw : Closed w)
    (hk : ∀ a, Viable n w Shy (k a)) : Viable n w unrelated (upperBound type >>= k) := by
  simp only [upperBound, bind_assoc, ite_bind, pure_bind]
  refine .eat (.void :: w) nofun nofun (fun m hm => ?_) (hk none).free (hw.ne rfl)
    fun _ _ _ _ _ => trivial
  exact (htype.completable (hm.trans hn) hw fun bound => (hk (some bound)).mono hm.le).free

theorem typeParam_completable (allowVariance : Bool) (vars : List String) (levels : Nat) :
    Completable levels Closed [.upper] Shy unrelated (typeParam allowVariance vars levels) := by
  intro β n w k hn hw hk
  simp only [typeParam, bind_assoc, ite_bind, pure_bind]
  refine .idles idles_startOffset fun start => uncheckedMark_viable _ nofun fun unchecked =>
    variance_viable _ nofun nofun fun v => ?_
  refine .need _ rfl (fun name => ?_) fun _ _ _ _ _ => trivial
  exact upperBound_viable (typed_typeExpr _ levels) hn hw fun bound =>
    .idles (idles_spanFrom start) fun span => hk _

theorem typeParamList_viable (allowVariance : Bool) (levels : Nat) (vars : List String)
    {k : List TypeParam → Parser β} (hn : n < levels) (hw : Closed w)
    (hk : ∀ a, Viable n w Shy (k a)) :
    Viable n (.upper :: w) unrelated (typeParamList allowVariance levels vars >>= k) := by
  induction n using Nat.strong_induction_on generalizing vars k with
  | _ n ih =>
    rw [typeParamList_eq]
    simp only [typeParamRound, bind_assoc, ite_bind, pure_bind]
    refine typeParam_completable allowVariance vars levels hn hw fun p => ?_
    exact .eat (.upper :: w) nofun nofun
      (fun m hm => ih m hm _ (hm.trans hn) fun ps => (hk _).mono hm.le) (hk [p]) (hw.ne rfl)
      fun f ls s hf _ => shy_of_ne hf nofun

theorem typeParams_viable (allowVariance : Bool) (vars : List String) (levels : Nat)
    {k : List TypeParam → Parser β} (hn : n < levels) (hw : seen (shown w) 0 ≠ .bracketOpen)
    (hk : ∀ a, Viable n w unrelated (k a)) :
    Viable n w unrelated (typeParams allowVariance vars levels >>= k) := by
  have hsteps : typeParams allowVariance vars levels = eat .bracketOpen >>= fun more =>
      if more then typeParamList allowVariance levels vars >>= fun params =>
        expect .bracketClose "`,` or `]`" >>= fun _ => return params
      else return [] := by
    simp only [typeParams, typeParamList, bind_assoc]
  rw [hsteps]
  simp only [bind_assoc, ite_bind, pure_bind]
  refine .eat (.upper :: .bracketClose :: w) nofun nofun (fun m hm => ?_) (hk []) hw
    fun _ _ _ _ _ => trivial
  refine typeParamList_viable allowVariance levels vars (hm.trans hn) rfl fun params => ?_
  exact .expect _ rfl (fun _ => (hk _).mono hm.le) fun f ls s hf _ => shy_of_ne hf nofun

theorem methodType_completable (vars : List String) (levels : Nat) :
    Completable levels Closed [.arrow, .void] Shy unrelated (methodType vars levels) := by
  intro β n w k hn hw hk
  simp only [methodType, bind_assoc, pure_bind]
  refine .idles idles_startOffset fun start => ?_
  refine typeParams_viable false vars levels hn nofun fun ps => ?_
  refine callable_completable (typed_typeExpr _ levels) (typed_typeExpr_returnType _ levels).2 hn hw
    fun a => ?_
  exact .idles (idles_spanFrom start) fun span => hk _

/-! ## Names of methods -/

/-- A completion of what is behind the name of a method. -/
structure Parts (w : List Filler) : Prop where
  suffix : isNameSuffix (seen (shown w) 0) = false
  dot : seen (shown w) 0 ≠ .dot

/-- `self` that is not the receiver of a method is not made one. -/
def Bare (ls s : List Face) : Prop :=
  seen ls 0 = .keyword .kwSelf → Unseen .dot ls s ∧
    (seen s 1 = .question → seen s 2 = .dot → seen ls 1 = .question ∧ seen ls 2 = .dot)

theorem asks_isTouching (accept : TokenKind → Bool) : Asks (isTouching accept) fun s =>
    accept (seen s 0) && ((s.head?.map fun f => !f.2.2.1).getD false) := by
  have haccept : Asks (do return accept (← look)) fun s => accept (seen s 0) :=
    asks_look.bind fun kind => .pure (accept kind)
  have hboth := haccept.and asks_isAdjacent
  simp only [bind_assoc, pure_bind] at hboth
  exact hboth

/-- A question about the next lexeme only. -/
theorem Blames.touching {ls : List Face} {goal : List Face → Prop} {possible : Prop}
    {accept : TokenKind → Bool} {k : Bool → Parser β}
    (hyes : accept (seen ls 0) = true → Blames ls goal possible (k true))
    (hno : Blames ls goal possible (k false)) :
    Blames ls goal possible (isTouching accept >>= k) := by
  refine .asks (asks_isTouching accept) (fun s halike hs => ⟨hs, ?_⟩) ?_
  · obtain ⟨f, ls', s', rfl, rfl⟩ := halike
    rfl
  · cases hat : accept (seen ls 0) with
    | false => exact hno
    | true =>
      cases (ls.head?.map fun f => !f.2.2.1).getD false with
      | false => exact hno
      | true => exact hyes hat

/-- A lexeme that is taken if it touches the one before it. -/
theorem touching_viable {accept : TokenKind → Bool} {rel : List Face → List Face → Prop}
    {k : String → Parser β} {p : Parser β} (hw : accept (seen (shown w) 0) = false)
    (hkinds : ∀ kind, accept kind = true → kind ≠ .garbage ∧ kind ≠ .endOfText)
    (hk : ∀ text, Viable n w unrelated (k text)) (hp : Viable n w rel p)
    (hrel : ∀ f ls s, Ahead w ls s → rel (f :: ls) (f :: s)) :
    Viable n w rel (isTouching accept >>= fun more => if more then bump >>= k else p) := by
  constructor
  · refine .asks (asks_isTouching accept) ?_
    rw [hw, Bool.false_and, if_neg nofun]
    exact hp.accepts
  · intro ls hls
    refine .touching (fun hat => ?_) (hp.blames ls hls)
    obtain ⟨hgarbage, hend⟩ := hkinds _ hat
    refine .opens w (Nat.le_succ_of_le hls) rfl hgarbage hend hk fun f rest s hcons _ hs => ?_
    rw [hcons]
    exact hrel f rest s hs

theorem wordName_viable (word : String) {k : String → Parser β} (hw : Parts w)
    (hk : ∀ name, Viable n w Unmarked (k name)) :
    Viable n w (fun ls s => seen ls 0 = .question → Unseen .dot ls s)
      (isTouching isNameSuffix >>= fun more =>
        if more then bump >>= fun suffix => k (word ++ suffix) else k word) := by
  have hkinds : ∀ kind, isNameSuffix kind = true → kind ≠ .garbage ∧ kind ≠ .endOfText := by
    intro kind h
    constructor <;> rintro rfl <;> cases h
  exact touching_viable hw.suffix hkinds (fun _ => (hk _).free)
    ((hk word).weaken fun ls s _ hunmarked hmark => absurd hmark hunmarked)
    fun f ls s hs _ => hs.unseen hw.dot

theorem indexName_viable {k : String → Parser β} (hw : Parts w)
    (hk : ∀ name, Viable n w unrelated (k name)) :
    Viable n (.touching :: w) unrelated (indexName >>= k) := by
  simp only [indexName, bind_assoc, ite_bind, pure_bind]
  have hequals : (seen (shown w) 0 == .equals) = false := by
    rw [beq_eq_false_iff_ne]
    intro h
    have hsuffix := hw.suffix
    rw [h] at hsuffix
    cases hsuffix
  have hend : Viable n w unrelated (isTouching (· == .equals) >>= fun more =>
      if more then bump >>= fun _ => k "[]=" else k "[]") := by
    refine touching_viable hequals (fun kind h => ?_) (fun _ => hk _) (hk _) fun _ _ _ _ => trivial
    rw [beq_iff_eq.1 h]
    exact ⟨nofun, nofun⟩
  constructor
  · exact .asks (asks_isTouching _) (.bump hend.accepts)
  · intro ls hls
    refine .touching (fun hat => ?_) (.unexpected _ trivial)
    exact .opens w (Nat.le_succ_of_le hls) (beq_iff_eq.1 hat) nofun nofun (fun _ => hend)
      fun _ _ _ _ _ _ => trivial

/-- A name that is a word, which may be `self`. -/
theorem word_blames {k : String → Parser β} {f : Face} {rest : List Face}
    (hls : (f :: rest).length ≤ n) (hword : f.1.isWord = true) (hw : Parts w)
    (hk : ∀ name, Viable n w Unmarked (k name)) :
    Blames (f :: rest) (fun s => Unmarked (f :: rest) s ∧ Bare (f :: rest) s) True
      (bump >>= fun word => isTouching isNameSuffix >>= fun more =>
        if more then bump >>= fun suffix => k (word ++ suffix) else k word) := by
  have hmark : f.1 ≠ .question := by
    intro h
    rw [h] at hword
    cases hword
  have hname := wordName_viable f.2.1 hw hk
  refine .bump (readable_of_isWord hword).1 (hname.blames rest (Nat.le_of_succ_le hls))
    (fun _ => ⟨w, ⟨hmark, fun _ => ⟨fun h => absurd h hw.dot, fun h => ?_⟩⟩, hname.accepts⟩)
    fun s halike hdot => ⟨hmark, fun _ => ⟨fun h => halike.seen_eq.symm.trans h, fun h h' => ?_⟩⟩
  · have hsuffix := hw.suffix
    rw [seen_succ] at h
    rw [h] at hsuffix
    cases hsuffix
  · have hquestion : seen rest 0 = .question := halike.seen_eq.symm.trans h
    exact ⟨hquestion, hdot hquestion h'⟩

theorem ne_of_isOperatorName {kind : TokenKind} (h : isOperatorName kind = true) :
    kind ≠ .garbage ∧ kind ≠ .endOfText ∧ kind ≠ .question ∧ kind ≠ .keyword .kwSelf := by
  refine ⟨?_, ?_, ?_, ?_⟩ <;> rintro rfl <;> cases h

theorem methodName_viable {k : String → Parser β} (hw : Parts w)
    (hk : ∀ name, Viable n w Unmarked (k name)) :
    Viable n (.lower :: w) (fun ls s => Unmarked ls s ∧ Bare ls s) (methodName >>= k) := by
  simp only [methodName, bind_assoc, ite_bind, pure_bind]
  constructor
  · exact .asks asks_look (.bump (wordName_viable _ hw hk).accepts)
  · intro ls hls
    have hother : ∀ {f : Face} {rest s : List Face} {kind : TokenKind}, ls = f :: rest →
        seen ls 0 = kind → kind ≠ .question → kind ≠ .keyword .kwSelf →
          Unmarked ls (f :: s) ∧ Bare ls (f :: s) := fun _ hat hmark hself =>
      ⟨fun h => hmark (hat.symm.trans h), fun h => absurd (hat.symm.trans h) hself⟩
    refine .look ?_
    split
    · next hword =>
      obtain ⟨f, rest, rfl⟩ := exists_cons_of_ne (readable_of_isWord hword).2
      exact word_blames hls hword hw hk
    · split
      · next hoperator =>
        obtain ⟨hgarbage, hend, hmark, hself⟩ := ne_of_isOperatorName hoperator
        exact .opens w (Nat.le_succ_of_le hls) rfl hgarbage hend (fun _ => (hk _).free)
          fun f rest s hcons _ _ => hother hcons rfl hmark hself
      · split
        · next hat =>
          exact .opens (.touching :: w) (Nat.le_succ_of_le hls) (beq_iff_eq.1 hat) nofun nofun
            (fun _ => indexName_viable hw fun name => (hk name).free) fun f rest s hcons _ _ =>
              hother hcons (beq_iff_eq.1 hat) nofun nofun
        · exact .unexpected _ trivial

/-! ## Receivers of methods -/

/-- The receiver of a method, which is not taken yet. -/
def kindAhead : Parser MethodKind := do
  if ← isAt (.keyword .kwSelf) then
    let first ← peek 1
    let second ← peek 2
    return if first == .dot then .onSingleton
      else if first == .question && second == .dot then .onBoth
      else .onInstance
  else return .onInstance

/-- Takes the receiver of a method. -/
def takeKind : MethodKind → Parser MethodKind
  | .onInstance => return .onInstance
  | .onSingleton => do
    let _ ← bump
    let _ ← bump
    return .onSingleton
  | .onBoth => do
    let _ ← bump
    let _ ← bump
    let _ ← bump
    return .onBoth

theorem methodKind_eq : methodKind = kindAhead >>= takeKind := by
  simp only [methodKind, kindAhead, bind_assoc, ite_bind, pure_bind]
  congr 1
  funext isSelf
  split
  · congr 1
    funext first
    congr 1
    funext second
    split
    · rfl
    · split <;> rfl
  · rfl

/-- The receiver that is seen. -/
def kindSeen (s : List Face) : MethodKind :=
  if seen s 0 == .keyword .kwSelf then
    if seen s 1 == .dot then .onSingleton
    else if seen s 1 == .question && seen s 2 == .dot then .onBoth
    else .onInstance
  else .onInstance

theorem kindSeen_eq_onSingleton {s : List Face} :
    kindSeen s = .onSingleton ↔ seen s 0 = .keyword .kwSelf ∧ seen s 1 = .dot := by
  by_cases hself : seen s 0 = .keyword .kwSelf <;> by_cases hdot : seen s 1 = .dot <;>
    simp [kindSeen, hself, hdot]
  split <;> exact nofun

theorem kindSeen_eq_onBoth {s : List Face} : kindSeen s = .onBoth ↔
    seen s 0 = .keyword .kwSelf ∧ seen s 1 = .question ∧ seen s 2 = .dot := by
  by_cases hself : seen s 0 = .keyword .kwSelf <;> by_cases hdot : seen s 1 = .dot <;>
    simp [kindSeen, hself, hdot]

theorem asks_kindAhead : Asks kindAhead kindSeen := by
  have hself : ∀ isSelf : Bool, Asks
      (if isSelf then do
        let first ← peek 1
        let second ← peek 2
        return if first == .dot then .onSingleton
          else if first == .question && second == .dot then .onBoth
          else .onInstance
      else return .onInstance)
      fun s => if isSelf then
        if seen s 1 == .dot then .onSingleton
        else if seen s 1 == .question && seen s 2 == .dot then .onBoth
        else MethodKind.onInstance
      else .onInstance := by
    intro isSelf
    cases isSelf with
    | false => exact .pure _
    | true => exact (asks_peek 1).bind fun first => (asks_peek 2).bind fun second => .pure _
  exact (asks_isAt _).bind hself

/-- What keeps `self` bare keeps the receiver. -/
theorem kindSeen_eq_of_bare {ls s : List Face} (halike : Alike ls s) (h : Bare ls s)
    (hkind : kindSeen ls = .onInstance) : kindSeen s = .onInstance := by
  cases hs : kindSeen s with
  | onInstance => rfl
  | onSingleton =>
    obtain ⟨hself, hdot⟩ := kindSeen_eq_onSingleton.1 hs
    rw [halike.seen_eq] at hself
    rw [kindSeen_eq_onSingleton.2 ⟨hself, (h hself).1 hdot⟩] at hkind
    cases hkind
  | onBoth =>
    obtain ⟨hself, hmark, hdot⟩ := kindSeen_eq_onBoth.1 hs
    rw [halike.seen_eq] at hself
    rw [kindSeen_eq_onBoth.2 ⟨hself, (h hself).2 hmark hdot⟩] at hkind
    cases hkind

theorem methodKind_viable {k : MethodKind → Parser β} (hw : seen (shown w) 0 ≠ .keyword .kwSelf)
    (hk : ∀ a, Viable n w Bare (k a)) : Viable n w unrelated (methodKind >>= k) := by
  rw [methodKind_eq, bind_assoc]
  constructor
  · refine .asks asks_kindAhead ?_
    rw [kindSeen, beq_eq_false_iff_ne.2 hw]
    exact (hk _).accepts
  · intro ls hls
    cases hkind : kindSeen ls with
    | onInstance =>
      refine .answered asks_kindAhead hkind (fun s halike (hs : Bare ls s) =>
        ⟨trivial, kindSeen_eq_of_bare halike hs hkind⟩) ?_
      exact (hk _).blames ls hls
    | onSingleton =>
      have hseen := kindSeen_eq_onSingleton.1 hkind
      obtain ⟨f, g, rest, rfl, hf, hg⟩ := exists_cons_cons_of_seen hseen.1 hseen.2 nofun nofun
      refine .answered asks_kindAhead hkind (fun s halike (hs : seen s 1 = .dot) =>
        ⟨trivial, kindSeen_eq_onSingleton.2 ⟨halike.seen_eq.trans hf, hs⟩⟩) ?_
      simp only [takeKind, bind_assoc, pure_bind]
      refine .pass (by rw [hf]; exact nofun) ?_ fun s halike (_ : True) => halike.seen_eq.trans hg
      exact .opens w (Nat.le_of_succ_le (Nat.le_succ_of_le hls)) hg nofun nofun
        (fun _ => (hk _).free) fun _ _ _ _ _ _ => trivial
    | onBoth =>
      have hseen := kindSeen_eq_onBoth.1 hkind
      obtain ⟨f, g, rest, rfl, hf, hg⟩ := exists_cons_cons_of_seen hseen.1 hseen.2.1 nofun nofun
      have hthird : seen rest 0 = .dot := hseen.2.2
      obtain ⟨d, rest, rfl, hd⟩ := exists_cons_of_seen hthird nofun
      refine .answered asks_kindAhead hkind
        (fun s halike (hs : seen s 1 = .question ∧ seen s 2 = .dot) =>
          ⟨trivial, kindSeen_eq_onBoth.2 ⟨halike.seen_eq.trans hf, hs⟩⟩) ?_
      simp only [takeKind, bind_assoc, pure_bind]
      refine .pass (by rw [hf]; exact nofun) ?_ fun s halike (hs : seen s 1 = .dot) =>
        ⟨halike.seen_eq.trans hg, hs⟩
      refine .pass (by rw [hg]; exact nofun) ?_ fun s halike (_ : True) => halike.seen_eq.trans hd
      exact .opens w (Nat.le_of_succ_le (Nat.le_of_succ_le (Nat.le_succ_of_le hls))) hd nofun nofun
        (fun _ => (hk _).free) fun _ _ _ _ _ _ => trivial

section SelfDot

variable {ls : List Face} {goal : List Face → Prop} {possible : Prop} {k : Bool → Parser β}

theorem eatSelfDot_taken {v : List Filler} (hls : ls.length ≤ n)
    (hself : seen ls 0 = .keyword .kwSelf) (hdot : seen ls 1 = .dot) (hgoal : ∀ s, goal s)
    (hk : Viable n v unrelated (k true)) : Blames ls goal possible (eatSelfDot >>= k) := by
  simp only [eatSelfDot, bind_assoc, ite_bind, pure_bind]
  obtain ⟨f, g, rest, rfl, hf, hg⟩ := exists_cons_cons_of_seen hself hdot nofun nofun
  refine .answered (asks_isAtPair _ _) (a := true) (by simp [hf, hg])
    (fun s halike (hs : seen s 1 = .dot) => ⟨hgoal s, by simp [halike.seen_eq, hf, hs]⟩) ?_
  refine .pass (by rw [hf]; exact nofun) ?_ fun s halike (_ : True) => halike.seen_eq.trans hg
  exact .opens v (Nat.le_of_succ_le (Nat.le_succ_of_le hls)) hg nofun nofun (fun _ => hk)
    fun _ _ _ _ _ _ => trivial

theorem eatSelfDot_left {goal' : List Face → Prop}
    (hpair : ¬ (seen ls 0 = .keyword .kwSelf ∧ seen ls 1 = .dot))
    (hgoal : ∀ s, goal' s → goal s ∧ Bare ls s) (hk : Blames ls goal' possible (k false)) :
    Blames ls goal possible (eatSelfDot >>= k) := by
  simp only [eatSelfDot, bind_assoc, ite_bind, pure_bind]
  have hnot : ∀ s, seen s 0 = seen ls 0 → (seen s 1 = .dot → seen ls 0 = .keyword .kwSelf →
      seen ls 1 = .dot) → (seen s 0 == .keyword .kwSelf && seen s 1 == .dot) = false := by
    intro s hfirst hsecond
    rw [← Bool.not_eq_true, Bool.and_eq_true, beq_iff_eq, beq_iff_eq, hfirst]
    exact fun h => hpair ⟨h.1, hsecond h.2 h.1⟩
  refine .answered (asks_isAtPair _ _) (a := false) (hnot ls rfl fun h _ => h)
    (fun s halike hs => ⟨(hgoal s hs).1, hnot s halike.seen_eq fun h hself => ?_⟩) hk
  exact ((hgoal s hs).2 hself).1 h

theorem eatSelfDot_accepts {k : Bool → Parser β} (hw : seen (shown w) 0 ≠ .keyword .kwSelf)
    (hk : Accepts (k false) (shown w)) : Accepts (eatSelfDot >>= k) (shown w) := by
  simp only [eatSelfDot, bind_assoc, ite_bind, pure_bind]
  refine .asks (asks_isAtPair _ _) ?_
  rw [beq_eq_false_iff_ne.2 hw]
  exact hk

theorem eatSelfDot_viable {v : List Filler} (hw : seen (shown w) 0 ≠ .keyword .kwSelf)
    (hyes : Viable n v unrelated (k true)) (hno : Viable n w Bare (k false)) :
    Viable n w unrelated (eatSelfDot >>= k) := by
  refine ⟨eatSelfDot_accepts hw hno.accepts, fun ls hls => ?_⟩
  by_cases hpair : seen ls 0 = .keyword .kwSelf ∧ seen ls 1 = .dot
  · exact eatSelfDot_taken hls hpair.1 hpair.2 (fun _ => trivial) hyes
  · exact eatSelfDot_left hpair (fun _ hs => ⟨trivial, hs⟩) (hno.blames ls hls)

end SelfDot

end Parser

end RubySig
