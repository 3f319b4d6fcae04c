import RubySig.Proofs.Parser.CallableBlames

/-!
# Syntax errors in types

Wherever a type stops, what it took can be completed to a type.

* `Parser.recordType_blames`, `Parser.procType_blames`, `Parser.upperType_blames`: types that begin
  with a lexeme of their own.
* `Parser.simpleType_completable`: types without operators.
* `Parser.optionalType_completable`, `Parser.unionType_completable`: operators.
* `Parser.typed_typeExpr_returnType`: all types, by induction on the levels.
-/

namespace RubySig

namespace Parser

variable {α β : Type} {n : Nat} {w : List Filler}

section Parts

variable {levels : Nat} {type returnType : Parser TypeExpr}

/-! ## Literals, tuples and records -/

/-- A rule that begins with a lexeme of its own. -/
theorem Blames.near {kind : TokenKind} {ls : List Face} {possible : Prop} {k : String → Parser β}
    (v : List Filler) (hls : ls.length ≤ n + 1) (hat : seen ls 0 = kind)
    (hkind : kind ≠ .garbage ∧ kind ≠ .endOfText ∧ kind ≠ .upperIdent)
    (hv : seen (shown v) 0 ≠ .colon) (h : ∀ text, Viable n v unrelated (k text)) :
    Blames ls (Near ls) possible (Parser.bump >>= k) := by
  refine .opens v hls hat hkind.1 hkind.2.1 h fun f rest s hcons hf hs => ?_
  rw [hcons]
  exact hs.near (hf ▸ hkind.2.2) hv

theorem tupleType_blames (htype : Typed levels type) {k : TypeExpr → Parser β} {ls : List Face}
    (hls : ls.length ≤ n + 1) (hat : seen ls 0 = .bracketOpen) (hn : n < levels)
    (hk : ∀ a, Viable n w unrelated (k a)) :
    Blames ls (Near ls) True (tupleType type >>= k) := by
  simp only [tupleType, bind_assoc, pure_bind]
  refine .assertAt hat (.near (.bracketClose :: w) hls hat ⟨nofun, nofun, nofun⟩ nofun fun _ => ?_)
  refine separatedUntil_viable htype.completable htype.shortens divides_comma rfl hn rfl
    fun types => ?_
  exact .expect _ rfl (fun _ => hk _) fun f ls s hf _ => shy_of_ne hf nofun

theorem asks_wordKey (kind : TokenKind) :
    Asks (wordKey? kind) fun s => kind.isWord && seen s 1 == .colon := by
  unfold wordKey?
  cases kind.isWord
  · exact .pure false
  · exact asks_isFollowedBy .colon

/-- A key that is a word, or nothing that could be one. -/
theorem wordKey_blames {p : Parser β} {k : String → Parser β} {ls : List Face}
    (hls : ls.length ≤ n) (hword : (seen ls 0).isWord = true)
    (hk : ∀ name, Viable n w unrelated (k name)) (hp : Blames ls (fun _ => False) True p) :
    Blames ls (unrelated ls) True (wordKey? (seen ls 0) >>= fun more =>
      if more then bump >>= fun name => bump >>= fun _ => k name else p) := by
  by_cases hcolon : seen ls 1 = .colon
  · refine .answered (asks_wordKey _) (a := true) (by simp [hword, hcolon])
      (fun s _ (hs : seen s 1 = .colon) => ⟨trivial, by simp [hword, hs]⟩) ?_
    obtain ⟨f, c, rest, rfl, -, hc⟩ :=
      exists_cons_cons_of_seen rfl hcolon (readable_of_isWord hword).2 nofun
    refine .pass (readable_of_isWord hword).1 ?_ fun s halike (_ : True) => halike.seen_eq.trans hc
    exact .opens w (Nat.le_of_succ_le (Nat.le_succ_of_le hls)) hc nofun nofun (fun _ => hk _)
      fun _ _ _ _ _ _ => trivial
  · refine .answered (asks_wordKey _) (a := false) ?_ (fun s _ (hs : False) => hs.elim) hp
    rw [beq_eq_false_iff_ne.2 hcolon, Bool.and_false]

theorem recordKey_viable {k : RecordKey → Parser β} (hk : ∀ a, Viable n w unrelated (k a)) :
    Viable n (.lower :: .colon :: w) unrelated (recordKey >>= k) := by
  simp only [recordKey, bind_assoc, ite_bind, pure_bind]
  constructor
  · refine .asks asks_look (.asks (asks_isFollowedBy .colon) ?_)
    exact .bump (.bump (hk _).accepts)
  · intro ls hls
    have hmark : ∀ {kind : TokenKind} (key : String → RecordKey), seen ls 0 = kind →
        kind ≠ .garbage → kind ≠ .endOfText → Blames ls (unrelated ls) True
          (bump >>= fun text => expect .fatArrow "`=>`" >>= fun _ => k (key text)) :=
      fun key hat hkind hend => .opens (.fatArrow :: w) (Nat.le_succ_of_le hls) hat hkind hend
        (fun _ => .expect _ rfl (fun _ => hk _) fun _ _ _ _ _ => trivial) fun _ _ _ _ _ _ => trivial
    refine .look ?_
    by_cases hword : (seen ls 0).isWord = true
    · refine wordKey_blames hls hword (fun _ => hk _) ?_
      rw [if_neg, if_neg]
      · exact .unexpected _ trivial
      · intro h
        rw [beq_iff_eq.1 h] at hword
        cases hword
      · intro h
        rw [beq_iff_eq.1 h] at hword
        cases hword
    · rw [Bool.not_eq_true] at hword
      refine .answered (asks_wordKey _) (a := false) (by simp [hword])
        (fun s _ (_ : True) => ⟨trivial, by simp [hword]⟩) ?_
      rw [if_neg nofun]
      split
      · next hat => exact hmark _ (beq_iff_eq.1 hat) nofun nofun
      · split
        · next hat => exact hmark _ (beq_iff_eq.1 hat) nofun nofun
        · exact .unexpected _ trivial

theorem recordField_completable (htype : Typed levels type) :
    Completable levels Closed [.lower, .colon, .void] Shy unrelated (recordField type) := by
  intro β n w k hn hw hk
  simp only [recordField, bind_assoc, pure_bind]
  exact recordKey_viable fun key => (htype.completable hn hw fun t => hk _).free

theorem recordType_blames (htype : Typed levels type) {k : TypeExpr → Parser β} {ls : List Face}
    (hls : ls.length ≤ n + 1) (hat : seen ls 0 = .braceOpen) (hn : n < levels)
    (hk : ∀ a, Viable n w unrelated (k a)) :
    Blames ls (Near ls) True (recordType type >>= k) := by
  simp only [recordType, bind_assoc, pure_bind]
  refine .assertAt hat (.near (.braceClose :: w) hls hat ⟨nofun, nofun, nofun⟩ nofun fun _ => ?_)
  have hshort : Shortens 0 (recordField type) := by
    obtain ⟨m, hopens⟩ := htype.opens
    exact (cut_recordField (i := 0) (k := 1) hopens (by decide)).shortens (m := 0)
  refine separatedUntil_viable (recordField_completable htype) hshort divides_comma rfl hn rfl
    fun fields => ?_
  exact .expect _ rfl (fun _ => hk _) fun f ls s hf _ => shy_of_ne hf nofun

theorem procType_blames (htype : Typed levels type) (hreturn : Typed levels returnType)
    {k : TypeExpr → Parser β} {ls : List Face} (hls : ls.length ≤ n + 1)
    (hat : seen ls 0 = .caret) (hn : n < levels) (hw : Closed w) (hk : ∀ a, Viable n w Shy (k a)) :
    Blames ls (Near ls) True (procType type returnType >>= k) := by
  simp only [procType, bind_assoc, pure_bind]
  refine .assertAt hat ?_
  refine .near (.arrow :: .void :: w) hls hat ⟨nofun, nofun, nofun⟩ nofun fun _ => ?_
  exact callable_completable htype hreturn hn hw fun a => hk _

theorem singletonType_blames {k : TypeExpr → Parser β} {ls : List Face} (hls : ls.length ≤ n + 1)
    (hat : seen ls 0 = .keyword .kwSingleton) (hk : ∀ a, Viable n w unrelated (k a)) :
    Blames ls (Near ls) True (singletonType >>= k) := by
  simp only [singletonType, bind_assoc, pure_bind]
  refine .idles idles_startOffset fun start => .assertAt hat ?_
  refine .near (.parenOpen :: .upper :: .parenClose :: w) hls hat ⟨nofun, nofun, nofun⟩ nofun
    fun _ => ?_
  refine .expect _ rfl (fun _ => ?_) fun _ _ _ _ _ => trivial
  refine (typeName_viable _ (fun _ => acceptsAny_of_beq rfl) rfl (by exact nofun) fun a => ?_).free
  exact .expect _ rfl (fun _ => .idles (idles_spanFrom start) fun span => hk _)
    fun _ _ _ _ _ => trivial

/-- An integer literal that is out of range is blamed itself. -/
theorem integerType_blames {k : TypeExpr → Parser β} {ls : List Face} (hls : ls.length ≤ n + 1)
    (hat : seen ls 0 = .integerLit) (hw : Closed w) (hk : ∀ a, Viable n w unrelated (k a)) :
    Blames ls (Near ls) True (integerType >>= k) := by
  obtain ⟨f, rest, rfl, hf⟩ := exists_cons_of_seen hat nofun
  by_cases hfits : fitsInt64 (integerValue f.2.1.toList) = true
  · simp only [integerType, bind_assoc, ite_bind, pure_bind]
    refine .idles idles_currentRange fun range => .take w (by rw [hf]; exact nofun) ?_ fun s hs =>
      hs.near (by rw [hf]; exact nofun) (hw.ne rfl)
    rw [if_pos hfits]
    exact (hk _).mono (Nat.le_of_succ_le_succ hls)
  · refine .stops trivial fun c hfuel hrest => ?_
    obtain ⟨l, ls, hc, rfl, rfl⟩ := List.map_eq_cons_iff.1 hrest
    have hrange : currentRange c = .ok (rangeAt c) c := rfl
    have hrun : integerType c =
        .error (.syntaxError "integer literal out of range" (rangeAt c)) (behind c l ls) := by
      rw [integerType, bind_of_ok hrange, bind_of_ok (bump_of_free hfuel hc)]
      exact congrFun (if_neg hfits) _
    exact ⟨_, _, bind_of_error hrun⟩

theorem asks_isAtTypeVar (vars : List String) : Asks (isAtTypeVar vars) fun s =>
    if seen s 1 == .doubleColon then false
    else vars.contains ((s.head?.map (·.2.1)).getD "") := by
  have hanswer : ∀ (text : String) (more : Bool),
      Asks (if more then return false else return vars.contains text)
        fun _ => if more then false else vars.contains text := by
    intro text more
    cases more
    · exact .pure _
    · exact .pure _
  exact asks_currentText.bind fun text => (asks_isFollowedBy _).bind (hanswer text)

theorem anyNamed_blames (htype : Typed levels type) {k : TypeExpr → Parser β} {ls : List Face}
    (hls : ls.length ≤ n) (hn : n < levels + 1) (hw : Closed w)
    (hk : ∀ a, Viable n w unrelated (k a)) : Blames ls (Near ls) True (anyNamed type >>= k) := by
  simp only [anyNamed, bind_assoc, pure_bind]
  have hnamed : Viable n (.upper :: w) Near (namedWith type "a type" acceptsAny >>= fun named =>
      k (.named named)) := namedWith_viable htype _ (fun _ => id) rfl hn hw fun a => hk _
  exact hnamed.blames ls hls

/-- A capitalized name is a type parameter or the name of an entity. -/
theorem upperType_blames (vars : List String) (htype : Typed levels type) {k : TypeExpr → Parser β}
    {ls : List Face} (hls : ls.length ≤ n) (hat : seen ls 0 = .upperIdent) (hn : n < levels + 1)
    (hw : Closed w) (hk : ∀ a, Viable n w unrelated (k a)) :
    Blames ls (Near ls) True (isAtTypeVar vars >>= fun isVar =>
      if isVar then bump >>= fun name => k (.var name) else anyNamed type >>= k) := by
  obtain ⟨f, rest, rfl, hf⟩ := exists_cons_of_seen hat nofun
  have hnamed : Blames (f :: rest) (Near (f :: rest)) True (anyNamed type >>= k) :=
    anyNamed_blames htype hls hn hw hk
  by_cases hqualified : seen rest 0 = .doubleColon
  · refine .answered (asks_isAtTypeVar vars) (a := false) (if_pos (beq_iff_eq.2 hqualified))
      (fun s _ (hs : Near (f :: rest) s) => ⟨hs, ?_⟩) hnamed
    exact if_pos (beq_iff_eq.2 (hs.2 hf hqualified))
  · by_cases hvar : vars.contains f.2.1 = true
    · refine .answered (asks_isAtTypeVar vars) (a := true) ?_
        (fun s halike (hs : Near (f :: rest) s ∧ seen s 1 ≠ .doubleColon) => ⟨hs.1, ?_⟩) ?_
      · rw [seen_succ, beq_eq_false_iff_ne.2 hqualified]
        exact hvar
      · obtain ⟨g, ls', s', hls', rfl⟩ := halike
        obtain ⟨rfl, rfl⟩ := List.cons.inj hls'
        rw [beq_eq_false_iff_ne.2 hs.2]
        exact hvar
      · have hgarbage : f.1 ≠ .garbage := by rw [hf]; exact nofun
        refine .take w hgarbage ((hk _).mono (Nat.le_of_succ_le hls)) fun s hs => ?_
        have hsecond : seen s 0 ≠ .doubleColon := fun h =>
          hqualified (hs.unseen (f := f) (hw.ne rfl) h)
        exact ⟨⟨hs.unseen (hw.ne rfl), fun _ h => absurd h hqualified⟩, hsecond⟩
    · refine .answered (asks_isAtTypeVar vars) (a := false) ?_
        (fun s halike (hs : Near (f :: rest) s) => ⟨hs, ?_⟩) hnamed
      · rw [Bool.not_eq_true] at hvar
        rw [seen_succ, beq_eq_false_iff_ne.2 hqualified]
        exact hvar
      · rw [Bool.not_eq_true] at hvar
        obtain ⟨g, ls', s', hls', rfl⟩ := halike
        obtain ⟨rfl, rfl⟩ := List.cons.inj hls'
        split
        · rfl
        · exact hvar

/-- The types that begin with a lexeme of their own, which is there. -/
theorem simpleType_blames (vars : List String) (htype : Typed levels type)
    (hreturn : Typed levels returnType) {k : TypeExpr → Parser β} {ls : List Face}
    (hls : ls.length ≤ n + 1) (hn : n < levels) (hw : Closed w)
    (hk : ∀ a, Viable (n + 1) w Shy (k a)) :
    Blames ls (Near ls) True (simpleType vars type returnType >>= k) := by
  have hbehind : ∀ a, Viable n w Shy (k a) := fun a => (hk a).mono (Nat.le_succ n)
  have hfree : ∀ a, Viable n w unrelated (k a) := fun a => (hbehind a).free
  have hname : ∀ a, Viable (n + 1) w unrelated (k a) := fun a => (hk a).free
  have hone : ∀ {kind : TokenKind} (build : String → TypeExpr), seen ls 0 = kind →
      kind ≠ .garbage ∧ kind ≠ .endOfText ∧ kind ≠ .upperIdent →
        Blames ls (Near ls) True ((bump >>= fun text => return build text) >>= k) := by
    intro kind build hat hkind
    simp only [bind_assoc, pure_bind]
    exact .near w hls hat hkind (hw.ne rfl) fun _ => hfree _
  simp only [simpleType, bind_assoc]
  refine .look ?_
  split
  · next special hspecial =>
    refine hone (fun _ => .special special) rfl ⟨?_, ?_, ?_⟩ <;> intro h <;> rw [h] at hspecial <;>
      cases hspecial
  · split
    · next hat =>
      simp only [bind_assoc, pure_bind]
      refine .near (.void :: .parenClose :: w) hls hat ⟨nofun, nofun, nofun⟩ nofun fun _ => ?_
      refine (htype.completable hn (by rfl) fun inner => ?_).free
      exact .expect _ rfl (fun _ => hfree _) fun f ls s hf _ => shy_of_ne hf nofun
    · next hat => exact tupleType_blames htype hls hat hn hfree
    · next hat => exact recordType_blames htype hls hat hn hfree
    · next hat => exact procType_blames htype hreturn hls hat hn hw hbehind
    · next hat => exact hone (fun text => .literal (.string text)) hat ⟨nofun, nofun, nofun⟩
    · next hat =>
      exact hone (fun text => .literal (.symbol (symbolName text))) hat ⟨nofun, nofun, nofun⟩
    · next hat => exact integerType_blames hls hat hw hfree
    · next hat => exact hone (fun _ => .literal (.bool true)) hat ⟨nofun, nofun, nofun⟩
    · next hat => exact hone (fun _ => .literal (.bool false)) hat ⟨nofun, nofun, nofun⟩
    · next hat => exact singletonType_blames hls hat hfree
    · next hat =>
      simp only [bind_assoc, ite_bind, pure_bind]
      exact upperType_blames vars htype hls hat (Nat.succ_lt_succ hn) hw hname
    · exact anyNamed_blames htype hls (Nat.succ_lt_succ hn) hw hname
    · exact anyNamed_blames htype hls (Nat.succ_lt_succ hn) hw hname
    · exact anyNamed_blames htype hls (Nat.succ_lt_succ hn) hw hname
    · exact .unexpected _ trivial

/-- A rule for types that is left in front of the closing of what is around it. -/
def Simple (levels : Nat) (simple : Parser TypeExpr) : Prop :=
  Completable levels Closed [.void] Shy Near simple

/-- What is inside of a type stands behind a lexeme of it, so a level more is left for it. -/
theorem simpleType_completable (vars : List String) (htype : Typed levels type)
    (hreturn : Typed levels returnType) :
    Simple (levels + 1) (simpleType vars type returnType) := by
  intro β n w k hn hw hk
  constructor
  · simp only [simpleType, bind_assoc]
    refine .asks asks_look ?_
    show Accepts ((bump >>= fun _ => return .special .void) >>= k) _
    rw [bind_assoc]
    exact .bump (hk _).accepts
  · intro ls hls
    cases n with
    | zero =>
      obtain rfl := List.eq_nil_of_length_eq_zero (Nat.le_zero.1 hls)
      simp only [simpleType, bind_assoc]
      exact .look (.unexpected _ trivial)
    | succ n => exact simpleType_blames vars htype hreturn hls (Nat.lt_of_succ_lt_succ hn) hw hk

/-! ## Operators -/

theorem asks_isAtOptionalMark : Asks isAtOptionalMark fun s =>
    seen s 0 == .question && !(seen s 1 == .braceOpen) := by
  have hblock : Asks (do return !(← isFollowedBy .braceOpen)) fun s => !(seen s 1 == .braceOpen) :=
    (asks_isFollowedBy _).bind fun more => .pure (!more)
  exact (asks_isAt _).and hblock

theorem optionalMarks_viable (t : TypeExpr) {k : TypeExpr → Parser β} (hw : Closed w)
    (hk : ∀ a, Viable n w Shy (k a)) : Viable n w Shy (optionalMarks t >>= k) := by
  induction n using Nat.strong_induction_on generalizing t with
  | _ n ih =>
    rw [optionalMarks_eq]
    simp only [optionalMarksRound, bind_assoc, ite_bind, pure_bind]
    constructor
    · refine .asks asks_isAtOptionalMark ?_
      rw [beq_eq_false_iff_ne.2 (hw.ne rfl)]
      exact (hk t).accepts
    · intro ls hls
      by_cases hmark : seen ls 0 = .question ∧ seen ls 1 ≠ .braceOpen
      · obtain ⟨f, rest, rfl, hf⟩ := exists_cons_of_seen hmark.1 nofun
        refine .answered asks_isAtOptionalMark (a := true) ?_
          (fun s halike (hs : seen s 1 ≠ .braceOpen) => ⟨fun _ => hmark.2, ?_⟩) ?_
        · rw [hmark.1, beq_eq_false_iff_ne.2 hmark.2]
          rfl
        · rw [halike.seen_eq, hmark.1, beq_eq_false_iff_ne.2 hs]
          rfl
        refine .take w (by rw [hf]; exact nofun) ?_ fun s hs h => hmark.2 (hs.unseen (hw.ne rfl) h)
        exact (ih _ hls _ fun a => (hk a).mono (Nat.le_of_succ_le hls)).free
      · have hnot : ∀ s, seen s 0 = seen ls 0 →
            (seen ls 0 = .question → seen s 1 = .braceOpen) →
              (seen s 0 == .question && !(seen s 1 == .braceOpen)) = false := by
          intro s hfirst hnext
          rw [← Bool.not_eq_true]
          intro h
          simp only [Bool.and_eq_true, beq_iff_eq, Bool.not_eq_true', beq_eq_false_iff_ne] at h
          exact h.2 (hnext (hfirst.symm.trans h.1))
        refine .answered asks_isAtOptionalMark (a := false) ?_
          (fun s halike (hs : Shy ls s) => ⟨hs, hnot s halike.seen_eq fun h => ?_⟩)
          ((hk t).blames ls hls)
        · exact hnot ls rfl fun h => Classical.not_not.1 fun hne => hmark ⟨h, hne⟩
        · exact absurd (Classical.not_not.1 fun hne => hmark ⟨h, hne⟩) (hs h)

theorem optionalType_completable {simple : Parser TypeExpr} (hsimple : Simple levels simple) :
    Simple levels (optionalType simple) := by
  intro β n w k hn hw hk
  have hsteps : optionalType simple = simple >>= optionalMarks := rfl
  rw [hsteps, bind_assoc]
  exact hsimple hn hw fun t => optionalMarks_viable t hw hk

theorem operands_completable {mark : TokenKind} (hmark : Divides mark)
    (build : List TypeExpr → TypeExpr) {operand : Parser TypeExpr}
    (hoperand : Simple levels operand) (hshort : Shortens 0 operand) :
    Simple levels (operands mark build operand) := by
  intro β n w k hn hw hk
  simp only [operands, bind_assoc, ite_bind, pure_bind]
  refine hoperand hn hw fun first => ?_
  have hmore : Viable n w Shy (repeatedAfter mark operand >>= fun more =>
      k (build (first :: more))) :=
    repeatedAfter_viable hoperand hshort hmark hn hw fun more => hk _
  constructor
  · refine .asks (asks_isAt mark) ?_
    rw [beq_eq_false_iff_ne.2 (hw.ne hmark.1)]
    exact (hk first).accepts
  · exact fun ls hls => .isAt mark (fun _ => hmore.blames ls hls) fun _ => (hk first).blames ls hls

theorem unionType_completable {m : Nat} {simple : Parser TypeExpr} (hsimple : Simple levels simple)
    (hcut : Cut m ⟨0, 1⟩ (fun _ => ⟨1, 1⟩) simple simple) : Simple levels (unionType simple) := by
  have hoptional : Cut m ⟨0, 1⟩ (fun _ => ⟨3, 1⟩) (optionalType simple) (optionalType simple) :=
    cut_optionalType hcut
  refine operands_completable divides_pipe _ (operands_completable divides_amp _
    (optionalType_completable hsimple) hoptional.shortens) ?_
  have hintersection : Cut m ⟨0, 1⟩ (fun _ => ⟨5, 1⟩)
      (operands .amp .intersection (optionalType simple))
      (operands .amp .intersection (optionalType simple)) :=
    cut_operands hoptional hoptional (by decide)
  exact hintersection.shortens

end Parts

/-! ## Types -/

/-- By induction on the levels.  Without a level left there is nothing to show. -/
theorem typed_typeExpr_returnType (vars : List String) (levels : Nat) :
    Typed levels (typeExpr vars levels) ∧ Typed levels (returnType vars levels) := by
  induction levels with
  | zero =>
    have hnone : ∀ type : Parser TypeExpr, Simple 0 type := fun _ _ _ _ _ hn => absurd hn nofun
    exact ⟨⟨hnone _, 0, fun _ => .throw _⟩, hnone _, 0, fun _ => .throw _⟩
  | succ levels ih =>
    have hinner := opens_typeExpr_returnType vars (le_refl levels)
    have hopens := opens_typeExpr_returnType vars (le_refl (levels + 1))
    have hsimple := simpleType_completable vars ih.1 ih.2
    have hcut := cut_simpleType (i := 0) (k := 1) vars hinner.1 hinner.2 (by decide)
    exact ⟨⟨(unionType_completable hsimple hcut).nested, _, hopens.1⟩,
      (optionalType_completable hsimple).nested, _, hopens.2⟩

theorem typed_typeExpr (vars : List String) (levels : Nat) :
    Typed levels (typeExpr vars levels) :=
  (typed_typeExpr_returnType vars levels).1

theorem typeExpr_bind (vars : List String) (levels : Nat) (f : TypeExpr → Parser α)
    (k : α → Parser β) :
    ((typeExpr vars levels : Parser TypeExpr) >>= f) >>= k =
      (typeExpr vars levels : Parser TypeExpr) >>= fun t => f t >>= k :=
  bind_assoc _ _ _

end Parser

end RubySig
