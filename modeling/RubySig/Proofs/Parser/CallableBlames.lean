import RubySig.Proofs.Parser.NameBlames

/-!
# Syntax errors in parameters

Wherever the parameters of a method, a block or a function type stop, what was taken can be
completed to parameters with a return type.  The rules for the types in them are parameters here.

* `Parser.Typed`: a rule for types.
* `Parser.namedWith_viable`: names with arguments.
* `Parser.param_completable`, `Parser.params_viable`: parameters.
* `Parser.block_viable`: blocks.
* `Parser.callable_completable`: parameters, a block and a return type.
-/

namespace RubySig

namespace Parser

variable {α β : Type} {n : Nat} {w : List Filler}

/-! ## Names with arguments -/

section Parts

variable {levels : Nat} {type returnType : Parser TypeExpr}

/-- A rule for types, which opens a level. -/
structure Typed (levels : Nat) (type : Parser TypeExpr) : Prop where
  completable : Completable levels Closed [.void] Shy Near type
  opens : ∃ m, Opens m type type

theorem Typed.shortens (h : Typed levels type) : Shortens 0 type := by
  obtain ⟨m, hopens⟩ := h.opens
  exact (hopens 0).shortens

theorem namedWith_viable (htype : Typed levels type) (what : String) {accept : TokenKind → Bool}
    {f : Filler} {k : NamedType → Parser β}
    (haccept : ∀ kind, accept kind = true → acceptsAny kind = true) (hf : accept f.kind = true)
    (hn : n < levels + 1) (hw : Closed w) (hk : ∀ a, Viable n w unrelated (k a)) :
    Viable n (f :: w) Near (namedWith type what accept >>= k) := by
  simp only [namedWith, bind_assoc, ite_bind, pure_bind]
  refine .idles idles_startOffset fun start => ?_
  refine (typeName_viable what haccept hf (hw.ne rfl) fun a => ?_).weaken fun _ _ _ h => h.near hw
  refine .eat (.void :: .bracketClose :: w) nofun nofun (fun m hm => ?_) ?_ (hw.ne rfl)
    fun _ _ _ _ _ => trivial
  · refine (separated_completable htype.completable htype.shortens divides_comma
      (hm.trans_le (Nat.le_of_lt_succ hn)) (by rfl) fun args => ?_).free
    exact .expect _ rfl (fun _ => .idles (idles_spanFrom start) fun span => (hk _).mono hm.le)
      fun f ls s hf _ => shy_of_ne hf nofun
  · exact .idles (idles_spanFrom start) fun span => hk _

/-! ## Parameters and blocks -/

theorem paramOf_completable (slot : Slot) (htype : Typed levels type) :
    Completable levels Closed [.void] Shy Near (paramOf slot type) := by
  intro β n w k hn hw hk
  simp only [paramOf, bind_assoc, ite_bind, pure_bind]
  refine htype.completable hn hw fun t => ?_
  exact .takeIf w nofun nofun (fun m hm name => ((hk _).mono hm.le).free) (hk _) (hw.ne rfl)
    fun f ls s hf _ => shy_of_ne hf nofun

theorem asks_isOptionalKeyword :
    Asks isOptionalKeyword fun s => (seen s 1).isWord && seen s 2 == .colon := by
  have hword : Asks (do return (← peek 1).isWord) fun s => (seen s 1).isWord :=
    (asks_peek 1).bind fun kind => .pure kind.isWord
  have hcolon : Asks (do return (← peek 2) == .colon) fun s => seen s 2 == .colon :=
    (asks_peek 2).bind fun kind => .pure (kind == .colon)
  have hboth := hword.and hcolon
  simp only [bind_assoc, pure_bind] at hboth
  exact hboth

theorem readable_of_isWord {kind : TokenKind} (h : kind.isWord = true) :
    kind ≠ .garbage ∧ kind ≠ .endOfText := by
  constructor <;> rintro rfl <;> cases h

/-- A keyword parameter, from its name on. -/
theorem keywordName_blames {k : String → Parser β} {f : Face} {ls : List Face}
    {goal : List Face → Prop} {possible : Prop} {v : List Filler} (hname : f.1.isWord = true)
    (hk : ∀ name, Viable ls.length v unrelated (k name))
    (hgoal : ∀ s, Ahead (.colon :: v) ls s → goal (f :: s)) :
    Blames (f :: ls) goal possible (keywordName >>= k) := by
  simp only [keywordName, bind_assoc, pure_bind]
  refine .take (.colon :: v) (readable_of_isWord hname).1 ?_ hgoal
  exact .expect _ rfl (fun _ => hk _) fun _ _ _ _ _ => trivial

/-- A parameter behind `?`. -/
theorem optionalParam_blames (htype : Typed levels type) {k : Param → Parser β} {ls : List Face}
    (hls : ls.length ≤ n) (hmark : seen ls 0 = .question) (hn : n < levels) (hw : Closed w)
    (hk : ∀ a, Viable n w Shy (k a)) :
    Blames ls (fun _ => True) True (isOptionalKeyword >>= fun more =>
      if more then bump >>= fun _ => keywordName >>= fun key =>
        paramOf (.optionalKeyword key) type >>= k
      else bump >>= fun _ => paramOf .optional type >>= k) := by
  have hparam : ∀ slot, ∀ m ≤ n, Viable m (.void :: w) Near (paramOf slot type >>= k) :=
    fun slot m hm => paramOf_completable slot htype (hm.trans_lt hn) hw fun a => (hk a).mono hm
  obtain ⟨f, rest, rfl, hf⟩ := exists_cons_of_seen hmark nofun
  have hgarbage : f.1 ≠ .garbage := by rw [hf]; exact nofun
  have hrest : rest.length ≤ n := Nat.le_of_succ_le hls
  by_cases hkeyword : (seen rest 0).isWord = true ∧ seen rest 1 = .colon
  · obtain ⟨name, colon, more, rfl, -, hcolon⟩ :=
      exists_cons_cons_of_seen rfl hkeyword.2 (readable_of_isWord hkeyword.1).2 nofun
    have hname : name.1.isWord = true := hkeyword.1
    refine .answered asks_isOptionalKeyword (a := true) (by simp [hname, hcolon])
      (fun s _ (hs : (seen s 1).isWord = true ∧ seen s 2 = .colon) => ⟨trivial, by simp [hs]⟩) ?_
    refine .pass hgarbage ?_ fun s _ (hs : (seen s 0).isWord = true ∧ seen s 1 = .colon) => hs
    refine keywordName_blames (v := .void :: w) hkeyword.1 (fun key => ?_) fun s hs => ?_
    · exact (hparam _ _ (Nat.le_of_succ_le hrest)).free
    · refine ⟨hkeyword.1, ?_⟩
      rcases hs with rfl | halike
      · rfl
      · exact halike.seen_eq.trans hcolon
  · refine .answered asks_isOptionalKeyword (a := false) ?_
      (fun s _ (hs : ¬ ((seen s 1).isWord = true ∧ seen s 2 = .colon)) => ⟨trivial, ?_⟩) ?_
    · simpa using hkeyword
    · simpa using hs
    refine .bump hgarbage ((hparam _ n (le_refl n)).blames rest hrest)
      (fun _ => ⟨.void :: w, fun hs => (hw.ne rfl : seen (shown w) 0 ≠ .colon) hs.2,
        (hparam _ n (le_refl n)).accepts⟩)
      fun s halike hnear hs => hkeyword ⟨?_, hnear.1 hs.2⟩
    rw [← halike.seen_eq]
    exact hs.1

/-- A parameter without a mark. -/
theorem requiredParam_blames (htype : Typed levels type) {k : Param → Parser β} {ls : List Face}
    (hls : ls.length ≤ n) (hname : (seen ls 0).isWord = true) (hn : n < levels) (hw : Closed w)
    (hk : ∀ a, Viable n w Shy (k a)) :
    Blames ls (fun _ => True) True (isFollowedBy .colon >>= fun more =>
      if more then keywordName >>= fun key => paramOf (.requiredKeyword key) type >>= k
      else paramOf .required type >>= k) := by
  have hparam : ∀ slot, ∀ m ≤ n, Viable m (.void :: w) Near (paramOf slot type >>= k) :=
    fun slot m hm => paramOf_completable slot htype (hm.trans_lt hn) hw fun a => (hk a).mono hm
  by_cases hcolon : seen ls 1 = .colon
  · obtain ⟨name, colon, more, rfl, -, hc⟩ :=
      exists_cons_cons_of_seen rfl hcolon (readable_of_isWord hname).2 nofun
    refine .answered (asks_isFollowedBy _) (a := true) (beq_iff_eq.2 hcolon)
      (fun s _ (hs : seen s 1 = .colon) => ⟨trivial, beq_iff_eq.2 hs⟩) ?_
    refine keywordName_blames (v := .void :: w) hname (fun key => ?_) fun s hs => ?_
    · exact (hparam _ _ (Nat.le_of_succ_le hls)).free
    · rcases hs with rfl | halike
      · rfl
      · exact halike.seen_eq.trans hc
  · refine .answered (asks_isFollowedBy _) (a := false) (beq_eq_false_iff_ne.2 hcolon)
      (fun s _ (hs : Near ls s) => ⟨trivial, beq_eq_false_iff_ne.2 fun h => hcolon (hs.1 h)⟩) ?_
    exact (hparam _ n (le_refl n)).blames ls hls

theorem param_completable (htype : Typed levels type) :
    Completable levels Closed [.void] Shy unrelated (param type) := by
  intro β n w k hn hw hk
  have hparam : ∀ slot, ∀ m ≤ n, Viable m (.void :: w) Near (paramOf slot type >>= k) :=
    fun slot m hm => paramOf_completable slot htype (hm.trans_lt hn) hw fun a => (hk a).mono hm
  have hmarked : ∀ {ls : List Face} {kind : TokenKind} (slot : Slot), ls.length ≤ n →
      seen ls 0 = kind → kind ≠ .garbage → kind ≠ .endOfText →
        Blames ls (fun _ => True) True (bump >>= fun _ => paramOf slot type >>= k) := by
    intro ls kind slot hls hkind hgarbage hend
    obtain ⟨f, rest, rfl, hf⟩ := exists_cons_of_seen hkind hend
    exact .take (.void :: w) (hf ▸ hgarbage) (hparam slot _ (Nat.le_of_succ_le hls)).free
      fun _ _ => trivial
  simp only [param, bind_assoc]
  constructor
  · refine .asks asks_look ?_
    show Accepts ((isFollowedBy .colon >>= fun found => _) >>= k) _
    simp only [bind_assoc, ite_bind]
    refine .asks (asks_isFollowedBy _) ?_
    have hsecond : (seen (shown ([Filler.void] ++ w)) 1 == .colon) = false :=
      beq_eq_false_iff_ne.2 (hw.ne rfl)
    rw [hsecond, if_neg nofun]
    exact (hparam _ n (le_refl n)).accepts
  · intro ls hls
    refine .look ?_
    split
    · next hmark =>
      simp only [bind_assoc, ite_bind]
      exact optionalParam_blames htype hls hmark hn hw hk
    · next hmark =>
      simp only [bind_assoc]
      exact hmarked _ hls hmark nofun nofun
    · next hmark =>
      simp only [bind_assoc]
      exact hmarked _ hls hmark nofun nofun
    · simp only [bind_assoc, ite_bind]
      split
      · exact requiredParam_blames htype hls ‹_› hn hw hk
      · exact ((hparam _ n (le_refl n)).blames ls hls).mono fun _ _ _ => trivial

theorem shortens_param (htype : Typed levels type) : Shortens 0 (param type) := by
  obtain ⟨m, hopens⟩ := htype.opens
  exact (cut_param (i := 0) hopens (by decide)).shortens

theorem params_viable (htype : Typed levels type) {k : List Param → Parser β} (hn : n < levels)
    (hw : seen (shown w) 0 ≠ .parenOpen) (hk : ∀ a, Viable n w unrelated (k a)) :
    Viable n w unrelated (params type >>= k) := by
  simp only [params, bind_assoc, ite_bind, pure_bind]
  refine .eat (.parenClose :: w) nofun nofun (fun m hm => ?_) (hk []) hw fun _ _ _ _ _ => trivial
  refine separatedUntil_viable (param_completable htype) (shortens_param htype) divides_comma rfl
    (hm.trans hn) rfl fun written => ?_
  exact .expect _ rfl (fun _ => (hk _).mono hm.le) fun f ls s hf _ => shy_of_ne hf nofun

theorem blockBody_viable (required : Bool) (htype : Typed levels type)
    {k : Option Block → Parser β} (hn : n < levels) (hk : ∀ a, Viable n w unrelated (k a)) :
    Viable n (.arrow :: .void :: .braceClose :: w) unrelated (blockBody required type >>= k) := by
  simp only [blockBody, bind_assoc, pure_bind]
  refine params_viable htype hn nofun fun ps => ?_
  refine .expect _ rfl (fun _ => ?_) fun _ _ _ _ _ => trivial
  refine (htype.completable hn (by rfl) fun t => ?_).free
  exact .expect _ rfl (fun _ => hk _) fun f ls s hf _ => shy_of_ne hf nofun

theorem block_viable (htype : Typed levels type) {k : Option Block → Parser β} (hn : n < levels)
    (hopen : seen (shown w) 0 ≠ .braceOpen) (hmark : seen (shown w) 0 ≠ .question)
    (hk : ∀ a, Viable n w (fun ls _ => seen ls 0 ≠ .question) (k a)) :
    Viable n w unrelated (block type >>= k) := by
  simp only [block, bind_assoc]
  constructor
  · refine .asks asks_look ?_
    split
    · exact absurd ‹_› hopen
    · exact absurd ‹_› hmark
    · rw [pure_bind]
      exact (hk none).accepts
  · intro ls hls
    refine .look ?_
    split
    · next hat =>
      simp only [bind_assoc]
      exact .opens (.arrow :: .void :: .braceClose :: w) (Nat.le_succ_of_le hls) hat nofun nofun
        (fun _ => blockBody_viable true htype hn fun a => (hk a).free) fun _ _ _ _ _ _ => trivial
    · next hat =>
      simp only [bind_assoc, ite_bind, pure_bind]
      by_cases hbrace : seen ls 1 = .braceOpen
      · refine .answered (asks_isFollowedBy _) (a := true) (beq_iff_eq.2 hbrace)
          (fun s _ (hs : seen s 1 = .braceOpen) => ⟨trivial, beq_iff_eq.2 hs⟩) ?_
        obtain ⟨f, brace, rest, rfl, hf, hb⟩ := exists_cons_cons_of_seen hat hbrace nofun nofun
        refine .pass (by rw [hf]; exact nofun) ?_ fun s halike (_ : True) => halike.seen_eq.trans hb
        exact .opens (.arrow :: .void :: .braceClose :: w)
          (Nat.le_of_succ_le (Nat.le_succ_of_le hls)) hb nofun nofun
          (fun _ => blockBody_viable false htype hn fun a => (hk a).free) fun _ _ _ _ _ _ => trivial
      · -- what comes behind the block does not begin with the mark, either
        refine .answered (asks_isFollowedBy _) (a := false) (beq_eq_false_iff_ne.2 hbrace)
          (fun s _ (hs : seen ls 0 ≠ .question) => absurd hat hs) ?_
        exact (hk none).blames ls hls
    · rw [pure_bind]
      exact ((hk none).blames ls hls).mono fun _ _ _ => trivial

theorem callable_completable (htype : Typed levels type) (hreturn : Typed levels returnType) :
    Completable levels Closed [.arrow, .void] Shy unrelated (callable type returnType) := by
  intro β n w k hn hw hk
  simp only [callable, bind_assoc, pure_bind]
  refine params_viable htype hn nofun fun ps => block_viable htype hn nofun nofun fun b => ?_
  refine .expect _ rfl (fun _ => ?_) fun f ls s hf _ hmark => absurd (hf.symm.trans hmark) nofun
  exact (hreturn.completable hn hw fun t => hk _).free

end Parts

end Parser

end RubySig
