import RubySig.Proofs.Parser.BodyBlames

/-!
# Syntax errors in declarations and files

Wherever a declaration stops, what it took can be completed to a declaration.

* `Parser.Ended`: bodies that are completed by their `end`.
* `Parser.declaration_continuable`: declarations.
* `Parser.file_viable`: a file is completed by nothing more where a declaration may begin.
-/

namespace RubySig

namespace Parser

variable {β : Type} {n : Nat} {w : List Filler}

/-- A body that is completed by its `end`. -/
def Ended (levels : Nat) (body : Parser (List Member)) : Prop :=
  Completable levels (fun _ => True) [.ended] unrelated Unmarked body

/-! ## Headers and bodies -/

/-- The name of a declaration and its type parameters. -/
theorem header_viable (what : String) (levels : Nat) {accept : TokenKind → Bool} {f : Filler}
    {k : TypeName × TextRange → List TypeParam → Parser β}
    (haccept : ∀ kind, accept kind = true → acceptsAny kind = true) (hf : accept f.kind = true)
    (hn : n < levels) (hcolons : seen (shown w) 0 ≠ .doubleColon)
    (hbracket : seen (shown w) 0 ≠ .bracketOpen)
    (hk : ∀ name params, Viable n w unrelated (k name params)) :
    Viable n (f :: w) unrelated
      (typeName what accept >>= fun name => typeParams true [] levels >>= k name) :=
  (typeName_viable what haccept hf hcolons fun name =>
    typeParams_viable true [] levels hn hbracket (hk name)).free

/-- A body is the last part of a declaration. -/
theorem Ended.viable {levels : Nat} {body : Parser (List Member)} (hbody : Ended levels body)
    (range : TextRange) (start : Nat) (hn : n < levels) {k : List Member → Span → Span → Parser β}
    (hk : ∀ members nameSpan span, Viable n w unrelated (k members nameSpan span)) :
    Viable n (.ended :: w) Unmarked (body >>= fun members => spanOf range >>= fun nameSpan =>
      spanFrom start >>= fun span => k members nameSpan span) :=
  hbody hn trivial fun members => .idles (idles_spanOf range) fun nameSpan =>
    .idles (idles_spanFrom start) fun span => hk members nameSpan span

section Declarations

variable (vars : List String) (levels : Nat) {bodies : Bodies} {ls : List Face}

theorem classDecl_blames (hbodies : ∀ vars, Ended levels (bodies.klass vars))
    {k : ClassDecl → Parser β} (hls : ls.length ≤ n + 1) (hat : seen ls 0 = .keyword .kwClass)
    (hn : n < levels)
    (hk : ∀ a, Viable n w unrelated (k a)) :
    Blames ls (Unmarked ls) True (classDecl levels bodies >>= k) := by
  simp only [classDecl, bind_assoc, ite_bind, pure_bind]
  refine .idles idles_startOffset fun start => .assertAt hat ?_
  refine .opens (.upper :: .ended :: w) hls hat nofun nofun (fun _ => ?_)
    fun _ _ _ _ _ _ => unmarked_of_seen hat nofun _
  refine header_viable _ levels (fun _ => acceptsAny_of_beq rfl) rfl hn (by exact nofun)
    (by exact nofun) fun name params => ?_
  refine .eat (.upper :: .ended :: w) nofun nofun (fun m hm => ?_) ?_ (by exact nofun)
    fun _ _ _ _ _ => trivial
  · refine (namedType_completable _ levels _ (hm.trans hn) (by rfl) fun superClass => ?_).free
    exact ((hbodies _).viable _ start (hm.trans hn) fun _ _ _ => (hk _).mono hm.le).free
  · exact ((hbodies _).viable _ start hn fun _ _ _ => hk _).free

theorem moduleDecl_blames (hbodies : ∀ vars, Ended levels (bodies.klass vars))
    {k : ModuleDecl → Parser β} (hls : ls.length ≤ n + 1) (hat : seen ls 0 = .keyword .kwModule)
    (hn : n < levels)
    (hk : ∀ a, Viable n w unrelated (k a)) :
    Blames ls (Unmarked ls) True (moduleDecl levels bodies >>= k) := by
  simp only [moduleDecl, bind_assoc, ite_bind, pure_bind]
  refine .idles idles_startOffset fun start => .assertAt hat ?_
  refine .opens (.upper :: .ended :: w) hls hat nofun nofun (fun _ => ?_)
    fun _ _ _ _ _ _ => unmarked_of_seen hat nofun _
  refine header_viable _ levels (fun _ => acceptsAny_of_beq rfl) rfl hn (by exact nofun)
    (by exact nofun) fun name params => ?_
  refine .eat (.upper :: .ended :: w) nofun nofun (fun m hm => ?_) ?_ (by exact nofun)
    fun _ _ _ _ _ => trivial
  · refine (separated_completable (?_ : Completable levels _ [.upper] _ unrelated _)
      (shortens_namedType _ levels _) divides_comma (hm.trans hn) (by rfl) fun selfTypes => ?_).free
    · exact fun _ _ _ _ hn hw hk =>
        (namedType_completable _ levels _ hn hw fun a => (hk a).free).free
    · exact ((hbodies _).viable _ start (hm.trans hn) fun _ _ _ => (hk _).mono hm.le).weaken
        fun _ _ _ h => h.shy
  · exact ((hbodies _).viable _ start hn fun _ _ _ => hk _).free

theorem interfaceDecl_blames (hbodies : ∀ vars, Ended levels (bodies.interface vars))
    {k : InterfaceDecl → Parser β} (hls : ls.length ≤ n + 1)
    (hat : seen ls 0 = .keyword .kwInterface) (hn : n < levels)
    (hk : ∀ a, Viable n w unrelated (k a)) :
    Blames ls (Unmarked ls) True (interfaceDecl levels bodies >>= k) := by
  simp only [interfaceDecl, bind_assoc, pure_bind]
  refine .idles idles_startOffset fun start => .assertAt hat ?_
  refine .opens (.interface :: .ended :: w) hls hat nofun nofun (fun _ => ?_)
    fun _ _ _ _ _ _ => unmarked_of_seen hat nofun _
  refine header_viable _ levels (fun _ => acceptsAny_of_beq rfl) rfl hn (by exact nofun)
    (by exact nofun) fun name params => ?_
  exact ((hbodies _).viable _ start hn fun _ _ _ => hk _).free

/-- A type is the last part of a declaration. -/
theorem typed_viable (what : String) {f : Filler} {kind : TokenKind} (hf : f.kind = kind)
    {k : TypeExpr → Parser β} (hn : n < levels) (hw : Closed w)
    (hk : ∀ type, Viable n w Unmarked (k type)) :
    Viable (n + 1) (f :: .void :: w) unrelated (expect kind what >>= fun _ =>
      (typeExpr vars levels : Parser TypeExpr) >>= k) :=
  .expect_succ what hf (fun _ => ((typed_typeExpr vars levels).completable hn hw fun type =>
    (hk type).weaken fun _ _ _ h => h.shy).free) fun _ _ _ _ _ => trivial

theorem aliasDecl_blames {k : AliasDecl → Parser β} (hls : ls.length ≤ n + 1)
    (hat : seen ls 0 = .keyword .kwType) (hn : n < levels) (hw : Closed w)
    (hk : ∀ a, Viable n w Unmarked (k a)) :
    Blames ls (Unmarked ls) True (aliasDecl levels >>= k) := by
  simp only [aliasDecl, bind_assoc, pure_bind, typeExpr_bind]
  refine .idles idles_startOffset fun start => .assertAt hat ?_
  refine .opens (.lower :: .equals :: .void :: w) hls hat nofun nofun (fun _ => ?_)
    fun _ _ _ _ _ _ => unmarked_of_seen hat nofun _
  refine header_viable _ levels (fun _ => acceptsAny_of_beq rfl) rfl hn (by exact nofun)
    (by exact nofun) fun name params => ?_
  refine (typed_viable _ levels _ rfl hn hw fun type => ?_).mono (Nat.le_succ n)
  exact .idles (idles_spanOf _) fun nameSpan => .idles (idles_spanFrom start) fun span => hk _

theorem globalDecl_blames {k : GlobalDecl → Parser β} (hls : ls.length ≤ n + 1)
    (hat : seen ls 0 = .globalVar) (hn : n < levels) (hw : Closed w)
    (hk : ∀ a, Viable n w Unmarked (k a)) :
    Blames ls (Unmarked ls) True (globalDecl levels >>= k) := by
  simp only [globalDecl, bind_assoc, pure_bind, typeExpr_bind]
  refine .idles idles_startOffset fun start => .assertAt hat ?_
  refine .opens (.colon :: .void :: w) hls hat nofun nofun (fun _ => ?_)
    fun _ _ _ _ _ _ => unmarked_of_seen hat nofun _
  refine (typed_viable _ levels _ rfl hn hw fun type => ?_).mono (Nat.le_succ n)
  exact .idles (idles_spanFrom start) fun span => hk _

theorem constantDecl_blames {k : ConstantDecl → Parser β} (hls : ls.length ≤ n + 1)
    (hat : seen ls 0 ≠ .question) (hn : n < levels) (hw : Closed w)
    (hk : ∀ a, Viable n w Unmarked (k a)) :
    Blames ls (Unmarked ls) True (constantDecl vars levels >>= k) := by
  simp only [constantDecl, bind_assoc, pure_bind, typeExpr_bind]
  refine .idles idles_startOffset fun start => ?_
  have htype : ∀ name : TypeName × TextRange, Viable (n + 1) (.colon :: .void :: w) unrelated
      (expect .colon "`:`" >>= fun _ => (typeExpr vars levels : Parser TypeExpr) >>= fun type =>
        spanOf name.2 >>= fun nameSpan => spanFrom start >>= fun span =>
          k ⟨name.1, type, nameSpan, span⟩) := fun name =>
    typed_viable vars levels _ rfl hn hw fun type => .idles (idles_spanOf name.2) fun nameSpan =>
      .idles (idles_spanFrom start) fun span => hk _
  have haccept : ∀ kind, acceptsUpper kind = true → acceptsAny kind = true :=
    fun _ => acceptsAny_of_beq rfl
  have hname := typeName_viable (f := .upper) "a constant name" haccept rfl (by exact nofun) htype
  exact (hname.blames ls hls).mono fun _ _ _ => hat

/-- A declaration is entered on its first lexeme. -/
theorem entityDeclAt_blames (hbodies : ∀ vars, Ended levels (bodies.klass vars))
    (hinterfaces : ∀ vars, Ended levels (bodies.interface vars)) {k : EntityDecl → Parser β}
    (hls : ls.length ≤ n + 1) (hn : n < levels) (hw : Closed w)
    (hk : ∀ a, Viable n w Unmarked (k a)) :
    Blames ls (Unmarked ls) True (entityDeclAt vars levels bodies (seen ls 0) >>= k) := by
  have hconstant : seen ls 0 ≠ .question → Blames ls (Unmarked ls) True
      (constantDecl vars levels >>= fun d => k (.constant d)) := fun hat =>
    constantDecl_blames vars levels hls hat hn hw fun _ => hk _
  generalize hat : seen ls 0 = kind at hconstant
  unfold entityDeclAt
  split <;> (try simp only [bind_assoc, pure_bind])
  · exact classDecl_blames levels hbodies hls hat hn fun _ => (hk _).free
  · exact moduleDecl_blames levels hbodies hls hat hn fun _ => (hk _).free
  · exact interfaceDecl_blames levels hinterfaces hls hat hn fun _ => (hk _).free
  · exact aliasDecl_blames levels hls hat hn hw fun _ => hk _
  · exact hconstant nofun
  · exact hconstant nofun
  · exact .unexpected _ trivial

end Declarations

theorem entityDecl_continuable (vars : List String) (levels : Nat) {bodies : Bodies}
    (hbodies : ∀ vars, Ended levels (bodies.klass vars))
    (hinterfaces : ∀ vars, Ended levels (bodies.interface vars)) :
    Continuable levels Closed Unmarked Unmarked (entityDecl vars levels bodies) := by
  intro β n w k hn hw hk ls hls
  simp only [entityDecl, bind_assoc]
  exact .look (entityDeclAt_blames vars levels hbodies hinterfaces hls hn hw hk)

/-- By induction on the levels: every element of a body opens one. -/
theorem ended_bodiesWithin (levels : Nat) (vars : List String) :
    Ended levels ((bodiesWithin levels).klass vars) ∧
      Ended levels ((bodiesWithin levels).interface vars) := by
  induction levels generalizing vars with
  | zero => exact ⟨fun _ _ _ _ hn => absurd hn nofun, fun _ _ _ _ hn => absurd hn nofun⟩
  | succ levels ih =>
    have hmember := bodyMember_continuable vars levels
      (entityDecl_continuable vars levels (fun vars => (ih vars).1) fun vars => (ih vars).2)
    exact ⟨memberList_completable hmember.nested
        (shortens_bodyMember vars levels _ (cut_bodiesWithin (le_refl levels))).nested,
      memberList_completable (interfaceMember_continuable vars levels).nested
        (shortens_interfaceMember vars levels).nested⟩

/-! ## Files -/

theorem declaration_continuable (levels : Nat) :
    Continuable levels Closed Unmarked Unmarked (declaration levels) := by
  intro β n w k hn hw hk ls hls
  have hentity := entityDeclAt_blames [] levels (fun vars => (ended_bodiesWithin levels vars).1)
    (fun vars => (ended_bodiesWithin levels vars).2) hls hn hw fun d => hk (.entity d)
  simp only [declaration, bind_assoc]
  refine .look ?_
  split
  · next hat =>
    rw [bind_assoc]
    exact globalDecl_blames levels hls hat hn hw fun d => hk (.global d)
  · rw [bind_assoc]
    exact hentity

/-- A file can be completed wherever it stops, by nothing where a declaration may begin. -/
theorem file_viable (levels : Nat) {k : List Declaration → Parser β} (hn : n < levels + 1)
    (hk : ∀ a, Viable n [] unrelated (k a)) : Viable n [] Unmarked (file levels >>= k) := by
  induction n using Nat.strong_induction_on generalizing k with
  | _ n ih =>
    rw [file_eq levels]
    simp only [fileRound, bind_assoc, ite_bind, pure_bind]
    constructor
    · exact .asks asks_atEnd (hk []).accepts
    · intro ls hls
      refine .atEnd ?_
      cases ls with
      | nil => exact ((hk []).blames [] hls).mono fun _ _ _ => nofun
      | cons f rest =>
        obtain ⟨n, rfl⟩ := Nat.exists_eq_succ_of_ne_zero (Nat.ne_zero_of_lt hls)
        have hrest : n < levels := Nat.lt_of_succ_lt_succ hn
        exact declaration_continuable levels hrest (by rfl) (fun d => ih n (Nat.lt_succ_self n)
          (Nat.lt_succ_of_lt hrest) fun ds => (hk (d :: ds)).mono (Nat.le_succ n)) (f :: rest) hls

end Parser

end RubySig
