import RubySig.Proofs.Parser.BodyLockstep

/-!
# Files in two runs

The rules for bodies, declarations and files are in step.  No element of a body and no declaration
begins with a name and a list behind it, so where a rule is lost, the second text has an error.

* `Parser.stuck_bodyMember`, `Parser.memberList_inStep`: bodies go on to their end.
* `Parser.Bodies.InStep`, `Parser.bodiesWithin_inStep`: by induction on the levels, all bodies.
* `Parser.HeadsAgree`, `Parser.classDecl_inStep`: declarations with a header.
* `Parser.file_inStep`: the result, that the declarations of the two texts correspond.
-/

namespace RubySig

namespace Parser

variable {x : Header} {lost pre : List Lexeme → Prop} {α β : Type}

/-! ## Bodies -/

/-- In front of a name and the list a rule has an error. -/
def Stuck (q : Parser β) : Prop := Ensures Stray q fun _ _ => False

theorem Stuck.bind {q : Parser α} {g : α → Parser β} {post : β → List Lexeme → Prop}
    (h : Stuck q) : Ensures Stray (q >>= g) post :=
  Ensures.bind h fun _ => .of_pre False (fun _ => id) False.elim

/-- In front of a name and the list the text is not over. -/
theorem Strays.atEnd {f : Bool → Parser β} {post : β → List Lexeme → Prop}
    (hf : Ensures Stray (f false) post) : Ensures Stray (Parser.atEnd >>= f) post := by
  intro c b c' hproper hc hrun
  obtain ⟨ends, c₁, hends, hrun⟩ := exists_of_bind_eq_ok hrun
  cases hends
  have hmore : c.rest.isEmpty = false := by
    cases hrest : c.rest with
    | nil => rw [hrest] at hc; exact hc.elim
    | cons l rest => rfl
  rw [hmore] at hrun
  exact hf c b c' hproper hc hrun

/-- The end of a body is no name. -/
theorem stuck_memberListWithin {member : Parser Member} (h : Stuck member) (n : Nat) :
    Stuck (memberListWithin member n) := by
  cases n with
  | zero => exact Ensures.throw _
  | succ n => exact Strays.eat rfl (Strays.atEnd h.bind)

theorem stuck_memberList {member : Parser Member} (h : Stuck member) : Stuck (memberList member) :=
  Strays.reads (fun c a c' hrun => by cases hrun; rfl) (stuck_memberListWithin h)

theorem memberList_inStep {p q : Parser Member} {each : Member → Member → Prop}
    (h : InStep x Stray anywhere p q each) (hstuck : Stuck q) :
    InStep x never anywhere (memberList p) (memberList q) (List.Forall₂ each) := by
  have hwithin : ∀ n m, InStep x never anywhere (memberListWithin p n) (memberListWithin q m)
      (List.Forall₂ each) := by
    intro n
    induction n with
    | zero => exact fun m => .stops (.throw _)
    | succ n ih =>
      intro m
      cases m with
      | zero => exact .stops' (.throw _)
      | succ m =>
        refine .eat rfl (.pure .nil) ?_
        refine .readsSame List.isEmpty (fun _ => rfl)
          (fun _ _ hlinked => hlinked.abreast.isEmpty_eq)
          fun ends => .ite (fun _ => .unexpected _) fun _ => ?_
        exact .bind h.enter (fun _ _ hmember => .sure (ih m) fun _ _ hrest =>
          .pure (.cons hmember hrest)) fun _ => (stuck_memberListWithin hstuck m).bind
  exact .rounds fun n m => hwithin n m

/-! ## Elements of bodies -/

theorem cases_of_isStray {kind : TokenKind} (h : kind.isStray = true) :
    kind = .upperIdent ∨ kind = .doubleColon ∨ kind = .bracketOpen := by
  cases kind <;> cases h <;> decide

theorem stuck_constantDecl (vars : List String) (levels : Nat) :
    Stuck (constantDecl vars levels) :=
  Strays.reads (fun c a c' hrun => by cases hrun; rfl) fun _ =>
    (strays_typeName _).bind fun _ => Strays.expect rfl

/-- In front of a name the only declaration is that of a constant, which has no list. -/
theorem stuck_entityDeclAt (vars : List String) (levels : Nat) (bodies : Bodies) {kind : TokenKind}
    (hkind : kind.isStray = true) : Stuck (entityDeclAt vars levels bodies kind) := by
  rcases cases_of_isStray hkind with rfl | rfl | rfl
  · exact (stuck_constantDecl vars levels).bind
  · exact (stuck_constantDecl vars levels).bind
  · exact .unexpected _

theorem stuck_bodyMember (vars : List String) (levels : Nat) {declaration : Parser EntityDecl}
    (h : Stuck declaration) : Stuck (bodyMember vars levels declaration) := by
  refine Strays.look fun kind hkind => ?_
  rcases cases_of_isStray hkind with rfl | rfl | rfl
  · exact h.bind
  · exact h.bind
  · exact .unexpected _

theorem stuck_interfaceMember (vars : List String) (levels : Nat) :
    Stuck (interfaceMember vars levels) := by
  refine Strays.look fun kind hkind => ?_
  rcases cases_of_isStray hkind with rfl | rfl | rfl <;> exact .unexpected _

/-! ## Declarations with a header -/

/-- The bodies of two runs are in step.  In the second run there may be further type parameters in
scope. -/
structure Bodies.InStep (x : Header) (b b' : Bodies) : Prop where
  klass : ∀ {params vars vars' : List String}, Extends params vars vars' →
    (∀ v ∈ params, TokenKind.upperIdent.Spells v.toList) →
    Parser.InStep x never anywhere (b.klass vars) (b'.klass vars')
      (List.Forall₂ (Member.Corresponds x.params x.Here params))
  interface : ∀ vars, Parser.InStep x never anywhere (b.interface vars) (b'.interface vars)
    (List.Forall₂ (Member.Corresponds x.params x.Here []))
  stuck : ∀ vars, Stuck (b'.klass vars)

/-- What is said behind two headers makes the declarations counterparts. -/
def HeadsAgree (x : Header) (params : List String) (r : TypeName × TextRange)
    (ps ps' : List TypeParam) : Prop :=
  ∀ d d' : EntityDecl, Merge.canReopen d.kind → d.nameSpan.range = r.2 → d.typeParams = ps →
    d'.typeParams = ps' → d.Adopts params d' → d.Counterpart x.params x.Here d'

theorem headsAgree_same {r : TypeName × TextRange} {ps ps' : List TypeParam}
    (h : typeParamNames ps = typeParamNames ps') : HeadsAgree x [] r ps ps' := by
  rintro d d' - - rfl rfl adopts
  exact .same h adopts

theorem headsAgree_repeating {r : TypeName × TextRange} {ps' : List TypeParam}
    (hstart : r.2.start = x.start) (h : typeParamNames ps' = x.params) :
    HeadsAgree x x.params r [] ps' := by
  rintro d d' hreopens hplace hbare rfl adopts
  exact .repeating (by rw [Header.Here, hplace, hstart]) hreopens hbare h adopts

/-- A class behind its header. -/
def classTail (levels : Nat) (bodies : Bodies) (start : Nat) (r : TypeName × TextRange)
    (params : List TypeParam) : Parser ClassDecl := do
  let superClass ← (do
    if ← eat .lt then
      return some (← namedType (typeParamNames params) levels "a superclass name")
    else return none)
  let members ← bodies.klass (typeParamNames params)
  return ⟨r.1, params, superClass, members, ← spanOf r.2, ← spanFrom start⟩

/-- A module behind its header. -/
def moduleTail (levels : Nat) (bodies : Bodies) (start : Nat) (r : TypeName × TextRange)
    (params : List TypeParam) : Parser ModuleDecl := do
  let selfTypes ← (do
    if ← eat .colon then separated .comma (namedType (typeParamNames params) levels "a self type")
    else return [])
  let members ← bodies.klass (typeParamNames params)
  return ⟨r.1, params, selfTypes, members, ← spanOf r.2, ← spanFrom start⟩

theorem classDecl_eq (levels : Nat) (bodies : Bodies) :
    classDecl levels bodies =
      headed (.keyword .kwClass) "a class name" levels (classTail levels bodies) := rfl

theorem moduleDecl_eq (levels : Nat) (bodies : Bodies) :
    moduleDecl levels bodies =
      headed (.keyword .kwModule) "a module name" levels (moduleTail levels bodies) := rfl

theorem strays_spans {r : TextRange} {start : Nat} {build : Span → Span → β} :
    Strays (do return build (← spanOf r) (← spanFrom start)) :=
  Strays.reads (fun c a c' hrun => by cases hrun; rfl) fun _ => Strays.spanFrom fun _ =>
    Strays.pure _

section Declarations

variable {bodies bodies' : Bodies} (hbodies : bodies.InStep x bodies') (n m : Nat)
include hbodies

section Tails

variable {params : List String} {r r' : TypeName × TextRange} {ps ps' : List TypeParam}
  (hscope : Extends params (typeParamNames ps) (typeParamNames ps'))
  (hspelled : ∀ v ∈ params, TokenKind.upperIdent.Spells v.toList) (hname : r.1 = r'.1)
  (hheads : HeadsAgree x params r ps ps') (start start' : Nat)
include hscope hspelled hname hheads

theorem classTail_inStep :
    InStep x never anywhere (classTail n bodies start r ps) (classTail m bodies' start' r' ps')
      fun d d' => (EntityDecl.klass d).Corresponds x.params x.Here (.klass d') := by
  have hsuper : InStep x never anywhere
      (do
        if ← eat .lt then
          return some (← namedType (typeParamNames ps) n "a superclass name")
        else return none)
      (do
        if ← eat .lt then
          return some (← namedType (typeParamNames ps') m "a superclass name")
        else return none) fun s s' =>
          s.map (NamedType.adopted params) = s'.map (NamedType.adopted []) :=
    .eat rfl (.sure (namedType_inStep hscope hspelled n m _) fun _ _ hs =>
      .pure (congrArg some hs)) (.pure rfl)
  refine .sure hsuper fun superClass superClass' hsuper =>
    .sure (hbodies.klass hscope hspelled) fun members members' hmembers =>
      .spanOf fun _ _ hrange => .spanFrom fun _ _ => .pure ?_
  refine .of_members hname (hheads _ _ rfl hrange rfl rfl ⟨rfl, hsuper, ?_⟩) hmembers
  exact Member.Corresponds.own_members hmembers

theorem moduleTail_inStep :
    InStep x never anywhere (moduleTail n bodies start r ps) (moduleTail m bodies' start' r' ps')
      fun d d' => (EntityDecl.module d).Corresponds x.params x.Here (.module d') := by
  have htypes : InStep x Stray anywhere
      (do
        if ← eat .colon then separated .comma (namedType (typeParamNames ps) n "a self type")
        else return [])
      (do
        if ← eat .colon then separated .comma (namedType (typeParamNames ps') m "a self type")
        else return []) fun _ _ => True :=
    .eat rfl (((namedType_inStep hscope hspelled n m _).weaken.separated rfl rfl).relax
      fun _ _ _ => trivial) (.pure trivial)
  refine .bind htypes (fun selfTypes selfTypes' _ => ?_) fun _ => (hbodies.stuck _).bind
  refine .sure (hbodies.klass hscope hspelled) fun members members' hmembers =>
    .spanOf fun _ _ hrange => .spanFrom fun _ _ => .pure ?_
  refine .of_members hname (hheads _ _ rfl hrange rfl rfl ⟨rfl, rfl, ?_⟩) hmembers
  exact Member.Corresponds.own_members hmembers

end Tails

variable (hspelled : ∀ v ∈ x.params, TokenKind.upperIdent.Spells v.toList)
include hspelled

theorem classDecl_inStep :
    InStep x never pre (classDecl n bodies) (classDecl m bodies') fun d d' =>
      (EntityDecl.klass d).Corresponds x.params x.Here (.klass d') := by
  rw [classDecl_eq, classDecl_eq]
  refine headed_inStep (fun s s' r r' ps ps' hname hps => ?_)
    fun s s' r r' ps' hname hstart hps' => ?_
  · exact classTail_inStep hbodies n m (.ofEq hps) (List.forall_mem_nil _) hname
      (headsAgree_same hps) s s'
  · exact classTail_inStep hbodies n m (hps' ▸ .ofNil _) hspelled hname
      (headsAgree_repeating hstart hps') s s'

theorem moduleDecl_inStep :
    InStep x never pre (moduleDecl n bodies) (moduleDecl m bodies') fun d d' =>
      (EntityDecl.module d).Corresponds x.params x.Here (.module d') := by
  rw [moduleDecl_eq, moduleDecl_eq]
  refine headed_inStep (fun s s' r r' ps ps' hname hps => ?_)
    fun s s' r r' ps' hname hstart hps' => ?_
  · exact moduleTail_inStep hbodies n m (.ofEq hps) (List.forall_mem_nil _) hname
      (headsAgree_same hps) s s'
  · exact moduleTail_inStep hbodies n m (hps' ▸ .ofNil _) hspelled hname
      (headsAgree_repeating hstart hps') s s'

omit hspelled in
theorem interfaceDecl_inStep :
    InStep x never pre (interfaceDecl n bodies) (interfaceDecl m bodies') fun d d' =>
      (EntityDecl.interface d).Corresponds x.params x.Here (.interface d') := by
  refine .startOffset fun start start' => assertAt_inStep (.bumpAt (.keyword .kwInterface) rfl
    (fun _ => And.left) fun _ => ?_)
  refine .sure (typeName_inStep _ fun kind hkind => beq_iff_eq.1 hkind ▸ rfl) fun r r' hname => ?_
  refine .sure (typeParams_inStep (.refl []) (List.forall_mem_nil _) true n m) fun ps ps' hps => ?_
  have hnames := names_eq_of_adoptedParam hps
  have hbody := hbodies.interface (typeParamNames ps)
  rw [← hnames]
  refine .sure hbody fun members members' hmembers => ?_
  refine .spanOf fun _ _ _ => .spanFrom fun _ _ => .pure ?_
  refine .of_members hname (.same hnames ⟨rfl, rfl, ?_⟩) hmembers
  exact Member.Corresponds.own_members hmembers

omit hbodies hspelled in
theorem aliasDecl_inStep :
    InStep x Stray pre (aliasDecl n) (aliasDecl m) fun d d' =>
      (EntityDecl.typeAlias d).Corresponds x.params x.Here (.typeAlias d') := by
  refine .startOffset fun start start' => assertAt_inStep (.bumpAt (.keyword .kwType) rfl
    (fun _ => And.left) fun _ => ?_)
  refine .sure (typeName_inStep _ fun kind hkind => beq_iff_eq.1 hkind ▸ rfl) fun r r' hname => ?_
  refine .sure (typeParams_inStep (.refl []) (List.forall_mem_nil _) true n m) fun ps ps' hps => ?_
  have hnames := names_eq_of_adoptedParam hps
  refine .expect rfl fun _ _ => .bind (typeExpr_inStep (.ofEq hnames) (List.forall_mem_nil _) n m)
    (fun _ _ _ => ?_) fun _ => strays_spans
  refine .spanOf fun _ _ _ => .spanFrom fun _ _ => .pure ?_
  have hbody : List.Forall₂ (Member.Corresponds x.params x.Here []) [] [] := .nil
  exact .of_members hname (.same hnames ⟨rfl, rfl, rfl⟩) hbody

omit hbodies hspelled in
theorem constantDecl_inStep {params vars vars' : List String} (hscope : Extends params vars vars')
    (hspelled : ∀ v ∈ params, TokenKind.upperIdent.Spells v.toList) :
    InStep x Stray pre (constantDecl vars n) (constantDecl vars' m) fun d d' =>
      (EntityDecl.constant d).Corresponds x.params x.Here (.constant d') := by
  refine .startOffset fun start start' => .sure (typeName_inStep _ fun _ => isKey_of_acceptsUpper)
    fun r r' hname => .expect rfl fun _ _ => .bind (typeExpr_inStep hscope hspelled n m)
      (fun _ _ _ => ?_) fun _ => strays_spans
  refine .spanOf fun _ _ _ => .spanFrom fun _ _ => .pure ?_
  have hbody : List.Forall₂ (Member.Corresponds x.params x.Here []) [] [] := .nil
  exact .of_members hname (.same rfl ⟨rfl, rfl, rfl⟩) hbody

omit hbodies hspelled in
theorem globalDecl_inStep :
    InStep x Stray pre (globalDecl n) (globalDecl m) fun _ _ => True :=
  .startOffset fun _ _ => assertAt_inStep (.bumpAt .globalVar rfl (fun _ => And.left)
    fun _ => .expect rfl fun _ _ => .bind (typeExpr_inStep (.refl []) (List.forall_mem_nil _) n m)
      (fun _ _ _ => .spanFrom fun _ _ => .pure trivial) fun _ =>
        Strays.spanFrom fun _ => Strays.pure _)

/-- Declarations are in step, whatever they begin with. -/
theorem entityDeclAt_inStep {params vars vars' : List String} (hscope : Extends params vars vars')
    (hspelled' : ∀ v ∈ params, TokenKind.upperIdent.Spells v.toList) (kind : TokenKind) :
    InStep x Stray pre (entityDeclAt vars n bodies kind) (entityDeclAt vars' m bodies' kind)
      (EntityDecl.Corresponds x.params x.Here) := by
  have hconstant : InStep x Stray pre (do return EntityDecl.constant (← constantDecl vars n))
      (do return EntityDecl.constant (← constantDecl vars' m))
      (EntityDecl.Corresponds x.params x.Here) :=
    .bind (constantDecl_inStep n m hscope hspelled') (fun _ _ hd => .pure hd) fun _ => Strays.pure _
  unfold entityDeclAt
  split
  · exact .sure (classDecl_inStep hbodies n m hspelled) fun _ _ hd => .pure hd
  · exact .sure (moduleDecl_inStep hbodies n m hspelled) fun _ _ hd => .pure hd
  · exact .sure (interfaceDecl_inStep hbodies n m) fun _ _ hd => .pure hd
  · exact .bind (aliasDecl_inStep n m) (fun _ _ hd => .pure hd) fun _ => Strays.pure _
  · exact hconstant
  · exact hconstant
  · exact .unexpected _

end Declarations

/-! ## All bodies -/

section Files

variable (hspelled : ∀ v ∈ x.params, TokenKind.upperIdent.Spells v.toList)

/-- Bodies of elements that are in step, where none of them begins with a name and the list. -/
theorem Bodies.InStep.of_members {p p' q q' : List String → Parser Member}
    (hp : ∀ {params vars vars' : List String}, Extends params vars vars' →
      (∀ v ∈ params, TokenKind.upperIdent.Spells v.toList) →
        Parser.InStep x Stray anywhere (p vars) (p' vars')
          (Member.Corresponds x.params x.Here params))
    (hq : ∀ vars, Parser.InStep x Stray anywhere (q vars) (q' vars)
      (Member.Corresponds x.params x.Here []))
    (hp' : ∀ vars, Stuck (p' vars)) (hq' : ∀ vars, Stuck (q' vars)) :
    Bodies.InStep x ⟨fun vars => memberList (p vars), fun vars => memberList (q vars)⟩
      ⟨fun vars => memberList (p' vars), fun vars => memberList (q' vars)⟩ :=
  ⟨fun hscope hspelled => memberList_inStep (hp hscope hspelled) (hp' _),
    fun vars => memberList_inStep (hq vars) (hq' vars), fun vars => stuck_memberList (hp' vars)⟩

theorem stuck_nested {q : Parser β} (h : Stuck q) : Stuck (nested q) := Ensures.nested h

theorem stuck_tooDeep : Stuck (tooDeep : Parser β) := Ensures.stops .tooDeep

theorem stuck_entityDecl (vars : List String) (levels : Nat) (bodies : Bodies) :
    Stuck (entityDecl vars levels bodies) :=
  Strays.look fun _ hkind => stuck_entityDeclAt vars levels bodies hkind

include hspelled in
/-- By induction on the levels that the first run may still open: each element of a body opens
one. -/
theorem bodiesWithin_inStep (n m : Nat) : (bodiesWithin n).InStep x (bodiesWithin m) := by
  have hbody : ∀ m vars, Stuck (nested (bodyMember vars m (entityDecl vars m (bodiesWithin m)))) :=
    fun m vars => stuck_nested (stuck_bodyMember vars m (stuck_entityDecl vars m _))
  have hinterface : ∀ m vars, Stuck (nested (interfaceMember vars m)) :=
    fun m vars => stuck_nested (stuck_interfaceMember vars m)
  induction n generalizing m with
  | zero =>
    cases m with
    | zero =>
      exact .of_members (fun _ _ => .stops .tooDeep) (fun _ => .stops .tooDeep)
        (fun _ => stuck_tooDeep) fun _ => stuck_tooDeep
    | succ m =>
      exact .of_members (fun _ _ => .stops .tooDeep) (fun _ => .stops .tooDeep) (hbody m)
        (hinterface m)
  | succ n ih =>
    cases m with
    | zero =>
      exact .of_members (fun _ _ => .stops' .tooDeep) (fun _ => .stops' .tooDeep)
        (fun _ => stuck_tooDeep) fun _ => stuck_tooDeep
    | succ m =>
      refine .of_members (fun hscope hparams => ?_) (fun vars => ?_) (hbody m) (hinterface m)
      · exact .nested (bodyMember_inStep hscope hparams n m (.look fun kind =>
          entityDeclAt_inStep (ih m) n m hspelled hscope hparams kind))
      · exact .nested (interfaceMember_inStep (.refl vars) (List.forall_mem_nil _) n m)

/-! ## Files -/

theorem stuck_declaration (levels : Nat) : Stuck (declaration levels) := by
  refine Strays.look fun kind hkind => ?_
  rcases cases_of_isStray hkind with rfl | rfl | rfl
  all_goals exact (stuck_entityDeclAt _ _ _ hkind).bind

include hspelled

theorem declaration_inStep (n m : Nat) :
    InStep x Stray anywhere (declaration n) (declaration m)
      (Declaration.Corresponds x.params x.Here) := by
  refine .look fun kind => ?_
  split
  · exact .bind (globalDecl_inStep n m) (fun d d' _ => .pure (.global d d')) fun _ => Strays.pure _
  · exact .bind (entityDeclAt_inStep (bodiesWithin_inStep hspelled n m) n m hspelled (.refl [])
      (List.forall_mem_nil _) _) (fun _ _ hd => .pure (.entity hd)) fun _ => Strays.pure _

/-- The declarations of two texts that are the same but for a repeated list correspond. -/
theorem file_inStep (n m : Nat) :
    InStep x never anywhere (file n) (file m)
      (List.Forall₂ (Declaration.Corresponds x.params x.Here)) := by
  have hstuck : ∀ k, Stuck (fileWithin m k) := by
    intro k
    cases k with
    | zero => exact Ensures.throw _
    | succ k => exact Strays.atEnd (stuck_declaration m).bind
  have hwithin : ∀ k l, InStep x never anywhere (fileWithin n k) (fileWithin m l)
      (List.Forall₂ (Declaration.Corresponds x.params x.Here)) := by
    intro k
    induction k with
    | zero => exact fun l => .stops (.throw _)
    | succ k ih =>
      intro l
      cases l with
      | zero => exact .stops' (.throw _)
      | succ l =>
        refine .readsSame List.isEmpty (fun _ => rfl)
          (fun _ _ hlinked => hlinked.abreast.isEmpty_eq) fun ends =>
            .ite (fun _ => .pure .nil) fun _ => ?_
        exact .bind (declaration_inStep hspelled n m) (fun _ _ hd => .sure (ih l) fun _ _ hrest =>
          .pure (.cons hd hrest)) fun _ => (hstuck l).bind
  exact .rounds fun k l => hwithin k l

end Files

end Parser

end RubySig
