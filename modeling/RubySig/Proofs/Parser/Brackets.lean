import RubySig.Proofs.Parser.TypeCut
import RubySig.Proofs.Parser.TypeSpelling

/-!
# Brackets in types

The lexemes that a rule for types takes close the brackets that they open, and have no comma outside
of them.

* `depthStep`, `depthAfter`: how many brackets are open behind a lexeme and behind several of them.
* `Parser.Moves`: a rule that goes from one number of open brackets to another one.
* `Moves.bind`, `Moves.look`, `Moves.bump`, `Moves.expect`: the steps from which rules are built.
* `Moves.separated`, `Moves.separatedUntil`: repetition inside of brackets.
* `Parser.simpleType_moves`, `Parser.typeExpr_moves`: types.
-/

namespace RubySig

/-! ## Open brackets -/

/-- How many brackets are open behind a lexeme of a kind.  There is no answer where a bracket is
closed and none is open, and at a comma outside of all brackets. -/
def depthStep : TokenKind → Nat → Option Nat
  | .parenOpen, depth | .bracketOpen, depth | .braceOpen, depth => some (depth + 1)
  | .parenClose, depth + 1 | .bracketClose, depth + 1 | .braceClose, depth + 1 => some depth
  | .parenClose, 0 | .bracketClose, 0 | .braceClose, 0 | .comma, 0 => none
  | _, depth => some depth

/-- How many brackets are open behind lexemes. -/
def depthAfter (depth : Nat) : List Lexeme → Option Nat
  | [] => some depth
  | l :: rest => (depthStep l.kind depth).bind fun depth => depthAfter depth rest

theorem depthAfter_append {depth mid : Nat} {u v : List Lexeme}
    (hu : depthAfter depth u = some mid) :
    depthAfter depth (u ++ v) = depthAfter mid v := by
  induction u generalizing depth with
  | nil =>
    obtain rfl : depth = mid := Option.some.inj hu
    rfl
  | cons l u ih =>
    rw [List.cons_append, depthAfter]
    rw [depthAfter] at hu
    obtain ⟨next, hstep, hu⟩ := Option.bind_eq_some_iff.1 hu
    rw [hstep]
    exact ih hu

theorem depthStep_of_isWord {kind : TokenKind} (h : kind.isWord = true) (depth : Nat) :
    depthStep kind depth = some depth := by
  cases kind <;> first | rfl | cases h

namespace Parser

variable {α β : Type}

/-! ## Rules and brackets -/

theorem exists_of_bump_eq_ok {c c' : Cursor} {text : String} (h : bump c = .ok text c') :
    ∃ l, c.rest = l :: c'.rest ∧ text = l.text := by
  obtain ⟨l, rest, hrest, htext, rfl⟩ := exists_behind_of_bump_eq_ok h
  exact ⟨l, hrest, htext⟩

/-- Wherever a rule is entered in front of lexemes with a property, the lexemes that it takes lead
from one number of open brackets to another one. -/
def Moves (pre : List Lexeme → Prop) (depth depth' : Nat) (p : Parser α) : Prop :=
  ∀ c a c', pre c.rest → p c = .ok a c' →
    ∃ u, c.rest = u ++ c'.rest ∧ depthAfter depth u = some depth'

namespace Moves

variable {pre pre' : List Lexeme → Prop} {depth m depth' : Nat} {p : Parser α}

theorem mono (h : Moves pre depth depth' p) (hpre : ∀ ls, pre' ls → pre ls) :
    Moves pre' depth depth' p :=
  fun c a c' hc => h c a c' (hpre _ hc)

theorem enter (h : Moves anywhere depth depth' p) : Moves pre depth depth' p :=
  h.mono fun _ _ => trivial

theorem bind {f : α → Parser β} (hp : Moves pre depth m p)
    (hf : ∀ a, Moves anywhere m depth' (f a)) : Moves pre depth depth' (p >>= f) := by
  intro c b c' hc hrun
  obtain ⟨a, c₁, hfirst, hsecond⟩ := exists_of_bind_eq_ok hrun
  obtain ⟨u, hu, hdepth⟩ := hp c a c₁ hc hfirst
  obtain ⟨v, hv, hdepth'⟩ := hf a c₁ b c' trivial hsecond
  refine ⟨u ++ v, by rw [hu, hv, List.append_assoc], ?_⟩
  rw [depthAfter_append hdepth, hdepth']

/-- A rule that takes nothing. -/
theorem stays (h : ∀ c a c', p c = .ok a c' → c'.rest = c.rest) : Moves pre depth depth p :=
  fun c a c' _ hrun => ⟨[], (h c a c' hrun).symm, rfl⟩

theorem pure (a : α) : Moves pre depth depth (Pure.pure a : Parser α) :=
  stays fun _ _ _ hrun => by cases hrun; rfl

theorem stops (h : Yields p fun _ => False) : Moves pre depth depth' p :=
  fun c a c' _ hrun => (h c a c' hrun).elim

theorem throw (stop : Stop) : Moves pre depth depth' (MonadExcept.throw stop : Parser α) :=
  stops (.throw stop)

theorem unexpected (what : String) : Moves pre depth depth' (Parser.unexpected what : Parser α) :=
  stops (.unexpected what)

/-- A first step that takes nothing and whose result does not matter. -/
theorem skip {f : α → Parser β} (hp : ∀ c a c', p c = .ok a c' → c'.rest = c.rest)
    (hf : ∀ a, Moves pre depth depth' (f a)) : Moves pre depth depth' (p >>= f) := by
  intro c b c' hc hrun
  obtain ⟨a, c₁, hfirst, hsecond⟩ := exists_of_bind_eq_ok hrun
  have hrest := hp c a c₁ hfirst
  rw [← hrest] at hc ⊢
  exact hf a c₁ b c' hc hsecond

theorem ite {q : Parser α} {b : Prop} [Decidable b] (hp : b → Moves pre depth depth' p)
    (hq : ¬ b → Moves pre depth depth' q) : Moves pre depth depth' (if b then p else q) := by
  split
  · exact hp ‹_›
  · exact hq ‹_›

theorem nested (h : Moves pre depth depth' p) : Moves pre depth depth' (Parser.nested p) := by
  intro c a c' hc hrun
  obtain ⟨c₁, hinner, rfl⟩ := exists_of_nested_eq_ok hrun
  exact h (opened c) a c₁ hc hinner

/-! ## Looking and taking -/

theorem peek (n : Nat) {f : TokenKind → Parser β}
    (hf : ∀ kind, Moves (fun ls => kindOf ls n = kind ∧ pre ls) depth depth' (f kind)) :
    Moves pre depth depth' (Parser.peek n >>= f) := by
  intro c b c' hc hrun
  rw [bind_of_ok (peek_eq n c)] at hrun
  exact hf _ (looked c) b c' ⟨rfl, hc⟩ hrun

theorem look {f : TokenKind → Parser β}
    (hf : ∀ kind, Moves (fun ls => kindOf ls 0 = kind ∧ pre ls) depth depth' (f kind)) :
    Moves pre depth depth' (Parser.look >>= f) :=
  peek 0 hf

/-- A question about the lexeme at a place. -/
theorem isKind (n : Nat) (kind : TokenKind) {f : Bool → Parser β}
    (htrue : Moves (fun ls => kindOf ls n = kind ∧ pre ls) depth depth' (f true))
    (hfalse : Moves pre depth depth' (f false)) :
    Moves pre depth depth' ((do return (← Parser.peek n) == kind) >>= f) := by
  rw [bind_assoc]
  refine peek n fun found => ?_
  rw [pure_bind]
  by_cases hfound : found = kind
  · rw [beq_iff_eq.2 hfound, hfound]
    exact htrue
  · rw [beq_eq_false_iff_ne.2 hfound]
    exact hfalse.mono fun _ hls => hls.2

theorem isAt (kind : TokenKind) {f : Bool → Parser β}
    (htrue : Moves (fun ls => kindOf ls 0 = kind ∧ pre ls) depth depth' (f true))
    (hfalse : Moves pre depth depth' (f false)) : Moves pre depth depth' (Parser.isAt kind >>= f) :=
  isKind 0 kind htrue hfalse

theorem isFollowedBy (kind : TokenKind) {f : Bool → Parser β}
    (htrue : Moves (fun ls => kindOf ls 1 = kind ∧ pre ls) depth depth' (f true))
    (hfalse : Moves pre depth depth' (f false)) :
    Moves pre depth depth' (Parser.isFollowedBy kind >>= f) :=
  isKind 1 kind htrue hfalse

theorem isAtPair (kind following : TokenKind) {f : Bool → Parser β}
    (htrue : Moves (fun ls => kindOf ls 1 = following ∧ kindOf ls 0 = kind ∧ pre ls) depth depth'
      (f true))
    (hfalse : Moves pre depth depth' (f false)) :
    Moves pre depth depth' (Parser.isAtPair kind following >>= f) := by
  rw [Parser.isAtPair, bind_assoc]
  refine isAt kind (isFollowedBy following htrue ?_) ?_
  · exact hfalse.mono fun _ hls => hls.2
  · exact hfalse

theorem bump {f : String → Parser β} (hpre : ∀ ls, pre ls → depthStep (kindOf ls 0) depth = some m)
    (hf : ∀ l : Lexeme, Moves (fun ls => pre (l :: ls)) m depth' (f l.text)) :
    Moves pre depth depth' (Parser.bump >>= f) := by
  intro c b c' hc hrun
  obtain ⟨text, c₁, hbump, hrun⟩ := exists_of_bind_eq_ok hrun
  obtain ⟨l, hrest, rfl⟩ := exists_of_bump_eq_ok hbump
  rw [hrest] at hc ⊢
  obtain ⟨u, hu, hdepth⟩ := hf l c₁ b c' hc hrun
  have hstep : depthStep l.kind depth = some m := hpre _ hc
  refine ⟨l :: u, by rw [hu, List.cons_append], ?_⟩
  rw [depthAfter, hstep]
  exact hdepth

/-- A lexeme of a known kind is taken. -/
theorem take (kind : TokenKind) {f : String → Parser β} (hpre : ∀ ls, pre ls → kindOf ls 0 = kind)
    (hstep : depthStep kind depth = some m) (hf : ∀ text, Moves anywhere m depth' (f text)) :
    Moves pre depth depth' (Parser.bump >>= f) :=
  bump (fun ls hls => hpre ls hls ▸ hstep) fun l => (hf l.text).enter

theorem expect (kind : TokenKind) (what : String) (hstep : depthStep kind depth = some m)
    {f : TextRange → Parser β} (hf : ∀ range, Moves anywhere m depth' (f range)) :
    Moves pre depth depth' (Parser.expect kind what >>= f) := by
  rw [Parser.expect, bind_assoc]
  refine isAt kind ?_ (bind (.unexpected what) hf)
  simp only [if_true, bind_assoc, pure_bind]
  refine skip (fun _ _ _ hrun => by cases hrun; rfl) fun range => ?_
  exact take kind (fun _ hls => hls.1) hstep fun _ => hf range

theorem eat (kind : TokenKind) (hstep : depthStep kind depth = some m) {f : Bool → Parser β}
    (htrue : Moves anywhere m depth' (f true)) (hfalse : Moves pre depth depth' (f false)) :
    Moves pre depth depth' (Parser.eat kind >>= f) := by
  rw [Parser.eat, bind_assoc]
  refine isAt kind ?_ hfalse
  simp only [if_true, bind_assoc, pure_bind]
  exact take kind (fun _ hls => hls.1) hstep fun _ => htrue

theorem assertAt (kind : TokenKind) {f : Unit → Parser β}
    (hf : Moves (fun ls => kindOf ls 0 = kind ∧ pre ls) depth depth' (f ())) :
    Moves pre depth depth' (Parser.assertAt kind >>= f) := by
  rw [Parser.assertAt, bind_assoc]
  refine look fun found => ?_
  by_cases hfound : found = kind
  · subst hfound
    simpa using hf
  · rw [if_pos (bne_iff_ne.2 hfound)]
    have hthrow : Yields (MonadExcept.throw (.fault (.wrongStart kind found)) : Parser Unit)
        fun _ => False := .throw _
    exact stops (.bind hthrow fun _ hfalse => hfalse.elim)

/-! ## Repetition -/

theorem separatedWithin {separator : TokenKind} (hstep : depthStep separator depth = some depth)
    (h : Moves anywhere depth depth p) (n : Nat) :
    Moves anywhere depth depth (Parser.separatedWithin separator p n) := by
  induction n with
  | zero => exact throw _
  | succ n ih =>
    refine bind h fun a => eat separator hstep ?_ (pure _)
    exact bind ih fun _ => pure _

theorem separated {separator : TokenKind} (hstep : depthStep separator depth = some depth)
    (h : Moves anywhere depth depth p) :
    Moves anywhere depth depth (Parser.separated separator p) :=
  skip (fun _ _ _ hrun => by cases hrun; rfl) fun n => separatedWithin hstep h n

theorem separatedUntilWithin {close separator : TokenKind}
    (hstep : depthStep separator depth = some depth) (h : Moves anywhere depth depth p) (n : Nat) :
    Moves anywhere depth depth (Parser.separatedUntilWithin close separator p n) := by
  induction n with
  | zero => exact throw _
  | succ n ih =>
    refine isAt close (pure _) (bind h fun a => eat separator hstep ?_ (pure _))
    exact bind ih fun _ => pure _

theorem separatedUntil {close separator : TokenKind}
    (hstep : depthStep separator depth = some depth) (h : Moves anywhere depth depth p) :
    Moves anywhere depth depth (Parser.separatedUntil close separator p) :=
  skip (fun _ _ _ hrun => by cases hrun; rfl) fun n => separatedUntilWithin hstep h n

theorem repeatedAfterWithin {mark : TokenKind} (hstep : depthStep mark depth = some depth)
    (h : Moves anywhere depth depth p) (n : Nat) :
    Moves anywhere depth depth (Parser.repeatedAfterWithin mark p n) := by
  induction n with
  | zero => exact throw _
  | succ n ih =>
    refine eat mark hstep (bind h fun a => ?_) (pure _)
    exact bind ih fun _ => pure _

end Moves

/-! ## Names -/

section Names

variable {depth : Nat}

theorem enclosingSegments_moves : Moves anywhere depth depth enclosingSegments := by
  refine .skip (fun _ _ _ hrun => by cases hrun; rfl) fun n => ?_
  induction n with
  | zero => exact .throw _
  | succ n ih =>
    refine .isAtPair .upperIdent .doubleColon ?_ (.pure _)
    refine .bump (fun _ hls => by rw [hls.2.1]; rfl) fun segment => ?_
    refine .take .doubleColon (fun _ hls => hls.1) rfl fun _ => ?_
    exact .bind ih fun _ => .pure _

theorem typeName_moves (what : String) {accept : TokenKind → Bool}
    (haccept : ∀ kind, accept kind = true → depthStep kind depth = some depth) :
    Moves anywhere depth depth (typeName what accept) := by
  have hlast : ∀ start absolute path, Moves anywhere depth depth (do
      if accept (← look) then
        let last ← bump
        return ((⟨⟨path, absolute⟩, last⟩ : TypeName), ← rangeFrom start)
      else unexpected what) := by
    intro start absolute path
    refine .look fun kind => .ite (fun hkind => ?_) fun _ => .unexpected what
    refine .take kind (fun _ hls => hls.1) (haccept kind hkind) fun last => ?_
    exact .skip (fun _ _ _ hrun => by cases hrun; rfl) fun _ => .pure _
  refine .skip (fun _ _ _ hrun => by cases hrun; rfl) fun start => .eat .doubleColon rfl ?_ ?_
  · exact .bind enclosingSegments_moves fun path => hlast start true path
  · exact .bind enclosingSegments_moves fun path => hlast start false path

theorem depthStep_of_acceptsAny {kind : TokenKind} (h : acceptsAny kind = true) :
    depthStep kind depth = some depth := by
  cases kind <;> first | rfl | cases h

theorem depthStep_of_acceptsUpper {kind : TokenKind} (h : acceptsUpper kind = true) :
    depthStep kind depth = some depth := by
  cases kind <;> first | rfl | cases h

end Names

/-! ## Types without operators -/

section Types

variable {type returnType : Parser TypeExpr}

/-- The rules for types close what they open. -/
def Closes (p : Parser α) : Prop := ∀ depth, Moves anywhere depth depth p

theorem anyNamed_moves (h : Closes type) : Closes (anyNamed type) := by
  intro depth
  refine .bind ?_ fun _ => .pure _
  refine .skip (fun _ _ _ hrun => by cases hrun; rfl) fun start => ?_
  refine .bind (typeName_moves _ fun _ => depthStep_of_acceptsAny) fun (_, _) => ?_
  refine .eat .bracketOpen (m := depth + 1) rfl ?_ ?_
  · refine .bind (.separated rfl (h _)) fun args => .expect .bracketClose _ rfl fun _ => ?_
    exact .skip (fun _ _ _ hrun => by cases hrun; rfl) fun _ => .pure _
  · exact .skip (fun _ _ _ hrun => by cases hrun; rfl) fun _ => .pure _

theorem paramOf_moves (slot : Slot) (h : Closes type) : Closes (paramOf slot type) := by
  intro depth
  refine .bind (h depth) fun t => .isAt .lowerIdent ?_ (.pure _)
  exact .take .lowerIdent (fun _ hls => hls.1) rfl fun _ => .pure _

theorem keywordName_moves {depth : Nat} :
    Moves (fun ls => (kindOf ls 0).isWord = true) depth depth keywordName := by
  refine .bump (fun _ hls => depthStep_of_isWord hls depth) fun name => ?_
  exact (Moves.expect .colon _ rfl fun _ => .pure _).enter

theorem param_moves (h : Closes type) : Closes (param type) := by
  intro depth
  have hplain := paramOf_moves .required h depth
  refine .look fun kind => ?_
  split
  · rw [isOptionalKeyword, bind_assoc]
    refine .peek 1 fun next => ?_
    by_cases hword : next.isWord = true
    · simp only [hword, if_true]
      refine .isKind 2 .colon ?_ ?_
      · refine .bump (fun _ hls => by rw [hls.2.2.1]; rfl) fun mark => ?_
        refine .bind (keywordName_moves.mono fun ls hls => ?_) fun key => paramOf_moves _ h depth
        have hnext : kindOf ls 0 = next := hls.2.1
        rw [hnext]
        exact hword
      · exact .take .question (fun _ hls => hls.2.1) rfl fun _ => paramOf_moves _ h depth
    · simp only [hword]
      exact .take .question (fun _ hls => hls.2.1) rfl fun _ => paramOf_moves _ h depth
  · exact .take .starStar (fun _ hls => hls.1) rfl fun _ => paramOf_moves _ h depth
  · exact .take .star (fun _ hls => hls.1) rfl fun _ => paramOf_moves _ h depth
  · refine .ite (fun hword => .isFollowedBy .colon ?_ hplain.enter) fun _ => hplain.enter
    refine .bind (keywordName_moves.mono fun ls hls => ?_) fun key => paramOf_moves _ h depth
    rw [hls.2.1]
    exact hword

theorem params_moves (h : Closes type) : Closes (params type) := by
  intro depth
  refine .eat .parenOpen (m := depth + 1) rfl ?_ (.pure _)
  refine .bind (.separatedUntil rfl (param_moves h _)) fun written => ?_
  exact .expect .parenClose _ rfl fun _ => .pure _

theorem blockBody_moves (required : Bool) (h : Closes type) {depth : Nat} :
    Moves anywhere (depth + 1) depth (blockBody required type) := by
  refine .bind (params_moves h _) fun params => .expect .arrow _ rfl fun _ => ?_
  exact .bind (h _) fun t => .expect .braceClose _ rfl fun _ => .pure _

theorem block_moves (h : Closes type) : Closes (block type) := by
  intro depth
  refine .look fun kind => ?_
  split
  · exact .take .braceOpen (fun _ hls => hls.1) rfl fun _ => blockBody_moves _ h
  · refine .isFollowedBy .braceOpen ?_ (.pure _)
    refine .bump (fun _ hls => by rw [hls.2.1]; rfl) fun mark => ?_
    exact .take .braceOpen (fun _ hls => hls.1) rfl fun _ => blockBody_moves _ h
  · exact .pure _

theorem callable_moves (h : Closes type) (hreturn : Closes returnType) :
    Closes (callable type returnType) := by
  intro depth
  refine .bind (params_moves h depth) fun params => .bind (block_moves h depth) fun block => ?_
  exact .expect .arrow _ rfl fun _ => .bind (hreturn depth) fun _ => .pure _

theorem tupleType_moves (h : Closes type) : Closes (tupleType type) := by
  intro depth
  refine .assertAt .bracketOpen ?_
  refine .take .bracketOpen (m := depth + 1) (fun _ hls => hls.1) rfl fun _ => ?_
  refine .bind (.separatedUntil rfl (h _)) fun types => ?_
  exact .expect .bracketClose _ rfl fun _ => .pure _

theorem arrowKey_moves {depth : Nat} (kind : TokenKind) :
    Moves (fun ls => kindOf ls 0 = kind ∧ anywhere ls) depth depth (arrowKey kind) := by
  refine .ite (fun hkind => ?_) fun _ => .ite (fun hkind => ?_) fun _ => .unexpected _
  · exact .take .stringLit (fun _ hls => hls.1.trans (beq_iff_eq.1 hkind)) rfl fun _ =>
      .expect .fatArrow _ rfl fun _ => .pure _
  · exact .take .symbolLit (fun _ hls => hls.1.trans (beq_iff_eq.1 hkind)) rfl fun _ =>
      .expect .fatArrow _ rfl fun _ => .pure _

theorem recordKey_moves {depth : Nat} : Moves anywhere depth depth recordKey := by
  rw [recordKey_eq]
  refine .look fun kind => .ite (fun hword => ?_) fun _ => arrowKey_moves kind
  refine .isFollowedBy .colon ?_ (arrowKey_moves kind)
  refine .bump (fun _ hls => by rw [hls.2.1]; exact depthStep_of_isWord hword depth)
    fun name => ?_
  exact .take .colon (fun _ hls => hls.1) rfl fun _ => .pure _

theorem recordType_moves (h : Closes type) : Closes (recordType type) := by
  intro depth
  have hfield : Moves anywhere (depth + 1) (depth + 1) (recordField type) :=
    .bind recordKey_moves fun _ => .bind (h _) fun _ => .pure _
  refine .assertAt .braceOpen ?_
  refine .take .braceOpen (m := depth + 1) (fun _ hls => hls.1) rfl fun _ => ?_
  refine .bind (.separatedUntil rfl hfield) fun fields => ?_
  exact .expect .braceClose _ rfl fun _ => .pure _

theorem procType_moves (h : Closes type) (hreturn : Closes returnType) :
    Closes (procType type returnType) := by
  intro depth
  refine .assertAt .caret (.take .caret (fun _ hls => hls.1) rfl fun _ => ?_)
  exact .bind (callable_moves h hreturn depth) fun (_, _) => .pure _

theorem singletonType_moves : Closes singletonType := by
  intro depth
  refine .skip (fun _ _ _ hrun => by cases hrun; rfl) fun start => ?_
  refine .assertAt _ (.take _ (fun _ hls => hls.1) rfl fun _ => ?_)
  refine .expect .parenOpen _ (m := depth + 1) rfl fun _ => ?_
  refine .bind (typeName_moves _ fun _ => depthStep_of_acceptsUpper) fun (_, _) => ?_
  refine .expect .parenClose _ rfl fun _ => ?_
  exact .skip (fun _ _ _ hrun => by cases hrun; rfl) fun _ => .pure _

theorem depthStep_of_specialOf? {kind : TokenKind} {special : SpecialType}
    (h : specialOf? kind = some special) (depth : Nat) : depthStep kind depth = some depth := by
  cases kind with
  | keyword k => rfl
  | _ => cases h

theorem simpleType_moves (vars : List String) (h : Closes type) (hreturn : Closes returnType) :
    Closes (simpleType vars type returnType) := by
  intro depth
  refine .look fun kind => ?_
  split
  · rename_i special hspecial
    exact .take kind (fun _ hls => hls.1) (depthStep_of_specialOf? hspecial depth) fun _ => .pure _
  · split
    · refine .take .parenOpen (m := depth + 1) (fun _ hls => hls.1) rfl fun _ => ?_
      exact .bind (h _) fun _ => .expect .parenClose _ rfl fun _ => .pure _
    · exact (tupleType_moves h depth).enter
    · exact (recordType_moves h depth).enter
    · exact (procType_moves h hreturn depth).enter
    · exact .take .stringLit (fun _ hls => hls.1) rfl fun _ => .pure _
    · exact .take .symbolLit (fun _ hls => hls.1) rfl fun _ => .pure _
    · refine .skip (fun _ _ _ hrun => by cases hrun; rfl) fun range => ?_
      refine .take .integerLit (fun _ hls => hls.1) rfl fun text => ?_
      exact .ite (fun _ => .pure _) fun _ => .stops (.failAt _ _)
    · exact .take _ (fun _ hls => hls.1) rfl fun _ => .pure _
    · exact .take _ (fun _ hls => hls.1) rfl fun _ => .pure _
    · exact (singletonType_moves depth).enter
    · refine .skip (fun c b c' hrun => ?_) fun isVar =>
        .ite (fun _ => ?_) fun _ => (anyNamed_moves h depth).enter
      · rw [isAtTypeVar_eq] at hrun
        cases hrun
        rfl
      · exact .take .upperIdent (fun _ hls => hls.1) rfl fun _ => .pure _
    · exact (anyNamed_moves h depth).enter
    · exact (anyNamed_moves h depth).enter
    · exact (anyNamed_moves h depth).enter
    · exact .unexpected _

/-! ## Operators -/

theorem optionalType_moves {simple : Parser TypeExpr} (h : Closes simple) :
    Closes (optionalType simple) := by
  intro depth
  have hmarks : ∀ n t, Moves anywhere depth depth (optionalMarksWithin t n) := by
    intro n
    induction n with
    | zero => exact fun _ => .throw _
    | succ n ih =>
      intro t
      rw [optionalMarksWithin, isAtOptionalMark, bind_assoc]
      refine .isAt .question ?_ (.pure _)
      simp only [if_true, bind_assoc, pure_bind]
      refine .skip (fun _ _ _ hrun => by cases hrun; rfl) fun followed => .ite (fun _ => ?_)
        fun _ => .pure _
      exact .take .question (fun _ hls => hls.1) rfl fun _ => ih _
  refine .bind (h depth) fun t => ?_
  exact .skip (fun _ _ _ hrun => by cases hrun; rfl) fun n => hmarks n t

theorem operands_moves {mark : TokenKind} (hstep : ∀ depth, depthStep mark depth = some depth)
    {build : List TypeExpr → TypeExpr} {operand : Parser TypeExpr} (h : Closes operand) :
    Closes (operands mark build operand) := by
  intro depth
  refine .bind (h depth) fun first => .isAt mark ?_ (.pure _)
  refine .bind (.enter ?_) fun _ => .pure _
  refine .skip (fun _ _ _ hrun => by cases hrun; rfl) fun n => ?_
  exact .repeatedAfterWithin (hstep depth) (h depth) n

theorem unionType_moves {simple : Parser TypeExpr} (h : Closes simple) :
    Closes (unionType simple) :=
  operands_moves (fun _ => rfl) (operands_moves (fun _ => rfl) (optionalType_moves h))

end Types

/-- By induction on the levels that may be opened. -/
theorem typeExpr_returnType_moves (vars : List String) (levels : Nat) :
    Closes (typeExpr vars levels) ∧ Closes (returnType vars levels) := by
  induction levels with
  | zero => exact ⟨fun _ => .throw _, fun _ => .throw _⟩
  | succ n ih =>
    have hsimple := simpleType_moves vars ih.1 ih.2
    exact ⟨fun depth => .nested (unionType_moves hsimple depth),
      fun depth => .nested (optionalType_moves hsimple depth)⟩

end Parser

end RubySig
