import RubySig.Proofs.Parser.TypeCut
import RubySig.Proofs.Token.Words

/-!
# Rules on lexemes of a text

What a rule of the grammar returns depends on the lexemes in front of which it is entered.  Here a
rule has a precondition on them and a postcondition on what it returns and on those that it leaves.
All lexemes are those of a text, so each of them is a token of its kind alone, too.

* `Lexeme.Proper`: the lexemes of a text.
* `Parser.Ensures`: the pre- and the postcondition of a rule.
* `Ensures.pure`, `Ensures.bind`, `Ensures.step`: the steps from which rules are built.
* `Ensures.peek`, `Ensures.isAt`, `Ensures.bump`: looking and taking.
* `Ensures.separated`, `Ensures.separatedUntil`, `Ensures.repeatedAfter`: repetition.
-/

namespace RubySig

/-- A lexeme of a text: a token of its kind alone, unless no rule reads it. -/
def Lexeme.Proper (l : Lexeme) : Prop := l.kind ≠ .garbage → l.kind.Spells l.text.toList

/-- The kind of the lexeme at a place, if there is one. -/
def kindOf (ls : List Lexeme) (n : Nat) : TokenKind := (ls[n]?.map (·.kind)).getD .endOfText

theorem head_of_kindOf {ls : List Lexeme} {kind : TokenKind} (h : kindOf ls 0 = kind)
    (hkind : kind ≠ .endOfText) : ∃ l rest, ls = l :: rest ∧ l.kind = kind := by
  cases ls with
  | nil => exact absurd h.symm hkind
  | cons l rest => exact ⟨l, rest, rfl, h⟩

namespace Parser

variable {α β : Type}

/-- A cursor after a look. -/
def looked (c : Cursor) : Cursor :=
  { c with looks := c.looks + 1, mostLooks := max c.mostLooks (c.looks + 1) }

theorem peek_eq (n : Nat) (c : Cursor) : peek n c = .ok (kindOf c.rest n) (looked c) := rfl

/-- What a rule returns and leaves, wherever it is entered in a text in front of lexemes with a
property. -/
def Ensures (pre : List Lexeme → Prop) (p : Parser α) (post : α → List Lexeme → Prop) : Prop :=
  ∀ c a c', (∀ l ∈ c.rest, l.Proper) → pre c.rest → p c = .ok a c' →
    (∀ l ∈ c'.rest, l.Proper) ∧ post a c'.rest

/-- No condition on lexemes. -/
def anywhere (_ : List Lexeme) : Prop := True

namespace Ensures

variable {pre pre' : List Lexeme → Prop} {p : Parser α} {mid post : α → List Lexeme → Prop}
  {result : β → List Lexeme → Prop}

/-! ## Single steps -/

theorem mono (h : Ensures pre p mid) (hpre : ∀ ls, pre' ls → pre ls)
    (hpost : ∀ a ls, mid a ls → post a ls) : Ensures pre' p post := by
  intro c a c' hproper hc hrun
  obtain ⟨hproper', ha⟩ := h c a c' hproper (hpre _ hc) hrun
  exact ⟨hproper', hpost a _ ha⟩

/-- A rule can be entered where more is known than it needs. -/
theorem enter (h : Ensures anywhere p post) : Ensures pre p post :=
  h.mono (fun _ _ => trivial) fun _ _ => id

theorem pure {a : α} (h : ∀ ls, pre ls → post a ls) :
    Ensures pre (Pure.pure a : Parser α) post := by
  rintro c b c' hproper hc ⟨⟩
  exact ⟨hproper, h _ hc⟩

theorem throw (stop : Stop) : Ensures pre (MonadExcept.throw stop : Parser α) post :=
  fun _ _ _ _ _ hrun => by cases hrun

/-- A rule that returns nothing does not matter. -/
theorem stops (h : Yields p fun _ => False) : Ensures pre p post :=
  fun c a c' _ _ hrun => (h c a c' hrun).elim

theorem unexpected (what : String) : Ensures pre (Parser.unexpected what : Parser α) post :=
  stops (.unexpected what)

theorem bind {f : α → Parser β} (hp : Ensures pre p mid)
    (hf : ∀ a, Ensures (mid a) (f a) result) : Ensures pre (p >>= f) result := by
  intro c b c' hproper hc hrun
  obtain ⟨a, c₁, hfirst, hsecond⟩ := exists_of_bind_eq_ok hrun
  obtain ⟨hproper₁, ha⟩ := hp c a c₁ hproper hc hfirst
  exact hf a c₁ b c' hproper₁ ha hsecond

theorem ite {c : Prop} [Decidable c] {q : Parser α} (hp : c → Ensures pre p post)
    (hq : ¬ c → Ensures pre q post) : Ensures pre (if c then p else q) post := by
  split
  · exact hp ‹_›
  · exact hq ‹_›

/-- What follows from the lexemes may be used by the rule. -/
theorem of_pre (holds : Prop) (hpre : ∀ ls, pre ls → holds) (h : holds → Ensures pre p post) :
    Ensures pre p post :=
  fun c a c' hproper hc hrun => h (hpre _ hc) c a c' hproper hc hrun

/-- The lexemes may be named. -/
theorem of_forall (h : ∀ ls, pre ls → Ensures (· = ls) p post) : Ensures pre p post :=
  fun c a c' hproper hc hrun => h c.rest hc c a c' hproper rfl hrun

theorem and {post' : α → List Lexeme → Prop} (h : Ensures pre p post) (h' : Ensures pre p post') :
    Ensures pre p fun a ls => post a ls ∧ post' a ls :=
  fun c a c' hproper hc hrun =>
    ⟨(h c a c' hproper hc hrun).1, (h c a c' hproper hc hrun).2, (h' c a c' hproper hc hrun).2⟩

/-- A rule leaves lexemes of the text. -/
theorem of_cut {t : α → Pace} (h : Cut 0 ⟨0, 0⟩ t p p) : Ensures pre p fun _ => anywhere := by
  intro c a c' hproper _ hrun
  have hreach := h.reaches c
  rw [hrun] at hreach
  exact ⟨fun l hl => hproper l (hreach.rest.subset hl), trivial⟩

theorem step {t : α → Pace} {f : α → Parser β} (h : Cut 0 ⟨0, 0⟩ t p p)
    (hf : ∀ a, Ensures anywhere (f a) result) : Ensures pre (p >>= f) result :=
  bind (of_cut h) hf

/-- What is known of a first result may be used for what comes behind it. -/
theorem known {each : α → Prop} {f : α → Parser β} (hp : Ensures pre p fun a _ => each a)
    (hf : ∀ a, each a → Ensures anywhere (f a) result) : Ensures pre (p >>= f) result :=
  bind hp fun a => of_pre _ (fun _ ha => ha) fun ha => (hf a ha).enter

/-- A step that only reads the cursor. -/
theorem reads {f : α → Parser β} (hp : ∀ c a c', p c = .ok a c' → c' = c)
    (hf : ∀ a, Ensures pre (f a) result) : Ensures pre (p >>= f) result :=
  by
  have hsame : Ensures pre p fun _ => pre := by
    intro c a c' hproper hc hrun
    rw [hp c a c' hrun]
    exact ⟨hproper, hc⟩
  exact bind hsame hf

theorem nested (h : Ensures pre p post) : Ensures pre (Parser.nested p) post := by
  intro c a c' hproper hc hrun
  obtain ⟨c₁, hinner, rfl⟩ := exists_of_nested_eq_ok hrun
  exact h (opened c) a c₁ hproper hc hinner

/-! ## Looking and taking -/

theorem peek (n : Nat) {f : TokenKind → Parser β}
    (hf : ∀ kind, Ensures (fun ls => kindOf ls n = kind ∧ pre ls) (f kind) result) :
    Ensures pre (Parser.peek n >>= f) result := by
  intro c b c' hproper hc hrun
  rw [bind_of_ok (peek_eq n c)] at hrun
  exact hf _ (looked c) b c' hproper ⟨rfl, hc⟩ hrun

theorem look {f : TokenKind → Parser β}
    (hf : ∀ kind, Ensures (fun ls => kindOf ls 0 = kind ∧ pre ls) (f kind) result) :
    Ensures pre (Parser.look >>= f) result :=
  peek 0 hf

/-- A question about the next lexeme, or the one behind it. -/
theorem isKind (n : Nat) (kind : TokenKind) {f : Bool → Parser β}
    (htrue : Ensures (fun ls => kindOf ls n = kind ∧ pre ls) (f true) result)
    (hfalse : Ensures (fun ls => kindOf ls n ≠ kind ∧ pre ls) (f false) result) :
    Ensures pre ((do return (← Parser.peek n) == kind) >>= f) result := by
  rw [bind_assoc]
  refine peek n fun found => ?_
  rw [pure_bind]
  by_cases hfound : found = kind
  · rw [beq_iff_eq.2 hfound, hfound]
    exact htrue
  · rw [beq_eq_false_iff_ne.2 hfound]
    exact hfalse.mono (fun _ hls => ⟨hls.1 ▸ hfound, hls.2⟩) fun _ _ => id

theorem isAt (kind : TokenKind) {f : Bool → Parser β}
    (htrue : Ensures (fun ls => kindOf ls 0 = kind ∧ pre ls) (f true) result)
    (hfalse : Ensures (fun ls => kindOf ls 0 ≠ kind ∧ pre ls) (f false) result) :
    Ensures pre (Parser.isAt kind >>= f) result :=
  isKind 0 kind htrue hfalse

theorem isFollowedBy (kind : TokenKind) {f : Bool → Parser β}
    (htrue : Ensures (fun ls => kindOf ls 1 = kind ∧ pre ls) (f true) result)
    (hfalse : Ensures (fun ls => kindOf ls 1 ≠ kind ∧ pre ls) (f false) result) :
    Ensures pre (Parser.isFollowedBy kind >>= f) result :=
  isKind 1 kind htrue hfalse

theorem isAtPair (kind following : TokenKind) {f : Bool → Parser β}
    (htrue : Ensures (fun ls => (kindOf ls 0 = kind ∧ kindOf ls 1 = following) ∧ pre ls) (f true)
      result)
    (hfalse : Ensures (fun ls => ¬ (kindOf ls 0 = kind ∧ kindOf ls 1 = following) ∧ pre ls)
      (f false) result) :
    Ensures pre (Parser.isAtPair kind following >>= f) result := by
  rw [Parser.isAtPair, bind_assoc]
  refine isAt kind ?_ ?_
  · refine isFollowedBy following ?_ ?_
    · exact htrue.mono (fun _ hls => ⟨⟨hls.2.1, hls.1⟩, hls.2.2⟩) fun _ _ => id
    · exact hfalse.mono (fun _ hls => ⟨fun hpair => hls.1 hpair.2, hls.2.2⟩) fun _ _ => id
  · refine hfalse.mono (fun _ hls => ⟨fun hpair => hls.1 hpair.1, hls.2⟩) fun _ _ => id

/-- What is taken was the next lexeme. -/
theorem bump {f : String → Parser β}
    (hf : ∀ l : Lexeme, l.Proper → Ensures (fun ls => pre (l :: ls)) (f l.text) result) :
    Ensures pre (Parser.bump >>= f) result := by
  intro c b c' hproper hc hrun
  obtain ⟨text, c₁, hbump, hrun⟩ := exists_of_bind_eq_ok hrun
  obtain ⟨l, rest, hrest, rfl, rfl⟩ := exists_behind_of_bump_eq_ok hbump
  rw [hrest] at hproper hc
  obtain ⟨hl, hproper⟩ := List.forall_mem_cons.1 hproper
  exact hf l hl _ b c' hproper hc hrun

/-- A lexeme that is known to be of a kind is a token of it. -/
theorem bumpAt (kind : TokenKind) (hkind : kind ≠ .garbage) {f : String → Parser β}
    (hpre : ∀ ls, pre ls → kindOf ls 0 = kind)
    (hf : ∀ text : String, kind.Spells text.toList → Ensures anywhere (f text) result) :
    Ensures pre (Parser.bump >>= f) result := by
  refine bump fun l hl => ?_
  intro c b c' hproper hc hrun
  have hsame : l.kind = kind := hpre _ hc
  exact hf l.text (hsame ▸ hl (hsame ▸ hkind)) c b c' hproper trivial hrun

/-- A lexeme is left where it is unless it is of the kind. -/
theorem eat {kind : TokenKind} {f : Bool → Parser β} (htrue : Ensures anywhere (f true) result)
    (hfalse : Ensures (fun ls => kindOf ls 0 ≠ kind ∧ pre ls) (f false) result) :
    Ensures pre (Parser.eat kind >>= f) result := by
  rw [Parser.eat, bind_assoc]
  refine isAt kind ?_ ?_
  · simp only [if_true, bind_assoc, pure_bind]
    exact step .bump fun _ => htrue
  · exact hfalse

/-! ## Repetition -/

variable {separator close mark : TokenKind} {each : α → Prop}

/-- A repetition either stops after this round or goes on in another one. -/
theorem cons {q : Parser (List α)} {a : α} (ha : each a)
    (hq : Ensures anywhere q fun as _ => ∀ a ∈ as, each a) :
    Ensures pre (do return a :: (← q)) fun as _ => ∀ a ∈ as, each a :=
  bind hq.enter fun _ => pure fun _ has => List.forall_mem_cons.2 ⟨ha, has⟩

theorem nil : Ensures pre (Pure.pure [] : Parser (List α)) fun as _ => ∀ a ∈ as, each a :=
  pure fun _ _ _ ha => absurd ha List.not_mem_nil

theorem singleton {a : α} (ha : each a) :
    Ensures pre (Pure.pure [a] : Parser (List α)) fun as _ => ∀ a ∈ as, each a :=
  pure fun _ _ => List.forall_mem_singleton.2 ha

theorem separatedWithin (h : Ensures anywhere p fun a _ => each a) (n : Nat) :
    Ensures anywhere (Parser.separatedWithin separator p n) fun as _ => ∀ a ∈ as, each a := by
  induction n with
  | zero => exact throw _
  | succ n ih =>
    exact known h fun a ha => step (cut_eaten _ (by decide)) fun _ =>
      ite (fun _ => cons ha ih) fun _ => singleton ha

theorem separated (h : Ensures anywhere p fun a _ => each a) :
    Ensures anywhere (Parser.separated separator p) fun as _ => ∀ a ∈ as, each a :=
  step cut_rounds fun _ => separatedWithin h _

theorem separatedUntilWithin (h : Ensures anywhere p fun a _ => each a) (n : Nat) :
    Ensures anywhere (Parser.separatedUntilWithin close separator p n) fun as _ =>
      ∀ a ∈ as, each a := by
  induction n with
  | zero => exact throw _
  | succ n ih =>
    exact step (cut_isAt _ (by decide)) fun _ => ite (fun _ => nil) fun _ =>
      known h fun a ha => step (cut_eaten _ (by decide)) fun _ =>
        ite (fun _ => cons ha ih) fun _ => singleton ha

theorem separatedUntil (h : Ensures anywhere p fun a _ => each a) :
    Ensures anywhere (Parser.separatedUntil close separator p) fun as _ => ∀ a ∈ as, each a :=
  step cut_rounds fun _ => separatedUntilWithin h _

theorem repeatedAfterWithin (h : Ensures anywhere p fun a _ => each a) (n : Nat) :
    Ensures anywhere (Parser.repeatedAfterWithin mark p n) fun as _ => ∀ a ∈ as, each a := by
  induction n with
  | zero => exact throw _
  | succ n ih =>
    exact step (cut_eaten _ (by decide)) fun _ =>
      ite (fun _ => known h fun a ha => cons ha ih) fun _ => nil

/-- In front of a mark there is at least one round. -/
theorem repeatedAfter (h : Ensures anywhere p fun a _ => each a) :
    Ensures (fun ls => kindOf ls 0 = mark) (Parser.repeatedAfter mark p) fun as _ =>
      as ≠ [] ∧ ∀ a ∈ as, each a := by
  refine reads (fun c n c' hrun => by cases hrun; rfl) fun n => ?_
  cases n with
  | zero => exact throw _
  | succ n =>
    refine eat ?_ (of_pre _ (fun ls hls => absurd hls.2 hls.1) False.elim)
    exact known h fun a ha => known (repeatedAfterWithin h n) fun as has =>
      pure fun _ _ => ⟨List.cons_ne_nil a as, List.forall_mem_cons.2 ⟨ha, has⟩⟩

end Ensures

end Parser

end RubySig
