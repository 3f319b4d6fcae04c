import Mathlib.Data.List.Forall2
import RubySig.Proofs.Parser.Header

/-!
# Two runs of the grammar

One text has a parameter list behind a name, the other one does not.  Two rules are in step if,
entered in both texts, they take the same lexemes and return results that belong together, or the
text with the list is lost: there the list stands where no rule reads it.

* `Parser.Strays`: a rule that is entered in front of a stray list ends in front of one.
* `Parser.InStep`: two rules in step.
* `InStep.pure`, `InStep.bind`, `InStep.reads`: the steps from which rules are built.
* `InStep.peek`, `InStep.isAt`, `InStep.bump`, `InStep.eat`, `InStep.expect`: looking and taking.
* `InStep.separated`, `InStep.separatedUntil`, `InStep.repeatedAfter`: repetition, where the two
  runs may have different bounds on the rounds.
-/

namespace RubySig

/-- Both texts are lexemes of texts, and they are abreast. -/
structure Header.Linked (x : Header) (ls ls' : List Lexeme) : Prop where
  proper : ∀ l ∈ ls, l.Proper
  proper' : ∀ l ∈ ls', l.Proper
  abreast : x.Abreast ls ls'

/-- `class` and `module`, with which the header begins. -/
def TokenKind.isKey : TokenKind → Bool
  | .keyword .kwClass | .keyword .kwModule => true
  | _ => false

theorem Header.ne_without {x : Header} {ls : List Lexeme} (h : (kindOf ls 0).isKey = false) :
    ls ≠ x.without := by
  rintro rfl
  change x.key.kind.isKey = false at h
  rcases x.key_kind with hkey | hkey <;> rw [hkey] at h <;> cases h

/-- Behind the first lexeme of the header there is a name. -/
theorem Header.ne_without_of_second {x : Header} {ls : List Lexeme}
    (h : (kindOf ls 1).isStray = false) : ls ≠ x.without := by
  rintro rfl
  obtain ⟨l, more, hwritten⟩ := List.exists_cons_of_ne_nil (Header.written_ne_nil (x := x))
  have hstray : (kindOf (x.written ++ (x.list ++ x.rest)) 0).isStray = true :=
    Header.stray_written.isStray
  change (kindOf (x.written ++ x.rest) 0).isStray = false at h
  rw [hwritten] at h hstray
  exact absurd (hstray.symm.trans h) nofun

namespace Parser

variable {α β γ δ : Type}

/-- What is taken is the next lexeme. -/
theorem taken_of_bump {c d : Cursor} {text : String} (hbump : bump c = .ok text d) :
    ∃ l, c.rest = l :: d.rest ∧ text = l.text ∧ d.lastEnd = l.range.stop := by
  obtain ⟨l, rest, hrest, htext, rfl⟩ := exists_behind_of_bump_eq_ok hbump
  exact ⟨l, hrest, htext, rfl⟩

/-- What is not there is not taken. -/
theorem eat_of_ne {c : Cursor} {kind : TokenKind} (h : kindOf c.rest 0 ≠ kind) :
    eat kind c = .ok false (looked c) := by
  have hat : isAt kind c = .ok false (looked c) := by
    have hpeek : look c = .ok (kindOf c.rest 0) (looked c) := peek_eq 0 c
    rw [isAt, bind_of_ok hpeek, beq_eq_false_iff_ne.2 h]
    rfl
  rw [eat, bind_of_ok hat]
  rfl

/-! ## Stray lists -/

/-- The list is stray, and in front of its bracket there is a name. -/
def AtName (ls : List Lexeme) : Prop := Stray ls ∧ kindOf ls 0 ≠ .bracketOpen

/-- The name of the header is one. -/
theorem atName_of_faces {x : Header} {ls : List Lexeme}
    (h : faces ls = faces (x.written ++ (x.list ++ x.rest))) : AtName ls := by
  refine ⟨stray_of_faces h.symm Header.stray_written, ?_⟩
  obtain ⟨l, more, hwritten⟩ := List.exists_cons_of_ne_nil (Header.written_ne_nil (x := x))
  have hl : l.kind = .upperIdent ∨ l.kind = .doubleColon :=
    Header.kind_of_mem_written (hwritten ▸ List.mem_cons_self)
  have hfirst : kindOf ls 0 = l.kind := by
    cases ls with
    | nil => rw [hwritten] at h; cases h
    | cons k ls =>
      rw [hwritten] at h
      exact Lexeme.kind_eq_of_face (List.cons.inj h).1
  rw [hfirst]
  rcases hl with hl | hl <;> rw [hl] <;> exact nofun

theorem atName_of_stray {q : Parser β} {post : β → List Lexeme → Prop} (h : Ensures Stray q post) :
    Ensures AtName q post :=
  h.mono (fun _ => And.left) fun _ _ => id

/-- A rule that is entered in front of a stray list and returns something ends in front of one. -/
def Strays (q : Parser β) : Prop := Ensures Stray q fun _ => Stray

namespace Strays

variable {g : α → Parser β} {post : β → List Lexeme → Prop} {kind : TokenKind}

theorem pure (b : β) : Strays (Pure.pure b) := Ensures.pure fun _ => id

/-- Only names and brackets are seen in front of a stray list. -/
theorem look {g : TokenKind → Parser β}
    (hg : ∀ kind, kind.isStray = true → Ensures Stray (g kind) post) :
    Ensures Stray (Parser.look >>= g) post :=
  .look fun kind => .of_pre (kind.isStray = true) (fun _ hls => hls.1 ▸ hls.2.isStray)
    fun hkind => (hg kind hkind).mono (fun _ => And.right) fun _ _ => id

theorem isAt {g : Bool → Parser β} (hkind : kind.isStray = false)
    (hg : Ensures Stray (g false) post) : Ensures Stray (Parser.isAt kind >>= g) post := by
  refine .isAt kind (.of_pre False (fun ls hls => ?_) False.elim)
    (hg.mono (fun _ => And.right) fun _ _ => id)
  have hstray := hls.2.isStray
  rw [hls.1, hkind] at hstray
  cases hstray

theorem eat {g : Bool → Parser β} (hkind : kind.isStray = false)
    (hg : Ensures Stray (g false) post) : Ensures Stray (Parser.eat kind >>= g) post := by
  rw [Parser.eat, bind_assoc]
  exact isAt hkind hg

theorem expect {what : String} {g : TextRange → Parser β} (hkind : kind.isStray = false) :
    Ensures Stray (Parser.expect kind what >>= g) post := by
  rw [Parser.expect, bind_assoc]
  refine isAt hkind ?_
  exact .stops (.bind (.unexpected _) fun _ => False.elim)

/-- A step that only reads the cursor. -/
theorem reads {p : Parser α} (hp : ∀ c a c', p c = .ok a c' → c' = c)
    (hg : ∀ a, Ensures Stray (g a) post) : Ensures Stray (p >>= g) post :=
  Ensures.reads hp hg

theorem spanFrom {start : Nat} {g : Span → Parser β} (hg : ∀ span, Ensures Stray (g span) post) :
    Ensures Stray (Parser.spanFrom start >>= g) post :=
  reads (fun c a c' hrun => by cases hrun; rfl) hg

/-- In front of a stray list a repetition is over. -/
theorem repeatedAfterWithin (hkind : kind.isStray = false) (q : Parser β) (n : Nat) :
    Strays (Parser.repeatedAfterWithin kind q n) := by
  cases n with
  | zero => exact Ensures.throw _
  | succ n => exact eat hkind (pure _)

theorem repeatedAfter (hkind : kind.isStray = false) (q : Parser β) :
    Strays (Parser.repeatedAfter kind q) :=
  reads (fun c a c' hrun => by cases hrun; rfl) fun n => repeatedAfterWithin hkind q n

end Strays

/-! ## Rules in step -/

/-- Two rules that are entered in both texts, the first one in front of lexemes with a property, end
abreast with results that belong together, or the second one is lost, as its lexemes show. -/
def InStep (x : Header) (lost pre : List Lexeme → Prop) (p : Parser α) (q : Parser β)
    (rel : α → β → Prop) : Prop :=
  ∀ c c' a b d d', x.Linked c.rest c'.rest → pre c.rest → p c = .ok a d → q c' = .ok b d' →
    x.Linked d.rest d'.rest ∧ rel a b ∨ (∀ l ∈ d'.rest, l.Proper) ∧ lost d'.rest

/-- The second text is not lost. -/
def never (_ : List Lexeme) : Prop := False

theorem ensures_never (q : Parser β) (post : β → List Lexeme → Prop) : Ensures never q post :=
  .of_pre False (fun _ => id) False.elim

namespace InStep

variable {x : Header} {lost lost' pre pre' : List Lexeme → Prop} {p : Parser α} {q : Parser β}
  {f : α → Parser γ} {g : β → Parser δ} {mid mid' : α → β → Prop} {rel : γ → δ → Prop}
  {kind : TokenKind}

/-! ## Single steps -/

theorem mono (h : InStep x lost pre p q mid) (hpre : ∀ ls, pre' ls → pre ls)
    (hrel : ∀ a b, mid a b → mid' a b) : InStep x lost pre' p q mid' :=
  fun c c' a b d d' hlinked hc hrun hrun' =>
    (h c c' a b d d' hlinked (hpre _ hc) hrun hrun').imp_left fun hend => ⟨hend.1, hrel a b hend.2⟩

theorem relax (h : InStep x lost pre p q mid) (hrel : ∀ a b, mid a b → mid' a b) :
    InStep x lost pre p q mid' :=
  h.mono (fun _ => id) hrel

/-- A rule can be entered where more is known than it needs. -/
theorem enter (h : InStep x lost anywhere p q mid) : InStep x lost pre p q mid :=
  h.mono (fun _ _ => trivial) fun _ _ => id

theorem pure {a : α} {b : β} (h : mid a b) :
    InStep x lost pre (Pure.pure a : Parser α) (Pure.pure b : Parser β) mid := by
  rintro c c' _ _ _ _ hlinked - ⟨⟩ ⟨⟩
  exact Or.inl ⟨hlinked, h⟩

/-- A rule that returns nothing does not matter. -/
theorem stops (h : Yields p fun _ => False) : InStep x lost pre p q mid :=
  fun _ _ _ _ _ _ _ _ hrun _ => (h _ _ _ hrun).elim

theorem stops' (h : Yields q fun _ => False) : InStep x lost pre p q mid :=
  fun _ _ _ _ _ _ _ _ _ hrun' => (h _ _ _ hrun').elim

theorem unexpected (what : String) :
    InStep x lost pre (Parser.unexpected what : Parser α) q mid :=
  stops (.unexpected what)

/-- A rule that is never lost may stand where another one may be. -/
theorem weaken (h : InStep x never pre p q mid) : InStep x lost pre p q mid :=
  fun _ _ _ _ _ _ hlinked hc hrun hrun' =>
    (h _ _ _ _ _ _ hlinked hc hrun hrun').imp_right fun hlost => hlost.2.elim

/-- What is known of the result of the first rule alone. -/
theorem and {each : α → Prop} (h : InStep x lost pre p q mid)
    (hp : ∀ c a d, (∀ l ∈ c.rest, l.Proper) → pre c.rest → p c = .ok a d → each a) :
    InStep x lost pre p q fun a b => mid a b ∧ each a :=
  fun c c' a b d d' hlinked hc hrun hrun' =>
    (h c c' a b d d' hlinked hc hrun hrun').imp_left fun hend =>
      ⟨hend.1, hend.2, hp c a d hlinked.proper hc hrun⟩

/-- The lexemes may be named. -/
theorem of_forall (h : ∀ ls, pre ls → InStep x lost (· = ls) p q mid) :
    InStep x lost pre p q mid :=
  fun c c' a b d d' hlinked hc => h c.rest hc c c' a b d d' hlinked rfl

/-- Where the second rule is lost, what comes behind it has to be lost as well. -/
theorem bind (hp : InStep x lost' pre p q mid)
    (hf : ∀ a b, mid a b → InStep x lost anywhere (f a) (g b) rel)
    (hlost : ∀ b, Ensures lost' (g b) fun _ => lost) :
    InStep x lost pre (p >>= f) (q >>= g) rel := by
  intro c c' a b d d' hlinked hc hrun hrun'
  obtain ⟨a₁, d₁, hfirst, hsecond⟩ := exists_of_bind_eq_ok hrun
  obtain ⟨b₁, d₁', hfirst', hsecond'⟩ := exists_of_bind_eq_ok hrun'
  rcases hp _ _ _ _ _ _ hlinked hc hfirst hfirst' with ⟨hlinked₁, hmid⟩ | ⟨hproper, hend⟩
  · exact hf a₁ b₁ hmid _ _ _ _ _ _ hlinked₁ trivial hsecond hsecond'
  · exact Or.inr (hlost b₁ _ _ _ hproper hend hsecond')

/-- Behind a rule that is not lost nothing is. -/
theorem sure (hp : InStep x never pre p q mid)
    (hf : ∀ a b, mid a b → InStep x lost anywhere (f a) (g b) rel) :
    InStep x lost pre (p >>= f) (q >>= g) rel :=
  hp.bind hf fun _ => ensures_never _ _

theorem ite {c : Prop} [Decidable c] {p' : Parser α} {q' : Parser β}
    (hp : c → InStep x lost pre p q mid) (hq : ¬ c → InStep x lost pre p' q' mid) :
    InStep x lost pre (if c then p else p') (if c then q else q') mid := by
  split
  · exact hp ‹_›
  · exact hq ‹_›

/-- Steps that only read the cursors, whatever they find there. -/
theorem reads (hp : ∀ c a c', p c = .ok a c' → c' = c) (hq : ∀ c b c', q c = .ok b c' → c' = c)
    (hf : ∀ a b, InStep x lost pre (f a) (g b) rel) :
    InStep x lost pre (p >>= f) (q >>= g) rel := by
  intro c c' a b d d' hlinked hc hrun hrun'
  obtain ⟨a₁, d₁, hfirst, hsecond⟩ := exists_of_bind_eq_ok hrun
  obtain ⟨b₁, d₁', hfirst', hsecond'⟩ := exists_of_bind_eq_ok hrun'
  obtain rfl := hp _ _ _ hfirst
  obtain rfl := hq _ _ _ hfirst'
  exact hf a₁ b₁ _ _ _ _ _ _ hlinked hc hsecond hsecond'

theorem startOffset {f : Nat → Parser γ} {g : Nat → Parser δ}
    (hf : ∀ s s', InStep x lost pre (f s) (g s') rel) :
    InStep x lost pre (Parser.startOffset >>= f) (Parser.startOffset >>= g) rel :=
  reads (fun c a c' hrun => by cases hrun; rfl) (fun c a c' hrun => by cases hrun; rfl) hf

theorem rangeFrom {s s' : Nat} {f : TextRange → Parser γ} {g : TextRange → Parser δ}
    (hf : ∀ r r', InStep x lost pre (f r) (g r') rel) :
    InStep x lost pre (Parser.rangeFrom s >>= f) (Parser.rangeFrom s' >>= g) rel :=
  reads (fun c a c' hrun => by cases hrun; rfl) (fun c a c' hrun => by cases hrun; rfl) hf

theorem spanFrom {s s' : Nat} {f : Span → Parser γ} {g : Span → Parser δ}
    (hf : ∀ t t', InStep x lost pre (f t) (g t') rel) :
    InStep x lost pre (Parser.spanFrom s >>= f) (Parser.spanFrom s' >>= g) rel :=
  reads (fun c a c' hrun => by cases hrun; rfl) (fun c a c' hrun => by cases hrun; rfl) hf

/-- A span has the range that it is made of. -/
theorem spanOf {r r' : TextRange} {f : Span → Parser γ} {g : Span → Parser δ}
    (hf : ∀ t t', t.range = r → InStep x lost pre (f t) (g t') rel) :
    InStep x lost pre (Parser.spanOf r >>= f) (Parser.spanOf r' >>= g) rel := by
  intro c c' a b d d' hlinked hc hrun hrun'
  obtain ⟨t, c₁, hspan, hrun⟩ := exists_of_bind_eq_ok hrun
  obtain ⟨t', c₁', hspan', hrun'⟩ := exists_of_bind_eq_ok hrun'
  cases hspan
  cases hspan'
  exact hf _ _ rfl _ _ _ _ _ _ hlinked hc hrun hrun'

theorem rounds {f : Nat → Parser γ} {g : Nat → Parser δ}
    (hf : ∀ n m, InStep x lost pre (f n) (g m) rel) :
    InStep x lost pre (Parser.rounds >>= f) (Parser.rounds >>= g) rel :=
  reads (fun c a c' hrun => by cases hrun; rfl) (fun c a c' hrun => by cases hrun; rfl) hf

/-- A step that reads the same off both cursors. -/
theorem readsSame {f : α → Parser γ} {g : α → Parser δ} (read : List Lexeme → α)
    (hp : ∀ c, p c = .ok (read c.rest) c)
    (hread : ∀ ls ls', x.Linked ls ls' → read ls = read ls')
    (hf : ∀ a, InStep x lost pre (f a) (g a) rel) : InStep x lost pre (p >>= f) (p >>= g) rel := by
  intro c c' a b d d' hlinked hc hrun hrun'
  rw [bind_of_ok (hp c)] at hrun
  rw [bind_of_ok (hp c'), ← hread _ _ hlinked] at hrun'
  exact hf _ _ _ _ _ _ _ hlinked hc hrun hrun'

theorem nested (h : InStep x lost pre p q mid) :
    InStep x lost pre (Parser.nested p) (Parser.nested q) mid := by
  intro c c' a b d d' hlinked hc hrun hrun'
  obtain ⟨d₁, hinner, rfl⟩ := exists_of_nested_eq_ok hrun
  obtain ⟨d₁', hinner', rfl⟩ := exists_of_nested_eq_ok hrun'
  exact h (opened c) (opened c') a b d₁ d₁' hlinked hc hinner hinner'

/-! ## Looking -/

section Looking

variable {f : TokenKind → Parser γ} {g : TokenKind → Parser δ}

theorem peekOf (n : Nat)
    (hsame : ∀ ls ls', x.Linked ls ls' → pre ls → kindOf ls n = kindOf ls' n)
    (hf : ∀ kind, InStep x lost (fun ls => kindOf ls n = kind ∧ pre ls) (f kind) (g kind) rel) :
    InStep x lost pre (Parser.peek n >>= f) (Parser.peek n >>= g) rel := by
  intro c c' a b d d' hlinked hc hrun hrun'
  rw [bind_of_ok (peek_eq n c)] at hrun
  rw [bind_of_ok (peek_eq n c'), ← hsame _ _ hlinked hc] at hrun'
  exact hf _ (looked c) (looked c') _ _ _ _ hlinked ⟨rfl, hc⟩ hrun hrun'

theorem peek {n : Nat} (hn : n < 2)
    (hf : ∀ kind, InStep x lost (fun ls => kindOf ls n = kind ∧ pre ls) (f kind) (g kind) rel) :
    InStep x lost pre (Parser.peek n >>= f) (Parser.peek n >>= g) rel :=
  peekOf n (fun _ _ hlinked _ => hlinked.abreast.kindOf_eq hn) hf

theorem look
    (hf : ∀ kind, InStep x lost (fun ls => kindOf ls 0 = kind ∧ pre ls) (f kind) (g kind) rel) :
    InStep x lost pre (Parser.look >>= f) (Parser.look >>= g) rel :=
  peek Nat.two_pos hf

end Looking

section Asking

variable {f : Bool → Parser γ} {g : Bool → Parser δ}

/-- A question about the next lexeme, or the one behind it. -/
theorem isKind {n : Nat} (hn : n < 2) (kind : TokenKind)
    (htrue : InStep x lost (fun ls => kindOf ls n = kind ∧ pre ls) (f true) (g true) rel)
    (hfalse : InStep x lost (fun ls => kindOf ls n ≠ kind ∧ pre ls) (f false) (g false) rel) :
    InStep x lost pre ((do return (← Parser.peek n) == kind) >>= f)
      ((do return (← Parser.peek n) == kind) >>= g) rel := by
  rw [bind_assoc, bind_assoc]
  refine peek hn fun found => ?_
  rw [pure_bind, pure_bind]
  by_cases hfound : found = kind
  · rw [beq_iff_eq.2 hfound, hfound]
    exact htrue
  · rw [beq_eq_false_iff_ne.2 hfound]
    exact hfalse.mono (fun _ hls => ⟨hls.1 ▸ hfound, hls.2⟩) fun _ _ => id

theorem isAt (kind : TokenKind)
    (htrue : InStep x lost (fun ls => kindOf ls 0 = kind ∧ pre ls) (f true) (g true) rel)
    (hfalse : InStep x lost (fun ls => kindOf ls 0 ≠ kind ∧ pre ls) (f false) (g false) rel) :
    InStep x lost pre (Parser.isAt kind >>= f) (Parser.isAt kind >>= g) rel :=
  isKind Nat.two_pos kind htrue hfalse

theorem isFollowedBy (kind : TokenKind)
    (htrue : InStep x lost (fun ls => kindOf ls 1 = kind ∧ pre ls) (f true) (g true) rel)
    (hfalse : InStep x lost (fun ls => kindOf ls 1 ≠ kind ∧ pre ls) (f false) (g false) rel) :
    InStep x lost pre (Parser.isFollowedBy kind >>= f) (Parser.isFollowedBy kind >>= g) rel :=
  isKind Nat.one_lt_two kind htrue hfalse

theorem isAtPair (kind following : TokenKind)
    (htrue : InStep x lost (fun ls => (kindOf ls 0 = kind ∧ kindOf ls 1 = following) ∧ pre ls)
      (f true) (g true) rel)
    (hfalse : InStep x lost (fun ls => ¬ (kindOf ls 0 = kind ∧ kindOf ls 1 = following) ∧ pre ls)
      (f false) (g false) rel) :
    InStep x lost pre (Parser.isAtPair kind following >>= f) (Parser.isAtPair kind following >>= g)
      rel := by
  rw [Parser.isAtPair, bind_assoc, bind_assoc]
  refine isAt kind (isFollowedBy following ?_ ?_) ?_
  · exact htrue.mono (fun _ hls => ⟨⟨hls.2.1, hls.1⟩, hls.2.2⟩) fun _ _ => id
  · exact hfalse.mono (fun _ hls => ⟨fun hpair => hls.1 hpair.2, hls.2.2⟩) fun _ _ => id
  · exact hfalse.mono (fun _ hls => ⟨fun hpair => hls.1 hpair.1, hls.2⟩) fun _ _ => id

end Asking

/-! ## Taking -/

section Taking

variable {f : String → Parser γ} {g : String → Parser δ}

/-- A lexeme that is taken is the same in both texts.  If it was that of the header, the name comes
next, and then the list in the second text. -/
theorem bumpOr
    (hf : ∀ l : Lexeme, l.Proper →
      InStep x lost (fun ls => pre (l :: ls)) (f l.text) (g l.text) rel)
    (hheader : pre x.without → ∀ c c' a b d d', (∀ l ∈ c.rest, l.Proper) →
      (∀ l ∈ c'.rest, l.Proper) → c.rest = x.written ++ x.rest →
      faces c'.rest = faces (x.written ++ (x.list ++ x.rest)) → f x.key.text c = .ok a d →
      g x.key.text c' = .ok b d' →
        x.Linked d.rest d'.rest ∧ rel a b ∨ (∀ l ∈ d'.rest, l.Proper) ∧ lost d'.rest) :
    InStep x lost pre (Parser.bump >>= f) (Parser.bump >>= g) rel := by
  intro c c' a b d d' hlinked hc hrun hrun'
  obtain ⟨text, d₁, hbump, hrun⟩ := exists_of_bind_eq_ok hrun
  obtain ⟨text', d₁', hbump', hrun'⟩ := exists_of_bind_eq_ok hrun'
  obtain ⟨l, hrest, rfl, -⟩ := taken_of_bump hbump
  obtain ⟨l', hrest', rfl, -⟩ := taken_of_bump hbump'
  rw [hrest] at hc
  obtain ⟨hproper, hproper', habreast⟩ := hlinked
  rw [hrest] at hproper habreast
  rw [hrest'] at hproper' habreast
  obtain ⟨hl, hrest⟩ := List.forall_mem_cons.1 hproper
  have hrest' := (List.forall_mem_cons.1 hproper').2
  obtain ⟨k, rest', heq, hface, hnext⟩ := habreast.tail
  obtain ⟨rfl, rfl⟩ := List.cons.inj heq
  rw [Lexeme.text_eq_of_face hface] at hrun'
  rcases hnext with hnext | ⟨hwithout, hname⟩
  · exact hf l hl _ _ _ _ _ _ ⟨hrest, hrest', hnext⟩ hc hrun hrun'
  · obtain ⟨hkey, hwritten⟩ := List.cons.inj hwithout
    rw [hwithout] at hc
    rw [hkey] at hrun hrun'
    exact hheader hc _ _ _ _ _ _ hrest hrest' hwritten hname hrun hrun'

theorem bump (hpre : ∀ ls, pre ls → (kindOf ls 0).isKey = false)
    (hf : ∀ l : Lexeme, l.Proper →
      InStep x lost (fun ls => pre (l :: ls)) (f l.text) (g l.text) rel) :
    InStep x lost pre (Parser.bump >>= f) (Parser.bump >>= g) rel :=
  bumpOr hf fun hwithout => absurd rfl (Header.ne_without (hpre _ hwithout))

/-- The lexeme behind the next one is no name. -/
theorem bumpBefore (hpre : ∀ ls, pre ls → (kindOf ls 1).isStray = false)
    (hf : ∀ l : Lexeme, l.Proper →
      InStep x lost (fun ls => pre (l :: ls)) (f l.text) (g l.text) rel) :
    InStep x lost pre (Parser.bump >>= f) (Parser.bump >>= g) rel :=
  bumpOr hf fun hwithout => absurd rfl (Header.ne_without_of_second (hpre _ hwithout))

/-- The next lexeme is known to be of a kind. -/
theorem bumpAt (kind : TokenKind) (hkind : kind.isKey = false)
    (hpre : ∀ ls, pre ls → kindOf ls 0 = kind)
    (hf : ∀ text, InStep x lost anywhere (f text) (g text) rel) :
    InStep x lost pre (Parser.bump >>= f) (Parser.bump >>= g) rel :=
  bump (fun _ hls => by rw [hpre _ hls, hkind]) fun l _ => (hf l.text).enter

/-- Whatever the next lexeme is, it may be that of the header.  Then the list is stray. -/
theorem bumpAny (hf : ∀ text, InStep x lost anywhere (f text) (g text) rel)
    (hg : ∀ text, Ensures AtName (g text) fun _ => lost) :
    InStep x lost pre (Parser.bump >>= f) (Parser.bump >>= g) rel := by
  refine bumpOr (fun l _ => (hf l.text).enter) ?_
  intro _ c c' a b d d' _ hproper' _ hname _ hrun'
  exact Or.inr (hg _ _ _ _ hproper' (atName_of_faces hname) hrun')

theorem eat {f : Bool → Parser γ} {g : Bool → Parser δ} (hkind : kind.isKey = false)
    (htrue : InStep x lost anywhere (f true) (g true) rel)
    (hfalse : InStep x lost (fun ls => kindOf ls 0 ≠ kind ∧ pre ls) (f false) (g false) rel) :
    InStep x lost pre (Parser.eat kind >>= f) (Parser.eat kind >>= g) rel := by
  rw [Parser.eat, bind_assoc, bind_assoc]
  refine isAt kind ?_ hfalse
  simp only [if_true, bind_assoc, pure_bind]
  exact bumpAt kind hkind (fun _ => And.left) fun _ => htrue

theorem expect {what : String} {f : TextRange → Parser γ} {g : TextRange → Parser δ}
    (hkind : kind.isKey = false) (hf : ∀ r r', InStep x lost anywhere (f r) (g r') rel) :
    InStep x lost pre (Parser.expect kind what >>= f) (Parser.expect kind what >>= g) rel := by
  rw [Parser.expect, bind_assoc, bind_assoc]
  refine isAt kind ?_ (stops (.bind (.unexpected _) fun _ => False.elim))
  simp only [if_true, bind_assoc, pure_bind]
  refine reads (fun c a c' hrun => by cases hrun; rfl) (fun c a c' hrun => by cases hrun; rfl)
    fun r r' => ?_
  exact bumpAt kind hkind (fun _ => And.left) fun _ => hf r r'

end Taking

/-! ## Repetition -/

section Repetition

variable {each : α → β → Prop} {separator close mark : TokenKind}

/-- A repetition either stops after this round or goes on in another one. -/
theorem cons {p : Parser (List α)} {q : Parser (List β)} {a : α} {b : β} (hab : each a b)
    (h : InStep x Stray anywhere p q (List.Forall₂ each)) :
    InStep x Stray pre (do return a :: (← p)) (do return b :: (← q)) (List.Forall₂ each) :=
  h.enter.bind (fun _ _ hrest => pure (.cons hab hrest)) fun _ => Strays.pure _

theorem singleton {a : α} {b : β} (hab : each a b) :
    InStep x Stray pre (Pure.pure [a] : Parser (List α)) (Pure.pure [b]) (List.Forall₂ each) :=
  pure (.cons hab .nil)

variable (h : InStep x Stray anywhere p q each)
include h

/-- What may come behind an item: a separator and further items. -/
theorem item (hkey : separator.isKey = false) (hstray : separator.isStray = false)
    {more : Parser (List α)} {more' : Parser (List β)}
    (hmore : InStep x Stray anywhere more more' (List.Forall₂ each)) :
    InStep x Stray pre
      (do
        let a ← p
        if ← Parser.eat separator then return a :: (← more) else return [a])
      (do
        let b ← q
        if ← Parser.eat separator then return b :: (← more') else return [b])
      (List.Forall₂ each) :=
  h.enter.bind (fun _ _ hab => eat hkey (cons hab hmore) (singleton hab))
    fun _ => Strays.eat hstray (Strays.pure _)

theorem separatedWithin (hkey : separator.isKey = false) (hstray : separator.isStray = false)
    (n m : Nat) :
    InStep x Stray anywhere (Parser.separatedWithin separator p n)
      (Parser.separatedWithin separator q m) (List.Forall₂ each) := by
  induction n generalizing m with
  | zero => exact stops (.throw _)
  | succ n ih =>
    cases m with
    | zero => exact stops' (.throw _)
    | succ m => exact h.item hkey hstray (ih m)

theorem separated (hkey : separator.isKey = false) (hstray : separator.isStray = false) :
    InStep x Stray pre (Parser.separated separator p) (Parser.separated separator q)
      (List.Forall₂ each) :=
  rounds fun n m => (h.separatedWithin hkey hstray n m).enter

theorem separatedUntilWithin (hkey : separator.isKey = false) (hstray : separator.isStray = false)
    (n m : Nat) :
    InStep x Stray anywhere (Parser.separatedUntilWithin close separator p n)
      (Parser.separatedUntilWithin close separator q m) (List.Forall₂ each) := by
  induction n generalizing m with
  | zero => exact stops (.throw _)
  | succ n ih =>
    cases m with
    | zero => exact stops' (.throw _)
    | succ m => exact isAt close (pure .nil) (h.item hkey hstray (ih m))

theorem separatedUntil (hkey : separator.isKey = false) (hstray : separator.isStray = false) :
    InStep x Stray pre (Parser.separatedUntil close separator p)
      (Parser.separatedUntil close separator q) (List.Forall₂ each) :=
  rounds fun n m => (h.separatedUntilWithin hkey hstray n m).enter

theorem repeatedAfterWithin (hkey : mark.isKey = false) (hstray : mark.isStray = false)
    (n m : Nat) :
    InStep x Stray anywhere (Parser.repeatedAfterWithin mark p n)
      (Parser.repeatedAfterWithin mark q m) (List.Forall₂ each) := by
  induction n generalizing m with
  | zero => exact stops (.throw _)
  | succ n ih =>
    cases m with
    | zero => exact stops' (.throw _)
    | succ m =>
      refine eat hkey ?_ (pure .nil)
      exact h.bind (fun _ _ hab => cons hab (ih m)) fun _ =>
        (Strays.repeatedAfterWithin hstray q m).bind fun _ => Strays.pure _

theorem repeatedAfter (hkey : mark.isKey = false) (hstray : mark.isStray = false) :
    InStep x Stray pre (Parser.repeatedAfter mark p) (Parser.repeatedAfter mark q)
      (List.Forall₂ each) :=
  rounds fun n m => (h.repeatedAfterWithin hkey hstray n m).enter

end Repetition

end InStep

end Parser

end RubySig
