import RubySig.Proofs.Layout.Relocation
import RubySig.Proofs.Parser.Ensures

/-!
# Rules on two texts

A rule is carried over by a relocation if, entered in front of lexemes of one text and in front of
those that correspond to them in the other one, it does the same twice: it returns the same but for
places, or stops for the same reason at corresponding lexemes.

* `Relocation.Abreast`: cursors in front of lexemes that correspond.
* `Parser.Carried`: a rule and the same rule on the other text.
* `Carried.pure`, `Carried.bind`, `Carried.ite`: the steps from which rules are built.
* `Carried.peek`, `Carried.startOffset`, `Carried.spanFrom`: looking and places.
* `Carried.bump`, `Carried.bumpTouching`: taking, and the questions about the layout.
* `Carried.separated`, `Carried.separatedUntil`, `Carried.repeatedAfter`: repetition.
-/

namespace RubySig

/-! ## Cursors -/

namespace Relocation

variable {x : Relocation}

/-- Two cursors in front of lexemes of two texts that correspond.  Of the gap in front of the next
lexeme nothing is known, those behind it are alike. -/
structure Abreast (x : Relocation) (c c' : Cursor) : Prop where
  source : c'.source = x.source
  textEnd : c'.textEnd = x.start c.textEnd
  starts : x.Starts c.textEnd
  rest : List.Forall₂ x.Moves c.rest c'.rest
  gaps : c.rest.tail.map Lexeme.gapFace = c'.rest.tail.map Lexeme.gapFace
  lastEnd : c'.lastEnd = x.stop c.lastEnd
  stops : x.Stops c.lastEnd
  fuel : c'.fuel = c.fuel

/-- The range of the next lexeme, or the end of the text. -/
def rangeAt (c : Cursor) : TextRange := (c.rest.head?.map (·.range)).getD (.emptyAt c.textEnd)

namespace Abreast

variable {c c' : Cursor} (h : x.Abreast c c')
include h

theorem looked : x.Abreast (Parser.looked c) (Parser.looked c') :=
  ⟨h.source, h.textEnd, h.starts, h.rest, h.gaps, h.lastEnd, h.stops, h.fuel⟩

theorem opened : x.Abreast (Parser.opened c) (Parser.opened c') :=
  ⟨h.source, h.textEnd, h.starts, h.rest, h.gaps, h.lastEnd, h.stops, h.fuel⟩

theorem closed : x.Abreast (Parser.closed c) (Parser.closed c') :=
  ⟨h.source, h.textEnd, h.starts, h.rest, h.gaps, h.lastEnd, h.stops, h.fuel⟩

theorem behind {l l' : Lexeme} {rest rest' : List Lexeme} (hrest : c.rest = l :: rest)
    (hrest' : c'.rest = l' :: rest') :
    x.Abreast (Parser.behind c l rest) (Parser.behind c' l' rest') := by
  obtain ⟨hl, hmore⟩ : x.Moves l l' ∧ List.Forall₂ x.Moves rest rest' :=
    List.forall₂_cons.1 (hrest ▸ hrest' ▸ h.rest)
  have hgaps := h.gaps
  rw [hrest, hrest', List.tail_cons, List.tail_cons] at hgaps
  refine ⟨h.source, h.textEnd, h.starts, hmore, ?_, hl.stop, hl.stops, ?_⟩
  · show rest.tail.map _ = rest'.tail.map _
    rw [List.map_tail, hgaps, List.map_tail]
  · show c'.fuel.map _ = c.fuel.map _
    rw [h.fuel]

theorem kindOf_eq (n : Nat) : kindOf c'.rest n = kindOf c.rest n := by
  have hkinds : c'.rest.map (·.kind) = c.rest.map (·.kind) :=
    (map_eq_iff_forall₂.2 (h.rest.imp fun _ _ hl => hl.kind.symm)).symm
  rw [kindOf, kindOf, ← List.getElem?_map, hkinds, List.getElem?_map]

/-- What is read off the next lexeme, or off the end of the text. -/
theorem getD_head {α β : Type} {read : Lexeme → α} {read' : Lexeme → β} {a : α} {b : β}
    {R : α → β → Prop} (hread : ∀ l l', x.Moves l l' → R (read l) (read' l'))
    (hab : R a b) :
    R ((c.rest.head?.map read).getD a) ((c'.rest.head?.map read').getD b) := by
  have hrest := h.rest
  generalize c.rest = ls, c'.rest = ls' at hrest
  cases hrest with
  | nil => exact hab
  | cons hl _ => exact hread _ _ hl

theorem range_eq : rangeAt c' = x.range (rangeAt c) ∧
    (rangeAt c').start = x.start (rangeAt c).start ∧ x.Starts (rangeAt c).start := by
  refine h.getD_head (R := fun r r' => r' = x.range r ∧ r'.start = x.start r.start ∧
    x.Starts r.start) (fun l l' hl => ⟨hl.range, hl.start, hl.starts⟩) ?_
  rw [h.textEnd]
  exact ⟨(x.range_emptyAt _).symm, rfl, h.starts⟩

end Abreast

/-- How a rule ends on two texts. -/
inductive Ends {α β : Type} (x : Relocation) (m : α → β) :
    EStateM.Result Stop Cursor α → EStateM.Result Stop Cursor β → Prop
  /-- It returns something. -/
  | ok {a : α} {c c' : Cursor} (h : x.Abreast c c') : Ends x m (.ok a c) (.ok (m a) c')
  /-- It stops. -/
  | error {stop : Stop} {c c' : Cursor} : Ends x m (.error stop c) (.error (x.halt stop) c')

end Relocation

namespace Parser

variable {α β γ δ : Type} {x : Relocation}

/-- Two rules that do the same on two texts.  What the second one returns is what the first one
returns, changed by a function. -/
def Carried (x : Relocation) (m : α → β) (p : Parser α) (q : Parser β) : Prop :=
  ∀ c c', x.Abreast c c' → x.Ends m (p c) (q c')

namespace Carried

variable {p : Parser α} {q : Parser β} {f : α → Parser γ} {g : β → Parser δ} {k : α → β}
  {m : γ → δ}

/-! ## Single steps -/

theorem pure {a : α} {b : β} (h : k a = b) :
    Carried x k (Pure.pure a : Parser α) (Pure.pure b : Parser β) := by
  subst h
  exact fun c c' hc => .ok hc

theorem throw (stop : Stop) :
    Carried x k (MonadExcept.throw stop : Parser α) (MonadExcept.throw (x.halt stop)) :=
  fun _ _ _ => .error

theorem bind (hp : Carried x k p q) (hf : ∀ a, Carried x m (f a) (g (k a))) :
    Carried x m (p >>= f) (q >>= g) := by
  intro c c' hc
  have hends := hp c c' hc
  generalize hrun : p c = r, hrun' : q c' = r' at hends
  cases hends with
  | ok hd =>
    rw [bind_of_ok hrun, bind_of_ok hrun']
    exact hf _ _ _ hd
  | error =>
    rw [bind_of_error hrun, bind_of_error hrun']
    exact .error

/-- A rule that returns no places. -/
theorem same {p q : Parser α} {g : α → Parser δ} (hp : Carried x id p q)
    (hf : ∀ a, Carried x m (f a) (g a)) : Carried x m (p >>= f) (q >>= g) :=
  hp.bind hf

theorem ite {c : Prop} [Decidable c] {p' : Parser α} {q' : Parser β} (hp : c → Carried x k p q)
    (hq : ¬ c → Carried x k p' q') :
    Carried x k (if c then p else p') (if c then q else q') := by
  split
  · exact hp ‹_›
  · exact hq ‹_›

/-- A step that only reads the cursor. -/
theorem reads {read : Cursor → α} {read' : Cursor → β} (hp : ∀ c, p c = .ok (read c) c)
    (hq : ∀ c, q c = .ok (read' c) c) (h : ∀ c c', x.Abreast c c' → k (read c) = read' c') :
    Carried x k p q := by
  intro c c' hc
  rw [hp, hq, ← h c c' hc]
  exact .ok hc

theorem get {f : Cursor → Parser γ} {g : Cursor → Parser δ}
    (hf : ∀ c c', x.Abreast c c' → Carried x m (f c) (g c')) :
    Carried x m (MonadState.get >>= f) (MonadState.get >>= g) :=
  fun c c' hc => hf c c' hc c c' hc

theorem countLook : Carried x id Parser.countLook Parser.countLook := fun _ _ hc => .ok hc.looked

theorem atEnd : Carried x id Parser.atEnd Parser.atEnd :=
  reads (fun _ => rfl) (fun _ => rfl) fun c c' hc => by
    rw [id, Bool.eq_iff_iff, List.isEmpty_iff_length_eq_zero, List.isEmpty_iff_length_eq_zero,
      hc.rest.length_eq]

theorem currentText : Carried x id Parser.currentText Parser.currentText :=
  reads (fun _ => rfl) (fun _ => rfl) fun _ _ hc =>
    hc.getD_head (R := Eq) (fun _ _ hl => hl.text.symm) rfl

theorem rounds : Carried x id Parser.rounds Parser.rounds :=
  reads (fun _ => rfl) (fun _ => rfl) fun _ _ hc => congrArg (· + 1) hc.rest.length_eq

theorem nextOnSameLine : Carried x id Parser.nextOnSameLine Parser.nextOnSameLine :=
  reads (fun _ => rfl) (fun _ => rfl) fun c c' hc => by
    have hface : ∀ ls : List Lexeme, (ls[1]?.map fun l => !l.onNewLine).getD false =
        ((ls.tail.map Lexeme.gapFace)[0]?.map fun face => !face.2).getD false := fun ls => by
      rw [List.getElem?_map, Option.map_map, List.getElem?_tail]
      rfl
    rw [id, hface, hface, hc.gaps]

/-! ## Looking -/

theorem peek (n : Nat) : Carried x id (Parser.peek n) (Parser.peek n) := by
  intro c c' hc
  rw [peek_eq, peek_eq, hc.kindOf_eq]
  exact .ok hc.looked

theorem look : Carried x id Parser.look Parser.look := peek 0

theorem isAt (kind : TokenKind) : Carried x id (Parser.isAt kind) (Parser.isAt kind) :=
  look.same fun _ => pure rfl

theorem isFollowedBy (kind : TokenKind) :
    Carried x id (Parser.isFollowedBy kind) (Parser.isFollowedBy kind) :=
  (peek 1).same fun _ => pure rfl

theorem isAtPair (kind following : TokenKind) :
    Carried x id (Parser.isAtPair kind following) (Parser.isAtPair kind following) :=
  (isAt kind).same fun _ => ite (fun _ => isFollowedBy following) fun _ => pure rfl

theorem assertAt (kind : TokenKind) :
    Carried x id (Parser.assertAt kind) (Parser.assertAt kind) :=
  look.same fun _ => ite (fun _ => throw _) fun _ => pure rfl

/-! ## Places -/

theorem currentRange : Carried x x.range Parser.currentRange Parser.currentRange :=
  reads (fun _ => rfl) (fun _ => rfl) fun _ _ hc => hc.range_eq.1.symm

/-- Something can start where the next lexeme does. -/
theorem startOffset {f : Nat → Parser γ} {g : Nat → Parser δ}
    (hf : ∀ start, x.Starts start → Carried x m (f start) (g (x.start start))) :
    Carried x m (Parser.startOffset >>= f) (Parser.startOffset >>= g) := by
  intro c c' hc
  have hoffset : ∀ c, Parser.startOffset c = .ok (Relocation.rangeAt c).start c := fun _ => rfl
  obtain ⟨-, hstart, hstarts⟩ := hc.range_eq
  rw [bind_of_ok (hoffset c), bind_of_ok (hoffset c'), hstart]
  exact hf _ hstarts _ _ hc

theorem spanOf (range : TextRange) :
    Carried x x.span (Parser.spanOf range) (Parser.spanOf (x.range range)) :=
  reads (fun _ => rfl) (fun _ => rfl) fun _ _ hc => congrArg (Span.mk · _) hc.source.symm

theorem rangeFrom {start : Nat} (h : x.Starts start) :
    Carried x x.range (Parser.rangeFrom start) (Parser.rangeFrom (x.start start)) :=
  reads (fun _ => rfl) (fun _ => rfl) fun _ _ hc => by
    rw [x.range_max h hc.stops, hc.lastEnd]

theorem spanFrom {start : Nat} (h : x.Starts start) :
    Carried x x.span (Parser.spanFrom start) (Parser.spanFrom (x.start start)) :=
  (rangeFrom h).bind fun range => spanOf range

/-! ## Stopping -/

theorem failAt (range : TextRange) (message : String) :
    Carried x k (Parser.failAt range message) (Parser.failAt (x.range range) message) :=
  throw _

theorem unexpected (what : String) :
    Carried x k (Parser.unexpected what) (Parser.unexpected what) := by
  refine atEnd.same fun _ => ite (fun _ => currentRange.bind fun range => failAt range _)
    fun _ => countLook.same fun _ => get fun c c' hc => ?_
  have hfound : (c'.rest.head?.map describe).getD "" = (c.rest.head?.map describe).getD "" :=
    hc.getD_head (R := fun s s' => s' = s)
      (fun l l' hl => by rw [describe, describe, hl.kind, hl.text]) rfl
  rw [hfound]
  exact currentRange.bind fun range => failAt range _

theorem tooDeep : Carried x k Parser.tooDeep Parser.tooDeep := throw _

/-! ## Taking -/

/-- What comes behind a lexeme can ask about the gap behind it. -/
theorem bumpThen {f : String → Parser γ} {g : String → Parser δ}
    (hf : ∀ text c c', x.Abreast c c' →
      c.rest.map Lexeme.gapFace = c'.rest.map Lexeme.gapFace → x.Ends m (f text c) (g text c')) :
    Carried x m (Parser.bump >>= f) (Parser.bump >>= g) := by
  intro c c' hc
  cases hrest : c.rest with
  | nil =>
    have hrest' : c'.rest = [] := List.forall₂_nil_left_iff.1 (hrest ▸ hc.rest)
    rw [bind_of_error (bump_of_nil hrest), bind_of_error (bump_of_nil hrest')]
    exact .error
  | cons l rest =>
    obtain ⟨l', rest', hl, -, hrest'⟩ := List.forall₂_cons_left_iff.1 (hrest ▸ hc.rest)
    by_cases hfuel : c.fuel = some 0
    · have hmore : ∀ {c : Cursor} {l rest}, c.rest = l :: rest → c.rest ≠ [] := fun hcons =>
        hcons ▸ List.cons_ne_nil _ _
      rw [bind_of_error (bump_of_exhausted (hmore hrest) hfuel),
        bind_of_error (bump_of_exhausted (hmore hrest') (hc.fuel.trans hfuel))]
      exact .error
    · rw [bind_of_ok (bump_of_cons hrest hfuel),
        bind_of_ok (bump_of_cons hrest' (hc.fuel ▸ hfuel)), hl.text]
      refine hf _ _ _ (hc.behind hrest hrest') ?_
      have hgaps := hc.gaps
      rwa [hrest, hrest'] at hgaps

theorem bump : Carried x id Parser.bump Parser.bump := by
  rw [← bind_pure Parser.bump]
  exact bumpThen fun _ _ _ hc _ => .ok hc

/-- The next lexeme is asked whether it touches the one before it only where that has just been
taken. -/
theorem bumpTouching {accept : TokenKind → Bool} {f : String → Bool → Parser γ}
    {g : String → Bool → Parser δ} (hf : ∀ text b, Carried x m (f text b) (g text b)) :
    Carried x m (Parser.bump >>= fun text => isTouching accept >>= f text)
      (Parser.bump >>= fun text => isTouching accept >>= g text) := by
  refine bumpThen fun text c c' hc hgaps => ?_
  have htouching : ∀ c, isTouching accept c =
      .ok (accept (kindOf c.rest 0) &&
        ((c.rest.map Lexeme.gapFace).head?.map fun face => !face.1).getD false) (looked c) := by
    intro c
    have hlook : Parser.look c = .ok (kindOf c.rest 0) (looked c) := peek_eq 0 c
    rw [isTouching, bind_of_ok hlook]
    cases accept (kindOf c.rest 0) with
    | false => rfl
    | true =>
      rw [if_pos rfl, Bool.true_and, List.head?_map, Option.map_map]
      rfl
  rw [bind_of_ok (htouching c), bind_of_ok (htouching c'), hc.kindOf_eq, hgaps]
  exact hf _ _ _ _ hc.looked

theorem eat (kind : TokenKind) : Carried x id (Parser.eat kind) (Parser.eat kind) :=
  (isAt kind).same fun _ => ite (fun _ => bump.same fun _ => pure rfl) fun _ => pure rfl

theorem expect (kind : TokenKind) (what : String) :
    Carried x x.range (Parser.expect kind what) (Parser.expect kind what) :=
  (isAt kind).same fun _ =>
    ite (fun _ => currentRange.bind fun _ => bump.same fun _ => pure rfl) fun _ => unexpected what

theorem nested (h : Carried x k p q) : Carried x k (Parser.nested p) (Parser.nested q) := by
  intro c c' hc
  have hends := h _ _ hc.opened
  generalize hrun : p (opened c) = r, hrun' : q (opened c') = r' at hends
  cases hends with
  | ok hd =>
    rw [nested_of_ok hrun, nested_of_ok hrun']
    exact .ok hd.closed
  | error =>
    rw [nested_of_error hrun, nested_of_error hrun']
    exact .error

/-! ## Repetition -/

section Repetition

variable (h : Carried x k p q) {separator close mark : TokenKind}
include h

theorem separatedWithin (n : Nat) :
    Carried x (List.map k) (Parser.separatedWithin separator p n)
      (Parser.separatedWithin separator q n) := by
  induction n with
  | zero => exact throw _
  | succ n ih =>
    exact h.bind fun _ => (eat separator).same fun _ =>
      ite (fun _ => ih.bind fun _ => pure rfl) fun _ => pure rfl

theorem separated :
    Carried x (List.map k) (Parser.separated separator p) (Parser.separated separator q) :=
  rounds.same h.separatedWithin

theorem separatedUntilWithin (n : Nat) :
    Carried x (List.map k) (Parser.separatedUntilWithin close separator p n)
      (Parser.separatedUntilWithin close separator q n) := by
  induction n with
  | zero => exact throw _
  | succ n ih =>
    exact (isAt close).same fun _ => ite (fun _ => pure rfl) fun _ => h.bind fun _ =>
      (eat separator).same fun _ => ite (fun _ => ih.bind fun _ => pure rfl) fun _ => pure rfl

theorem separatedUntil :
    Carried x (List.map k) (Parser.separatedUntil close separator p)
      (Parser.separatedUntil close separator q) :=
  rounds.same h.separatedUntilWithin

theorem repeatedAfterWithin (n : Nat) :
    Carried x (List.map k) (Parser.repeatedAfterWithin mark p n)
      (Parser.repeatedAfterWithin mark q n) := by
  induction n with
  | zero => exact throw _
  | succ n ih =>
    exact (eat mark).same fun _ =>
      ite (fun _ => h.bind fun _ => ih.bind fun _ => pure rfl) fun _ => pure rfl

theorem repeatedAfter :
    Carried x (List.map k) (Parser.repeatedAfter mark p) (Parser.repeatedAfter mark q) :=
  rounds.same h.repeatedAfterWithin

end Repetition

end Carried

end Parser

end RubySig
