import RubySig.Proofs.Parser.Header
import RubySig.Proofs.Parser.Unrolled

/-!
# What a syntax error blames

A rule that has a syntax error blames the first lexeme that cannot stand where it stands: what was
taken before it can be completed.  Two runs are compared for this, the one that has the error and
one over the lexemes that were taken and some more.  In both runs a rule stands in front of what is
done after it, since that must be completed, too.

* `Filler`, `shown`: the lexemes that complete a text.
* `Parser.Idles`, `Parser.Asks`: steps that take nothing.
* `Parser.Accepts`: a rule that has no syntax error in front of some lexemes.
* `Parser.Blame`, `Parser.Blames`: a rule that blames a lexeme in front of which it can be
  completed.
* `Parser.Viable`: a rule that can be completed wherever it stops.
* `Blames.take`, `Viable.expect`, `Viable.eat`: taking lexemes.
-/

namespace RubySig

/-! ## Completions -/

/-- A lexeme that is written to complete a text. -/
inductive Filler
  | parenOpen | parenClose | bracketClose | braceClose | colon | dot | arrow | fatArrow | equals
  | ended | self | void | upper | interface | lower
  /-- A closing bracket that touches what stands in front of it. -/
  | touching
  deriving Repr, DecidableEq

namespace Filler

/-- The kind of the lexeme. -/
def kind : Filler → TokenKind
  | parenOpen => .parenOpen
  | parenClose => .parenClose
  | bracketClose => .bracketClose
  | braceClose => .braceClose
  | colon => .colon
  | dot => .dot
  | arrow => .arrow
  | fatArrow => .fatArrow
  | equals => .equals
  | ended => .keyword .kwEnd
  | self => .keyword .kwSelf
  | void => .keyword .kwVoid
  | upper => .upperIdent
  | interface => .interfaceIdent
  | lower => .lowerIdent
  | touching => .bracketClose

/-- How it is written. -/
def text : Filler → String
  | parenOpen => "("
  | parenClose => ")"
  | bracketClose => "]"
  | braceClose => "\x7d"
  | colon => ":"
  | dot => "."
  | arrow => "->"
  | fatArrow => "=>"
  | equals => "="
  | ended => "end"
  | self => "self"
  | void => "void"
  | upper => "A"
  | interface => "_A"
  | lower => "a"
  | touching => "]"

/-- Whether it stands on a line of its own. -/
def onNewLine (f : Filler) : Bool := f != .touching

/-- What the grammar sees of it. -/
def face (f : Filler) : Face := (f.kind, f.text, f.onNewLine, f.onNewLine)

end Filler

/-- What the grammar sees of a completion. -/
def shown (w : List Filler) : List Face := w.map Filler.face

/-- The kind that is seen at a place, if there is a lexeme. -/
def seen (s : List Face) (n : Nat) : TokenKind := (s[n]?.map (·.1)).getD .endOfText

@[simp] theorem seen_zero (f : Face) (s : List Face) : seen (f :: s) 0 = f.1 := rfl

@[simp] theorem seen_succ (f : Face) (s : List Face) (n : Nat) :
    seen (f :: s) (n + 1) = seen s n := rfl

@[simp] theorem seen_shown_zero (f : Filler) (w : List Filler) :
    seen (shown (f :: w)) 0 = f.kind :=
  rfl

theorem seen_faces (ls : List Lexeme) (n : Nat) : seen (faces ls) n = kindOf ls n := by
  rw [seen, getElem?_faces, kindOf, Option.map_map]
  rfl

/-- Two texts that begin with the same lexeme. -/
def Alike (ls s : List Face) : Prop := ∃ f ls' s', ls = f :: ls' ∧ s = f :: s'

theorem Alike.seen_eq {ls s : List Face} (h : Alike ls s) : seen s 0 = seen ls 0 := by
  obtain ⟨f, ls', s', rfl, rfl⟩ := h
  rfl

theorem exists_cons_of_seen {ls : List Face} {kind : TokenKind} (h : seen ls 0 = kind)
    (hkind : kind ≠ .endOfText) : ∃ f rest, ls = f :: rest ∧ f.1 = kind := by
  cases ls with
  | nil => exact absurd h.symm hkind
  | cons f rest => exact ⟨f, rest, rfl, h⟩

theorem exists_cons_of_ne {ls : List Face} (h : seen ls 0 ≠ .endOfText) :
    ∃ f rest, ls = f :: rest := by
  obtain ⟨f, rest, hls, -⟩ := exists_cons_of_seen rfl h
  exact ⟨f, rest, hls⟩

theorem exists_cons_cons_of_seen {ls : List Face} {kind following : TokenKind}
    (h : seen ls 0 = kind) (h' : seen ls 1 = following) (hkind : kind ≠ .endOfText)
    (hfollowing : following ≠ .endOfText) :
    ∃ f g rest, ls = f :: g :: rest ∧ f.1 = kind ∧ g.1 = following := by
  obtain ⟨f, rest, rfl, hf⟩ := exists_cons_of_seen h hkind
  have hnext : seen rest 0 = following := h'
  obtain ⟨g, rest, rfl, hg⟩ := exists_cons_of_seen hnext hfollowing
  exact ⟨f, g, rest, rfl, hf, hg⟩

namespace Parser

variable {α β : Type}

theorem ite_bind {c : Prop} [Decidable c] (p q : Parser α) (k : α → Parser β) :
    (if c then p else q) >>= k = if c then p >>= k else q >>= k :=
  apply_ite (· >>= k) c p q

/-- What is done behind a level is done behind its closing. -/
theorem nested_bind (p : Parser α) (k : α → Parser β) : Parser.nested p >>= k =
    openLevel >>= fun _ => p >>= fun a => closeLevel >>= fun _ => k a := by
  simp only [Parser.nested, bind_assoc, pure_bind]

theorem fuel_behind {c : Cursor} (h : c.fuel = none) (l : Lexeme) (rest : List Lexeme) :
    (behind c l rest).fuel = none := by
  show Option.map _ c.fuel = none
  rw [h]
  rfl

/-- Without a step budget the next lexeme can be taken. -/
theorem bump_of_free {c : Cursor} {l : Lexeme} {rest : List Lexeme} (hfuel : c.fuel = none)
    (hrest : c.rest = l :: rest) : bump c = .ok l.text (behind c l rest) :=
  bump_of_cons hrest (by rw [hfuel]; exact nofun)

/-! ## Steps that take nothing -/

/-- Two cursors at the same place of the same text. -/
structure Level (c d : Cursor) : Prop where
  source : d.source = c.source
  textEnd : d.textEnd = c.textEnd
  rest : d.rest = c.rest
  lastEnd : d.lastEnd = c.lastEnd
  fuel : d.fuel = c.fuel

theorem Level.refl (c : Cursor) : Level c c := by constructor <;> rfl

theorem Level.trans {c d e : Cursor} (h : Level c d) (h' : Level d e) : Level c e where
  source := h'.source.trans h.source
  textEnd := h'.textEnd.trans h.textEnd
  rest := h'.rest.trans h.rest
  lastEnd := h'.lastEnd.trans h.lastEnd
  fuel := h'.fuel.trans h.fuel

theorem level_looked (c : Cursor) : Level c (looked c) := by constructor <;> rfl

/-- Two cursors behind the same lexemes, where there is no step budget. -/
structure Twin (c d : Cursor) : Prop where
  source : d.source = c.source
  lastEnd : d.lastEnd = c.lastEnd
  fuel : d.fuel = none

theorem Twin.level {c c' d d' : Cursor} (h : Twin c d) (hc : Level c c') (hd : Level d d') :
    Twin c' d' where
  source := hd.source.trans (h.source.trans hc.source.symm)
  lastEnd := hd.lastEnd.trans (h.lastEnd.trans hc.lastEnd.symm)
  fuel := hd.fuel.trans h.fuel

/-- The range of the next lexeme, or the empty range at the end of the text. -/
def rangeAt (c : Cursor) : TextRange := (c.rest.head?.map (·.range)).getD (.emptyAt c.textEnd)

/-- A rule that takes nothing.  What it returns does not depend on what is behind the next
lexeme. -/
structure Idles (p : Parser α) (value : Cursor → α) : Prop where
  run : ∀ c, ∃ d, p c = .ok (value c) d ∧ Level c d
  value_eq : ∀ c d l, Twin c d → c.rest.head? = some l → d.rest.head? = some l → value d = value c

/-- A rule that takes nothing and returns what it sees of the lexemes left. -/
def Asks (p : Parser α) (answer : List Face → α) : Prop :=
  ∀ c, ∃ d, p c = .ok (answer (faces c.rest)) d ∧ Level c d

theorem idles_currentRange : Idles currentRange rangeAt where
  run c := ⟨c, rfl, .refl c⟩
  value_eq c d l _ hc hd := by rw [rangeAt, rangeAt, hc, hd]; rfl

theorem idles_startOffset : Idles startOffset fun c => (rangeAt c).start where
  run c := ⟨c, rfl, .refl c⟩
  value_eq c d l htwin hc hd := by rw [idles_currentRange.value_eq c d l htwin hc hd]

theorem idles_spanOf (range : TextRange) : Idles (spanOf range) fun c => ⟨c.source, range⟩ where
  run c := ⟨c, rfl, .refl c⟩
  value_eq c d l htwin _ _ := by rw [htwin.source]

theorem idles_rangeFrom (start : Nat) :
    Idles (rangeFrom start) fun c => ⟨start, max c.lastEnd start⟩ where
  run c := ⟨c, rfl, .refl c⟩
  value_eq c d l htwin _ _ := by rw [htwin.lastEnd]

theorem idles_spanFrom (start : Nat) :
    Idles (spanFrom start) fun c => ⟨c.source, start, max c.lastEnd start⟩ where
  run c := ⟨c, rfl, .refl c⟩
  value_eq c d l htwin _ _ := by rw [htwin.source, htwin.lastEnd]

theorem idles_openLevel : Idles openLevel fun _ => () where
  run c := ⟨opened c, rfl, by constructor <;> rfl⟩
  value_eq _ _ _ _ _ _ := rfl

theorem idles_closeLevel : Idles closeLevel fun _ => () where
  run c := ⟨closed c, rfl, by constructor <;> rfl⟩
  value_eq _ _ _ _ _ _ := rfl

theorem asks_peek (n : Nat) : Asks (peek n) (seen · n) := fun c =>
  ⟨looked c, congrArg (EStateM.Result.ok · _) (seen_faces c.rest n).symm, level_looked c⟩

theorem asks_look : Asks look (seen · 0) := asks_peek 0

theorem asks_atEnd : Asks atEnd List.isEmpty := fun c =>
  ⟨c, by rw [faces, List.isEmpty_map]; rfl, .refl c⟩

theorem asks_currentText : Asks currentText fun s => (s.head?.map (·.2.1)).getD "" :=
  fun ⟨_, _, rest, _, _, _, _, _, _⟩ => by cases rest <;> exact ⟨_, rfl, .refl _⟩

theorem asks_isAdjacent : Asks isAdjacent fun s => (s.head?.map fun f => !f.2.2.1).getD false :=
  fun ⟨_, _, rest, _, _, _, _, _, _⟩ => by cases rest <;> exact ⟨_, rfl, .refl _⟩

theorem asks_nextOnSameLine :
    Asks nextOnSameLine fun s => (s[1]?.map fun f => !f.2.2.2).getD false :=
  fun ⟨_, _, rest, _, _, _, _, _, _⟩ => by
    rcases rest with _ | ⟨_, _ | _⟩ <;> exact ⟨_, rfl, .refl _⟩

namespace Asks

variable {p : Parser α} {answer : List Face → α}

theorem pure (a : α) : Asks (Pure.pure a : Parser α) fun _ => a := fun c => ⟨c, rfl, .refl c⟩

theorem bind {f : α → Parser β} {answers : α → List Face → β} (hp : Asks p answer)
    (hf : ∀ a, Asks (f a) (answers a)) : Asks (p >>= f) fun s => answers (answer s) s := by
  intro c
  obtain ⟨d, hd, hcd⟩ := hp c
  obtain ⟨e, he, hde⟩ := hf (answer (faces c.rest)) d
  refine ⟨e, ?_, hcd.trans hde⟩
  rw [bind_of_ok hd, he, hcd.rest]

/-- Two questions, the second one only if the first answer is yes. -/
theorem and {p q : Parser Bool} {answer other : List Face → Bool} (hp : Asks p answer)
    (hq : Asks q other) :
    Asks (do if ← p then q else return false) fun s => answer s && other s := by
  intro c
  obtain ⟨d, hd, hcd⟩ := hp c
  obtain ⟨e, he, hde⟩ := hq d
  show ∃ d, _ = EStateM.Result.ok (answer (faces c.rest) && other (faces c.rest)) d ∧ _
  rw [bind_of_ok hd]
  cases answer (faces c.rest) with
  | false => exact ⟨d, rfl, hcd⟩
  | true => exact ⟨e, by rw [if_pos rfl, he, hcd.rest, Bool.true_and], hcd.trans hde⟩

end Asks

theorem asks_isAt (kind : TokenKind) : Asks (isAt kind) fun s => seen s 0 == kind :=
  asks_look.bind fun found => .pure (found == kind)

theorem asks_isFollowedBy (kind : TokenKind) :
    Asks (isFollowedBy kind) fun s => seen s 1 == kind :=
  (asks_peek 1).bind fun found => .pure (found == kind)

theorem asks_isAtPair (kind following : TokenKind) :
    Asks (isAtPair kind following) fun s => seen s 0 == kind && seen s 1 == following :=
  (asks_isAt kind).and (asks_isFollowedBy following)

/-! ## Acceptance -/

/-- A run that returns something. -/
def Finishes : EStateM.Result Stop Cursor β → Prop
  | .ok _ _ => True
  | .error _ _ => False

/-- A rule that returns something in front of some lexemes. -/
def Accepts (p : Parser β) (s : List Face) : Prop :=
  ∀ c, c.fuel = none → faces c.rest = s → Finishes (p c)

namespace Accepts

variable {p : Parser α} {k : α → Parser β} {s : List Face} {answer : List Face → α}

theorem pure (b : β) : Accepts (Pure.pure b : Parser β) s := fun _ _ _ => trivial

theorem idles {value : Cursor → α} (hp : Idles p value) (h : ∀ a, Accepts (k a) s) :
    Accepts (p >>= k) s := by
  intro c hfuel hrest
  obtain ⟨d, hrun, hlevel⟩ := hp.run c
  rw [bind_of_ok hrun]
  exact h _ d (hlevel.fuel.trans hfuel) (by rw [hlevel.rest, hrest])

theorem asks (hp : Asks p answer) (h : Accepts (k (answer s)) s) : Accepts (p >>= k) s := by
  intro c hfuel hrest
  obtain ⟨d, hrun, hlevel⟩ := hp c
  rw [bind_of_ok hrun, hrest]
  exact h d (hlevel.fuel.trans hfuel) (by rw [hlevel.rest, hrest])

theorem bump {k : String → Parser β} {f : Face} (h : Accepts (k f.2.1) s) :
    Accepts (Parser.bump >>= k) (f :: s) := by
  intro c hfuel hrest
  obtain ⟨l, rest, hc, rfl, rfl⟩ := List.map_eq_cons_iff.1 hrest
  rw [bind_of_ok (bump_of_free hfuel hc)]
  exact h _ (fuel_behind hfuel l rest) rfl

end Accepts

/-! ## Blame -/

/-- The range that is blamed for an error of a rule that was entered with a cursor.  What was taken
before it can be completed, which leads to lexemes with the property `goal`.  If nothing was taken,
it must be known that this is possible. -/
inductive Blame (goal : List Face → Prop) (possible : Prop) (p : Parser β) (c : Cursor) :
    TextRange → Prop
  /-- Nothing was taken. -/
  | here (h : possible) : Blame goal possible p c (rangeAt c)
  /-- Something was taken. -/
  | after {l : Lexeme} {u v : List Lexeme} {w : List Filler} (hrest : c.rest = l :: (u ++ v))
      (hclean : ∀ x ∈ l :: u, x.kind ≠ .garbage) (hgoal : goal (faces (l :: u) ++ shown w))
      (hfinishes : ∀ ls d, faces ls = shown w → d.rest = l :: (u ++ ls) → Twin c d →
        Finishes (p d)) :
      Blame goal possible p c (rangeAt { c with rest := v })

/-- A run that blames a range if it has a syntax error. -/
def Blamed (goal : List Face → Prop) (possible : Prop) (p : Parser β) (c : Cursor) :
    EStateM.Result Stop Cursor β → Prop
  | .ok _ _ => True
  | .error (.syntaxError _ range) _ => Blame goal possible p c range
  | .error _ _ => False

/-- In front of the lexemes `ls` a rule blames a lexeme, in front of which it can be completed. -/
def Blames (ls : List Face) (goal : List Face → Prop) (possible : Prop) (p : Parser β) : Prop :=
  ∀ c, c.fuel = none → faces c.rest = ls → Blamed goal possible p c (p c)

/-- A rule that is completed by `w`, and that can be completed wherever it stops, if it is entered
in front of at most `n` lexemes.  What completes it is related to these lexemes. -/
structure Viable (n : Nat) (w : List Filler) (rel : List Face → List Face → Prop) (p : Parser β) :
    Prop where
  accepts : Accepts p (shown w)
  blames : ∀ ls : List Face, ls.length ≤ n → Blames ls (rel ls) True p

/-- No relation. -/
def unrelated (_ _ : List Face) : Prop := True

/-- What is blamed behind a step that takes nothing. -/
theorem Blamed.level {goal goal' : List Face → Prop} {possible : Prop} {p q : Parser β}
    {c d : Cursor} {r : EStateM.Result Stop Cursor β} (h : Blamed goal possible q d r)
    (hlevel : Level c d) (hgoal : ∀ s, Alike (faces c.rest) s → goal s → goal' s)
    (hp : ∀ e l, Twin c e → c.rest.head? = some l → e.rest.head? = some l →
      goal (faces e.rest) → (∀ e', Level e e' → Finishes (q e')) → Finishes (p e)) :
    Blamed goal' possible p c r := by
  cases r with
  | ok b e => trivial
  | error stop e =>
    cases stop with
    | syntaxError message range =>
      obtain h : Blame goal possible q d range := h
      cases h with
      | here h =>
        have hrange : rangeAt d = rangeAt c := by rw [rangeAt, hlevel.rest, hlevel.textEnd, rangeAt]
        rw [hrange]
        exact .here h
      | @after l u v w hrest hclean hs hfinishes =>
        rw [hlevel.rest] at hrest
        have hrange : rangeAt { d with rest := v } = rangeAt { c with rest := v } := by
          show (v.head?.map (·.range)).getD (TextRange.emptyAt d.textEnd) = _
          rw [hlevel.textEnd]
          rfl
        rw [hrange]
        refine .after (w := w) hrest hclean (hgoal _ ?_ hs) fun ls e hls he htwin => ?_
        · rw [hrest]
          exact ⟨_, _, _, rfl, rfl⟩
        · refine hp e l htwin (by rw [hrest]; rfl) (by rw [he]; rfl) ?_ fun e' he' => ?_
          · rw [he, ← List.cons_append, faces_append, hls]
            exact hs
          · exact hfinishes ls e' hls (he'.rest.trans he) (htwin.level hlevel he')
    | recursionLimitExceeded => exact h.elim
    | execFuelExhausted => exact h.elim
    | fault f => exact h.elim

namespace Blames

variable {ls : List Face} {goal goal' : List Face → Prop} {possible possible' : Prop}
  {p : Parser α} {k : α → Parser β}

theorem mono {p : Parser β} (h : Blames ls goal possible p)
    (hgoal : ∀ s, Alike ls s → goal s → goal' s) : Blames ls goal' possible p := by
  intro c hfuel hrest
  subst hrest
  exact (h c hfuel rfl).level (.refl c) hgoal fun e _ _ _ _ _ h => h e (.refl e)

theorem pure (b : β) : Blames ls goal possible (Pure.pure b : Parser β) := fun _ _ _ => trivial

theorem idles {value : Cursor → α} (hp : Idles p value)
    (h : ∀ a, Blames ls goal possible (k a)) : Blames ls goal possible (p >>= k) := by
  intro c hfuel hrest
  subst hrest
  obtain ⟨d, hrun, hlevel⟩ := hp.run c
  rw [bind_of_ok hrun]
  refine (h _ d (hlevel.fuel.trans hfuel) (by rw [hlevel.rest])).level hlevel (fun _ _ hs => hs)
    fun e l htwin hc he _ hfinishes => ?_
  obtain ⟨e', hrun', hlevel'⟩ := hp.run e
  rw [bind_of_ok hrun', hp.value_eq c e l htwin hc he]
  exact hfinishes e' hlevel'

theorem asks {answer : List Face → α} (hp : Asks p answer)
    (hgoal : ∀ s, Alike ls s → goal' s → goal s ∧ answer s = answer ls)
    (h : Blames ls goal' possible (k (answer ls))) : Blames ls goal possible (p >>= k) := by
  intro c hfuel hrest
  subst hrest
  obtain ⟨d, hrun, hlevel⟩ := hp c
  rw [bind_of_ok hrun]
  refine (h d (hlevel.fuel.trans hfuel) (by rw [hlevel.rest])).level hlevel
    (fun s hs hg => (hgoal s hs hg).1) fun e l htwin hc he hg hfinishes => ?_
  have halike : Alike (faces c.rest) (faces e.rest) := by
    obtain ⟨ls, hls⟩ := List.head?_eq_some_iff.1 hc
    obtain ⟨ls', hls'⟩ := List.head?_eq_some_iff.1 he
    rw [hls, hls']
    exact ⟨_, _, _, rfl, rfl⟩
  obtain ⟨e', hrun', hlevel'⟩ := hp e
  rw [bind_of_ok hrun', (hgoal _ halike hg).2]
  exact hfinishes e' hlevel'

/-- The answer is known. -/
theorem answered {answer : List Face → α} (hp : Asks p answer) {a : α} (ha : answer ls = a)
    (hgoal : ∀ s, Alike ls s → goal' s → goal s ∧ answer s = a)
    (h : Blames ls goal' possible (k a)) : Blames ls goal possible (p >>= k) := by
  subst ha
  exact asks hp hgoal h

/-! ### Looking -/

theorem peek (n : Nat) {k : TokenKind → Parser β}
    (hgoal : ∀ s, Alike ls s → goal' s → goal s ∧ seen s n = seen ls n)
    (h : Blames ls goal' possible (k (seen ls n))) :
    Blames ls goal possible (Parser.peek n >>= k) :=
  asks (asks_peek n) hgoal h

theorem look {k : TokenKind → Parser β} (h : Blames ls goal possible (k (seen ls 0))) :
    Blames ls goal possible (Parser.look >>= k) :=
  peek 0 (fun _ hs hg => ⟨hg, hs.seen_eq⟩) h

theorem isAt (kind : TokenKind) {k : Bool → Parser β}
    (hyes : seen ls 0 = kind → Blames ls goal possible (k true))
    (hno : seen ls 0 ≠ kind → Blames ls goal possible (k false)) :
    Blames ls goal possible (Parser.isAt kind >>= k) := by
  refine asks (asks_isAt kind) (fun _ hs hg => ⟨hg, by rw [hs.seen_eq]⟩) ?_
  by_cases hkind : seen ls 0 = kind
  · rw [beq_iff_eq.2 hkind]
    exact hyes hkind
  · rw [beq_eq_false_iff_ne.2 hkind]
    exact hno hkind

theorem atEnd {k : Bool → Parser β} (h : Blames ls goal possible (k ls.isEmpty)) :
    Blames ls goal possible (Parser.atEnd >>= k) := by
  refine asks asks_atEnd (fun s hs hg => ⟨hg, ?_⟩) h
  obtain ⟨f, ls', s', rfl, rfl⟩ := hs
  rfl

/-- A rule is entered on its first lexeme. -/
theorem assertAt {kind : TokenKind} {k : Unit → Parser β} (hkind : seen ls 0 = kind)
    (h : Blames ls goal possible (k ())) :
    Blames ls goal possible (Parser.assertAt kind >>= k) := by
  rw [Parser.assertAt, bind_assoc]
  refine look ?_
  rw [hkind, if_neg (by simp), pure_bind]
  exact h

/-! ### Stopping -/

/-- The next lexeme is blamed. -/
theorem stops {p : Parser β} (hpossible : possible)
    (hp : ∀ c, c.fuel = none → faces c.rest = ls →
      ∃ message d, p c = .error (.syntaxError message (rangeAt c)) d) :
    Blames ls goal possible p := by
  intro c hfuel hrest
  obtain ⟨message, d, hd⟩ := hp c hfuel hrest
  rw [hd]
  exact .here hpossible

theorem unexpected (what : String) (hpossible : possible) :
    Blames ls goal possible (Parser.unexpected what >>= k) := by
  refine stops hpossible fun c _ _ => ?_
  obtain ⟨message, d, hrun⟩ : ∃ message d, (Parser.unexpected what : Parser α) c =
      .error (.syntaxError message (rangeAt c)) d := by
    obtain ⟨_, _, rest, _, _, _, _, _, _⟩ := c
    cases rest <;> exact ⟨_, _, rfl⟩
  exact ⟨message, d, bind_of_error hrun⟩

/-! ### Taking -/

/-- Behind a lexeme that is taken, the rule goes on. -/
theorem bump {f : Face} {rest : List Face} {after : List Face → Prop} {k : String → Parser β}
    (hf : f.1 ≠ .garbage) (h : Blames rest after possible' (k f.2.1))
    (hpossible : possible' → ∃ w, goal (f :: shown w) ∧ Accepts (k f.2.1) (shown w))
    (hgoal : ∀ s, Alike rest s → after s → goal (f :: s)) :
    Blames (f :: rest) goal possible (Parser.bump >>= k) := by
  intro c hfuel hrest
  obtain ⟨l, ls, hc, rfl, rfl⟩ := List.map_eq_cons_iff.1 hrest
  have hbump : ∀ d rest, d.fuel = none → d.rest = l :: rest →
      (Parser.bump >>= k) d = k l.text (behind d l rest) := fun d rest hd hrest =>
    bind_of_ok (bump_of_free hd hrest)
  have hblamed : Blamed after possible' (k l.text) (behind c l ls) (k l.text (behind c l ls)) :=
    h _ (fuel_behind hfuel l ls) rfl
  rw [hbump c ls hfuel hc]
  cases hresult : k l.text (behind c l ls) with
  | ok b d => trivial
  | error stop d =>
    rw [hresult] at hblamed
    cases stop with
    | syntaxError message range =>
      obtain hblamed : Blame after possible' (k l.text) (behind c l ls) range := hblamed
      cases hblamed with
      | here hp =>
        obtain ⟨w, hw, haccepts⟩ := hpossible hp
        refine .after (u := []) (v := ls) (w := w) hc ?_ hw fun ls' d hls' hd htwin => ?_
        · exact fun x hx => List.mem_singleton.1 hx ▸ hf
        · rw [hbump d ls' htwin.fuel hd]
          exact haccepts _ (fuel_behind htwin.fuel l ls') hls'
      | @after l' u v w hsplit hclean hs hfinishes =>
        obtain rfl : ls = l' :: (u ++ v) := hsplit
        refine .after (u := l' :: u) (v := v) (w := w) hc ?_ (hgoal _ ⟨_, _, _, rfl, rfl⟩ hs)
          fun ls' d hls' hd htwin => ?_
        · exact List.forall_mem_cons.2 ⟨hf, hclean⟩
        · rw [hbump d _ htwin.fuel hd]
          exact hfinishes ls' _ hls' rfl ⟨htwin.source, rfl, fuel_behind htwin.fuel l _⟩
    | recursionLimitExceeded => exact hblamed.elim
    | execFuelExhausted => exact hblamed.elim
    | fault f => exact hblamed.elim

end Blames

/-- What may stand behind a lexeme that was taken: what completes the rule there, or what begins
like the text and completes the rule later on. -/
def Ahead (w : List Filler) (ls s : List Face) : Prop := s = shown w ∨ Alike ls s

section Taking

variable {n : Nat} {w : List Filler} {rel after : List Face → List Face → Prop}

variable (w) in
theorem Blames.take {f : Face} {ls : List Face} {goal : List Face → Prop} {possible : Prop}
    {k : String → Parser β} (hf : f.1 ≠ .garbage) (h : Viable ls.length w unrelated (k f.2.1))
    (hgoal : ∀ s, Ahead w ls s → goal (f :: s)) :
    Blames (f :: ls) goal possible (Parser.bump >>= k) :=
  .bump hf (h.blames ls (le_refl _)) (fun _ => ⟨w, hgoal _ (Or.inl rfl), h.accepts⟩)
    fun s hs _ => hgoal s (Or.inr hs)

/-- The first lexeme of a rule is taken. -/
theorem Blames.opens {kind : TokenKind} {ls : List Face} {goal : List Face → Prop}
    {possible : Prop} {k : String → Parser β} (v : List Filler) (hls : ls.length ≤ n + 1)
    (hat : seen ls 0 = kind) (hkind : kind ≠ .garbage) (hend : kind ≠ .endOfText)
    (h : ∀ text, Viable n v unrelated (k text))
    (hgoal : ∀ f rest s, ls = f :: rest → f.1 = kind → Ahead v rest s → goal (f :: s)) :
    Blames ls goal possible (Parser.bump >>= k) := by
  obtain ⟨f, rest, rfl, hf⟩ := exists_cons_of_seen hat hend
  exact .take v (hf ▸ hkind) ⟨(h _).accepts, fun ls' hls' => (h _).blames ls' (hls'.trans
    (Nat.le_of_succ_le_succ hls))⟩ fun s => hgoal f rest s rfl hf

/-- A lexeme in front of one that is taken, too. -/
theorem Blames.pass {f : Face} {ls : List Face} {goal after : List Face → Prop} {possible : Prop}
    {k : String → Parser β} (hf : f.1 ≠ .garbage) (h : Blames ls after False (k f.2.1))
    (hgoal : ∀ s, Alike ls s → after s → goal (f :: s)) :
    Blames (f :: ls) goal possible (Parser.bump >>= k) :=
  .bump hf h False.elim hgoal

namespace Viable

variable {p : Parser α} {k : α → Parser β}

theorem mono {p : Parser β} {m : Nat} (h : Viable n w rel p) (hm : m ≤ n) : Viable m w rel p :=
  ⟨h.accepts, fun ls hls => h.blames ls (hls.trans hm)⟩

theorem weaken {p : Parser β} {rel' : List Face → List Face → Prop} (h : Viable n w rel p)
    (hrel : ∀ ls s, Alike ls s → rel ls s → rel' ls s) : Viable n w rel' p :=
  ⟨h.accepts, fun ls hls => (h.blames ls hls).mono (hrel ls)⟩

theorem free {p : Parser β} (h : Viable n w rel p) : Viable n w unrelated p :=
  h.weaken fun _ _ _ _ => trivial

theorem idles {value : Cursor → α} (hp : Idles p value) (h : ∀ a, Viable n w rel (k a)) :
    Viable n w rel (p >>= k) :=
  ⟨.idles hp fun a => (h a).accepts, fun ls hls => .idles hp fun a => (h a).blames ls hls⟩

theorem nested (h : Viable n w rel (p >>= fun a => closeLevel >>= fun _ => k a)) :
    Viable n w rel (Parser.nested p >>= k) := by
  rw [nested_bind]
  exact .idles idles_openLevel fun _ => h

/-- A lexeme that has to be there, in front of fewer of them. -/
theorem expect_succ {f : Filler} {kind : TokenKind} (what : String) {k : TextRange → Parser β}
    (hf : f.kind = kind) (h : ∀ a, Viable n w unrelated (k a))
    (hrel : ∀ g ls s, g.1 = kind → Ahead w ls s → rel (g :: ls) (g :: s)) :
    Viable (n + 1) (f :: w) rel (Parser.expect kind what >>= k) := by
  simp only [Parser.expect, bind_assoc, ite_bind, pure_bind]
  have hkind : kind ≠ .garbage ∧ kind ≠ .endOfText := by
    subst hf
    cases f <;> decide
  constructor
  · refine .asks (asks_isAt kind) ?_
    have hfound : (seen (shown (f :: w)) 0 == kind) = true := beq_iff_eq.2 hf
    rw [hfound, if_pos rfl]
    exact .idles idles_currentRange fun range => .bump (h range).accepts
  · intro ls hls
    refine .isAt kind (fun hat => ?_) fun _ => .unexpected what trivial
    obtain ⟨g, rest, rfl, hg⟩ := exists_cons_of_seen hat hkind.2
    refine .idles idles_currentRange fun range => ?_
    exact .take w (hg ▸ hkind.1) ((h range).mono (Nat.le_of_succ_le_succ hls)) fun s =>
      hrel g rest s hg

/-- A lexeme that has to be there. -/
theorem expect {f : Filler} {kind : TokenKind} (what : String) {k : TextRange → Parser β}
    (hf : f.kind = kind) (h : ∀ a, Viable n w unrelated (k a))
    (hrel : ∀ g ls s, g.1 = kind → Ahead w ls s → rel (g :: ls) (g :: s)) :
    Viable n (f :: w) rel (Parser.expect kind what >>= k) :=
  (expect_succ what hf h hrel).mono (Nat.le_succ n)

/-- A lexeme that has to be there for its text. -/
theorem need {f : Filler} {kind : TokenKind} (what : String) {k : String → Parser β} {γ : Type}
    {k' : γ → Parser β} (hf : f.kind = kind) (h : ∀ text, Viable n w unrelated (k text))
    (hrel : ∀ g ls s, g.1 = kind → Ahead w ls s → rel (g :: ls) (g :: s)) :
    Viable n (f :: w) rel (Parser.isAt kind >>= fun found =>
      if found then Parser.bump >>= k else unexpected what >>= k') := by
  have hkind : kind ≠ .garbage ∧ kind ≠ .endOfText := by
    subst hf
    cases f <;> decide
  constructor
  · refine .asks (asks_isAt kind) ?_
    rw [seen_shown_zero, beq_iff_eq.2 hf, if_pos rfl]
    exact .bump (h _).accepts
  · intro ls hls
    refine .isAt kind (fun hat => ?_) fun _ => .unexpected what trivial
    obtain ⟨g, rest, rfl, hg⟩ := exists_cons_of_seen hat hkind.2
    exact .take w (hg ▸ hkind.1) ((h _).mono (Nat.le_of_succ_le hls)) fun s => hrel g rest s hg

/-- A lexeme that is taken if it is there. -/
theorem takeIf {kind : TokenKind} (v : List Filler) {k : String → Parser β} {p : Parser β}
    (hkind : kind ≠ .garbage) (hend : kind ≠ .endOfText)
    (hyes : ∀ m < n, ∀ text, Viable m v unrelated (k text)) (hno : Viable n w rel p)
    (hw : seen (shown w) 0 ≠ kind)
    (hrel : ∀ f ls s, f.1 = kind → Ahead v ls s → rel (f :: ls) (f :: s)) :
    Viable n w rel (Parser.isAt kind >>= fun found => if found then Parser.bump >>= k else p) := by
  constructor
  · refine .asks (asks_isAt kind) ?_
    rw [beq_eq_false_iff_ne.2 hw]
    exact hno.accepts
  · intro ls hls
    refine .isAt kind (fun hat => ?_) fun _ => hno.blames ls hls
    obtain ⟨f, rest, rfl, hf⟩ := exists_cons_of_seen hat hend
    exact .take v (hf ▸ hkind) (hyes _ hls _) fun s => hrel f rest s hf

/-- A lexeme that may be there. -/
theorem eat {kind : TokenKind} (v : List Filler) {k : Bool → Parser β} (hkind : kind ≠ .garbage)
    (hend : kind ≠ .endOfText) (hyes : ∀ m < n, Viable m v unrelated (k true))
    (hno : Viable n w rel (k false)) (hw : seen (shown w) 0 ≠ kind)
    (hrel : ∀ f ls s, f.1 = kind → Ahead v ls s → rel (f :: ls) (f :: s)) :
    Viable n w rel (Parser.eat kind >>= k) := by
  simp only [Parser.eat, bind_assoc, ite_bind, pure_bind]
  exact .takeIf v hkind hend (fun m hm _ => hyes m hm) hno hw hrel

end Viable

/-- A rule that is completed by `v` in front of what comes behind it, and that can be completed
wherever it stops, if more levels may be opened than there are lexemes left.  The conditions are on
what comes behind it, first on its completion. -/
def Completable (levels : Nat) (close : List Filler → Prop) (v : List Filler)
    (after before : List Face → List Face → Prop) (p : Parser α) : Prop :=
  ∀ ⦃β : Type⦄ ⦃n : Nat⦄ ⦃w : List Filler⦄ ⦃k : α → Parser β⦄, n < levels → close w →
    (∀ a, Viable n w after (k a)) → Viable n (v ++ w) before (p >>= k)

/-- A rule that can be completed wherever it stops, if it took something.  Since it takes a lexeme
before it is done, one less is left for what comes behind it. -/
def Continuable (levels : Nat) (close : List Filler → Prop)
    (after before : List Face → List Face → Prop) (p : Parser α) : Prop :=
  ∀ ⦃β : Type⦄ ⦃n : Nat⦄ ⦃w : List Filler⦄ ⦃k : α → Parser β⦄, n < levels → close w →
    (∀ a, Viable n w after (k a)) → ∀ ls : List Face, ls.length ≤ n + 1 →
      Blames ls (before ls) True (p >>= k)

section Nested

variable {levels : Nat} {close : List Filler → Prop} {v : List Filler}
  {before : List Face → List Face → Prop} {p : Parser α}

theorem Completable.nested (hp : Completable levels close v after before p) :
    Completable levels close v after before (Parser.nested p) :=
  fun _ _ _ _ hn hw hk => .nested (hp hn hw fun a => .idles idles_closeLevel fun _ => hk a)

theorem Continuable.nested (hp : Continuable levels close after before p) :
    Continuable levels close after before (Parser.nested p) := by
  intro β n w k hn hw hk ls hls
  rw [nested_bind]
  exact .idles idles_openLevel fun _ =>
    hp hn hw (fun a => .idles idles_closeLevel fun _ => hk a) ls hls

end Nested

end Taking

end Parser

end RubySig
