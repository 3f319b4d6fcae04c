import Mathlib.Algebra.Order.Group.Multiset
import RubySig.Proofs.Parser.BodyCut
import RubySig.Proofs.TypeExpr.Children

/-!
# Where references are written

Every reference that a rule of the grammar returns starts at a lexeme that the rule takes, and no
two of them at the same one.  So the starts of all that was read so far, together with those of the
lexemes still to be read, never become more than they were.

* `Site`, `Span.site`, `Cursor.sites`: places in sources, and those of the lexemes to be read.
* `Parser.Takes`: the starts of what a rule returns come from the lexemes that it takes.
* `Takes.pure`, `Takes.bind`, `Takes.step`, `Takes.mark`: the steps from which rules are built.
* `Takes.separated`, `Takes.separatedUntil`, `Takes.repeatedAfter`, `Takes.memberList`: repetition.
-/

namespace RubySig

/-! ## Places -/

/-- A source and an offset in it. -/
abbrev Site := SourceId × Nat

/-- Where a span starts. -/
def Span.site (s : Span) : Site := (s.source, s.range.start)

/-- Where the lexemes start that are still to be read. -/
def Cursor.sites (c : Cursor) : Multiset Site := ↑(c.rest.map fun l => (c.source, l.range.start))

/-- The next lexeme, if there is one, starts at an offset. -/
def Cursor.StartsAt (c : Cursor) (start : Nat) : Prop := ∀ l ∈ c.rest.head?, l.range.start = start

namespace Parser

variable {α β : Type}

/-! ## Rules and what they take -/

/-- Whatever a rule returns in a source, its places and those of the lexemes still to be read are
among the places `before` and those of the lexemes that were to be read. -/
def Takes (source : SourceId) (before : Multiset Site) (p : Parser α)
    (after : α → Multiset Site) : Prop :=
  ∀ c a c', c.source = source → p c = .ok a c' →
    c'.source = source ∧ after a + c'.sites ≤ before + c.sites

/-- The same for a rule in front of which the next lexeme starts at an offset. -/
def TakesAt (source : SourceId) (start : Nat) (before : Multiset Site) (p : Parser α)
    (after : α → Multiset Site) : Prop :=
  ∀ c a c', c.source = source → c.StartsAt start → p c = .ok a c' →
    c'.source = source ∧ after a + c'.sites ≤ before + c.sites

theorem sites_le_of_suffix {c c' : Cursor} (hsource : c'.source = c.source)
    (h : c'.rest <:+ c.rest) : c'.sites ≤ c.sites := by
  rw [Cursor.sites, Cursor.sites, hsource]
  exact Multiset.coe_le.2 ((h.sublist.map _).subperm)

/-- Of the lexemes that a rule takes the first one is that in front of which it is entered. -/
theorem site_add_sites_le {c c' : Cursor} {start : Nat} (hsource : c'.source = c.source)
    (h : c'.rest <:+ c.rest) (hlength : c'.rest.length < c.rest.length)
    (hstart : c.StartsAt start) :
    {(c.source, start)} + c'.sites ≤ c.sites := by
  cases hrest : c.rest with
  | nil =>
    rw [hrest] at hlength
    exact absurd hlength (Nat.not_lt_zero _)
  | cons l rest =>
    have hnext : l.range.start = start := hstart l (by rw [hrest]; rfl)
    have htail : c'.rest <:+ rest := by
      rw [hrest, List.suffix_cons_iff] at h
      refine h.resolve_left fun heq => ?_
      rw [hrest, heq] at hlength
      exact absurd hlength (Nat.lt_irrefl _)
    rw [Cursor.sites, Cursor.sites, hrest, hsource, List.map_cons, hnext, Multiset.singleton_add,
      ← Multiset.cons_coe, Multiset.cons_le_cons_iff]
    exact Multiset.coe_le.2 ((htail.sublist.map _).subperm)

theorem startsAt_of_startOffset {c c' : Cursor} {start : Nat}
    (h : startOffset c = .ok start c') : c' = c ∧ c.StartsAt start := by
  cases h
  refine ⟨rfl, fun l hl => ?_⟩
  rw [Option.mem_def.1 hl]
  rfl

namespace Takes

variable {source : SourceId} {before : Multiset Site} {p : Parser α} {mid after : α → Multiset Site}
  {result : β → Multiset Site}

/-! ## Single steps -/

theorem pure {a : α} (h : after a ≤ before) : Takes source before (Pure.pure a) after := by
  rintro c b c' hsource ⟨⟩
  exact ⟨hsource, add_le_add_left h _⟩

/-- A rule that returns nothing does not matter. -/
theorem stops (h : Yields p fun _ => False) : Takes source before p after :=
  fun c a c' _ hrun => (h c a c' hrun).elim

theorem throw (stop : Stop) : Takes source before (MonadExcept.throw stop : Parser α) after :=
  stops (.throw stop)

theorem unexpected (what : String) :
    Takes source before (Parser.unexpected what : Parser α) after :=
  stops (.unexpected what)

theorem bind {f : α → Parser β} (hp : Takes source before p mid)
    (hf : ∀ a, Takes source (mid a) (f a) result) : Takes source before (p >>= f) result := by
  intro c b c' hsource hrun
  obtain ⟨a, c₁, hfirst, hsecond⟩ := exists_of_bind_eq_ok hrun
  obtain ⟨hsource₁, hle₁⟩ := hp c a c₁ hsource hfirst
  obtain ⟨hsource', hle'⟩ := hf a c₁ b c' hsource₁ hsecond
  exact ⟨hsource', hle'.trans hle₁⟩

theorem ite {c : Prop} [Decidable c] {q : Parser α} (hp : c → Takes source before p after)
    (hq : ¬ c → Takes source before q after) :
    Takes source before (if c then p else q) after := by
  split
  · exact hp ‹_›
  · exact hq ‹_›

/-- What a rule adds to nothing it adds to anything. -/
theorem frame (h : Takes source 0 p after) (before : Multiset Site) :
    Takes source before p fun a => before + after a := by
  intro c a c' hsource hrun
  obtain ⟨hsource', hle⟩ := h c a c' hsource hrun
  refine ⟨hsource', ?_⟩
  rw [zero_add] at hle
  rw [add_assoc]
  exact add_le_add_right hle _

/-- A rule that returns no references takes lexemes at most. -/
theorem of_cut {t : α → Pace} (h : Cut 0 ⟨0, 0⟩ t p p) :
    Takes source before p fun _ => before := by
  intro c a c' hsource hrun
  have hreach := h.reaches c
  rw [hrun] at hreach
  exact ⟨hreach.source.trans hsource,
    add_le_add_right (sites_le_of_suffix hreach.source hreach.rest) _⟩

theorem step {t : α → Pace} {f : α → Parser β} (h : Cut 0 ⟨0, 0⟩ t p p)
    (hf : ∀ a, Takes source before (f a) result) : Takes source before (p >>= f) result :=
  bind (of_cut h) hf

/-! ## Places -/

/-- A span is in the source that is read. -/
theorem spanOf {range : TextRange} {f : Span → Parser β}
    (h : Takes source before (f ⟨source, range⟩) result) :
    Takes source before (Parser.spanOf range >>= f) result := by
  intro c b c' hsource hrun
  obtain ⟨span, c₁, hspan, hrun⟩ := exists_of_bind_eq_ok hrun
  cases hspan
  rw [hsource] at hrun
  exact h c b c' hsource hrun

/-- A span starts where it is said to start. -/
theorem spanFrom {start : Nat} {f : Span → Parser β}
    (h : ∀ stop, Takes source before (f ⟨source, ⟨start, stop⟩⟩) result) :
    Takes source before (Parser.spanFrom start >>= f) result := by
  intro c b c' hsource hrun
  obtain ⟨span, c₁, hspan, hrun⟩ := exists_of_bind_eq_ok hrun
  cases hspan
  rw [hsource] at hrun
  exact h _ c b c' hsource hrun

theorem startOffset {f : Nat → Parser β}
    (h : ∀ start, TakesAt source start before (f start) result) :
    Takes source before (Parser.startOffset >>= f) result := by
  intro c b c' hsource hrun
  obtain ⟨start, c₁, hfirst, hsecond⟩ := exists_of_bind_eq_ok hrun
  obtain ⟨rfl, hat⟩ := startsAt_of_startOffset hfirst
  exact h start _ b c' hsource hat hsecond

/-- A step that takes a lexeme first takes the one in front of which it is entered. -/
theorem mark {j start : Nat} {f : α → Parser β} (h : Cut 0 ⟨0, 0⟩ (fun _ => ⟨j, 1⟩) p p)
    (hf : ∀ a, Takes source (before + {(source, start)}) (f a) result) :
    TakesAt source start before (p >>= f) result := by
  intro c b c' hsource hstart hrun
  obtain ⟨a, c₁, hfirst, hsecond⟩ := exists_of_bind_eq_ok hrun
  have hreach := h.reaches c
  rw [hfirst] at hreach
  obtain ⟨hsource', hle⟩ := hf a c₁ b c' (hreach.source.trans hsource) hsecond
  have hmark := site_add_sites_le hreach.source hreach.rest
    (Nat.lt_of_succ_le (h.length_add_credit_le hfirst)) hstart
  rw [hsource] at hmark
  rw [add_assoc] at hle
  exact ⟨hsource', hle.trans (add_le_add_right hmark _)⟩

/-- A check of the next lexeme does not take it. -/
theorem checked {start : Nat} {kind : TokenKind} {f : Unit → Parser β}
    (h : TakesAt source start before (f ()) result) :
    TakesAt source start before (assertAt kind >>= f) result := by
  intro c b c' hsource hstart hrun
  obtain ⟨⟨⟩, c₁, hcheck, hrun⟩ := exists_of_bind_eq_ok hrun
  have hsame : c₁.rest = c.rest ∧ c₁.source = c.source := by
    obtain ⟨found, c₂, hlook, hcheck⟩ := exists_of_bind_eq_ok hcheck
    cases hlook
    split at hcheck <;> cases hcheck
    exact ⟨rfl, rfl⟩
  have hat : c₁.StartsAt start := by
    rw [Cursor.StartsAt, hsame.1]
    exact hstart
  obtain ⟨hsource', hle⟩ := h c₁ b c' (hsame.2.trans hsource) hat hrun
  refine ⟨hsource', ?_⟩
  rwa [Cursor.sites, Cursor.sites, hsame.1, hsame.2] at hle

/-! ## Repetition -/

variable {separator close token : TokenKind} {sites : α → Multiset Site}

theorem nil : Takes source before (Pure.pure [] : Parser (List α))
    fun as => before + (as.map sites).sum :=
  pure (by simp)

theorem single {a : α} : Takes source (before + sites a) (Pure.pure [a] : Parser (List α))
    fun as => before + (as.map sites).sum :=
  pure (by simp)

/-- A repetition goes on in another round. -/
theorem cons {q : Parser (List α)} {a : α}
    (hq : ∀ before, Takes source before q fun as => before + (as.map sites).sum) :
    Takes source (before + sites a) (do return a :: (← q)) fun as =>
      before + (as.map sites).sum :=
  bind (hq _) fun as => pure (by simp [add_assoc])

theorem separatedWithin (h : Takes source 0 p sites) (n : Nat) (before : Multiset Site) :
    Takes source before (Parser.separatedWithin separator p n) fun as =>
      before + (as.map sites).sum := by
  induction n generalizing before with
  | zero => exact throw _
  | succ n ih =>
    exact bind (h.frame before) fun a => step (cut_eaten _ (by decide)) fun _ =>
      ite (fun _ => cons ih) fun _ => single

theorem separated (h : Takes source 0 p sites) (before : Multiset Site) :
    Takes source before (Parser.separated separator p) fun as => before + (as.map sites).sum :=
  step cut_rounds fun _ => separatedWithin h _ before

theorem separatedUntilWithin (h : Takes source 0 p sites) (n : Nat) (before : Multiset Site) :
    Takes source before (Parser.separatedUntilWithin close separator p n) fun as =>
      before + (as.map sites).sum := by
  induction n generalizing before with
  | zero => exact throw _
  | succ n ih =>
    exact step (cut_isAt _ (by decide)) fun _ => ite (fun _ => nil) fun _ =>
      bind (h.frame before) fun a => step (cut_eaten _ (by decide)) fun _ =>
        ite (fun _ => cons ih) fun _ => single

theorem separatedUntil (h : Takes source 0 p sites) (before : Multiset Site) :
    Takes source before (Parser.separatedUntil close separator p) fun as =>
      before + (as.map sites).sum :=
  step cut_rounds fun _ => separatedUntilWithin h _ before

theorem repeatedAfterWithin (h : Takes source 0 p sites) (n : Nat) (before : Multiset Site) :
    Takes source before (Parser.repeatedAfterWithin token p n) fun as =>
      before + (as.map sites).sum := by
  induction n generalizing before with
  | zero => exact throw _
  | succ n ih =>
    exact step (cut_eaten _ (by decide)) fun _ =>
      ite (fun _ => bind (h.frame before) fun a => cons ih) fun _ => nil

theorem repeatedAfter (h : Takes source 0 p sites) (before : Multiset Site) :
    Takes source before (Parser.repeatedAfter token p) fun as => before + (as.map sites).sum :=
  step cut_rounds fun _ => repeatedAfterWithin h _ before

theorem memberList {p : Parser Member} {sites : Member → Multiset Site}
    (h : Takes source 0 p sites) (before : Multiset Site) :
    Takes source before (Parser.memberList p) fun ms => before + (ms.map sites).sum := by
  have hwithin : ∀ (n : Nat) (before : Multiset Site),
      Takes source before (memberListWithin p n) fun ms => before + (ms.map sites).sum := by
    intro n
    induction n with
    | zero => exact fun _ => throw _
    | succ n ih =>
      exact fun before => step (cut_eaten _ (by decide)) fun _ => ite (fun _ => nil) fun _ =>
        step cut_atEnd fun _ => ite (fun _ => unexpected _) fun _ =>
          bind (h.frame before) fun m => cons ih
  exact step cut_rounds fun _ => hwithin _ before

end Takes

end Parser

end RubySig
