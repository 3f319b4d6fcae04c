import Mathlib.Order.MinMax
import RubySig.Parser.File
import RubySig.Proofs.Parser.Yields

/-!
# Rules with fewer levels

The rules of the grammar are built from a few steps.  `Cut` relates a rule to the same rule with
more levels to open, step by step, and keeps account of two things on the way: how often a lexeme
was looked at since one was taken, and whether a lexeme was taken for the next level.  What holds of
all these steps holds of every rule.

* `Parser.Pace`: the account at one point of a rule.
* `Parser.Cut`: a rule and the same rule with more levels.
* `Cut.Invariant`, `Cut.Invariant.ends`: what all steps preserve, every rule preserves.
* `Cut.reaches`, `Cut.depth_eq`: what a rule does to the cursor.
* `lookBound`, `Cut.mostLooks_le`: no rule looks too often.
* `Cut.length_add_credit_le`: a rule takes the lexemes that it says it takes.
* `Cut.deepest_le`: a level is opened only where a lexeme was taken for it.
* `Cut.spends`: a rule with a step budget.
* `Cut.descends`: a rule with fewer levels.
-/

namespace RubySig

namespace Parser

/-! ## Rules as they are built -/

/-- Where a rule stands: how many looks there were at most since a lexeme was taken or a level
opened or closed, and how many lexemes were taken at least that no level was opened for. -/
structure Pace where
  /-- The looks. -/
  looks : Nat
  /-- The lexemes in advance. -/
  credit : Nat

/-- A number of looks that is enough for every rule, far below the budget. -/
def lookBound : Nat := 16

theorem lookBound_lt : lookBound < lookBudget := by decide

/-- A point is as good as another one if no more looks and no fewer lexemes are behind it. -/
structure Pace.Covers (s t : Pace) : Prop where
  looks : s.looks ≤ t.looks
  credit : t.credit ≤ s.credit

theorem Pace.covers {i j k l : Nat} (hlooks : i ≤ j) (hcredit : l ≤ k) :
    Pace.Covers ⟨i, k⟩ ⟨j, l⟩ :=
  ⟨hlooks, hcredit⟩

/-- The step that only reads the cursor. -/
def reading {α : Type} (f : Cursor → α) : Parser α := fun c => .ok (f c) c

/-- A rule, on the left with at most `n` levels to open and on the right with no fewer.  Where it is
entered at one pace, it ends at another one, which may depend on what it returns. -/
inductive Cut : Nat → {α : Type} → Pace → (α → Pace) → Parser α → Parser α → Prop
  /-- Nothing is done. -/
  | pure {n : Nat} {α : Type} {s : Pace} {t : α → Pace} (a : α) (h : s.Covers (t a)) :
      Cut n s t (pure a) (pure a)
  /-- The rule stops. -/
  | throw {n : Nat} {α : Type} {s : Pace} {t : α → Pace} (stop : Stop) :
      Cut n s t (throw stop) (throw stop)
  /-- Something is read off the cursor that does not depend on the step budget. -/
  | reading {n : Nat} {α : Type} {s : Pace} (f : Cursor → α)
      (h : ∀ c fuel, f { c with fuel := fuel } = f c) :
      Cut n s (fun _ => s) (reading f) (reading f)
  /-- A look is counted. -/
  | countLook {n i k : Nat} (h : i < lookBound) :
      Cut n ⟨i, k⟩ (fun _ => ⟨i + 1, k⟩) countLook countLook
  /-- A lexeme is taken. -/
  | bump {n i k : Nat} : Cut n ⟨i, k⟩ (fun _ => ⟨0, k + 1⟩) bump bump
  /-- Two rules stand in a row. -/
  | bind {n : Nat} {α β : Type} {s : Pace} {t : α → Pace} {u : β → Pace} {p q : Parser α}
      {f g : α → Parser β} (h : Cut n s t p q) (hnext : ∀ a, Cut n (t a) u (f a) (g a)) :
      Cut n s u (p >>= f) (q >>= g)
  /-- A level is opened around a rule. -/
  | nested {n i k : Nat} {α : Type} {t : α → Pace} {p q : Parser α} (h : Cut n ⟨0, k⟩ t p q) :
      Cut (n + 1) ⟨i, k + 1⟩ (fun a => ⟨0, (t a).credit + 1⟩) (nested p) (nested q)
  /-- No level is left on the left. -/
  | tooDeep {m i k : Nat} {α : Type} {t : α → Pace} {q : Parser α} (h : Cut m ⟨0, k⟩ t q q) :
      Cut 0 ⟨i, k + 1⟩ (fun a => ⟨0, (t a).credit + 1⟩) tooDeep (nested q)

/-! ## Runs -/

section Runs

variable {α β : Type}

/-- The cursor with which a rule ends. -/
def cursorOf : EStateM.Result Stop Cursor α → Cursor
  | .ok _ c => c
  | .error _ c => c

/-- A result with another cursor. -/
def mapCursor (f : Cursor → Cursor) : EStateM.Result Stop Cursor α → EStateM.Result Stop Cursor α
  | .ok a c => .ok a (f c)
  | .error stop c => .error stop (f c)

theorem bind_of_ok {p : Parser α} {f : α → Parser β} {c c₁ : Cursor} {a : α}
    (h : p c = .ok a c₁) : (p >>= f) c = f a c₁ := by
  show EStateM.bind p f c = f a c₁
  rw [EStateM.bind, h]

theorem bind_of_error {p : Parser α} {f : α → Parser β} {c c₁ : Cursor} {stop : Stop}
    (h : p c = .error stop c₁) : (p >>= f) c = .error stop c₁ := by
  show EStateM.bind p f c = .error stop c₁
  rw [EStateM.bind, h]

/-- A cursor with one more open level. -/
def opened (c : Cursor) : Cursor :=
  { c with depth := c.depth + 1, deepest := max c.deepest (c.depth + 1), looks := 0 }

/-- A cursor with one open level less. -/
def closed (c : Cursor) : Cursor := { c with depth := c.depth - 1, looks := 0 }

theorem nested_of_ok {p : Parser α} {c c₁ : Cursor} {a : α} (h : p (opened c) = .ok a c₁) :
    nested p c = .ok a (closed c₁) := by
  have hopen : openLevel c = .ok () (opened c) := rfl
  rw [nested, bind_of_ok hopen, bind_of_ok h]
  rfl

theorem nested_of_error {p : Parser α} {c c₁ : Cursor} {stop : Stop}
    (h : p (opened c) = .error stop c₁) : nested p c = .error stop c₁ := by
  have hopen : openLevel c = .ok () (opened c) := rfl
  rw [nested, bind_of_ok hopen, bind_of_error h]

/-- A level that is closed was opened. -/
theorem exists_of_nested_eq_ok {p : Parser α} {c d : Cursor} {a : α}
    (h : nested p c = .ok a d) : ∃ d₁, p (opened c) = .ok a d₁ ∧ closed d₁ = d := by
  cases hinner : p (opened c) with
  | ok b d₁ =>
    rw [nested_of_ok hinner] at h
    obtain ⟨rfl, rfl⟩ := EStateM.Result.ok.inj h
    exact ⟨d₁, rfl, rfl⟩
  | error stop d₁ =>
    rw [nested_of_error hinner] at h
    cases h

/-- A cursor behind its next lexeme. -/
def behind (c : Cursor) (l : Lexeme) (rest : List Lexeme) : Cursor :=
  { c with rest := rest, lastEnd := l.range.stop, fuel := c.fuel.map (· - 1), looks := 0 }

theorem bump_of_nil {c : Cursor} (hrest : c.rest = []) :
    bump c = .error (.fault .tookBeyondEnd) c := by
  rw [bump, hrest]

theorem bump_of_cons {c : Cursor} {l : Lexeme} {rest : List Lexeme} (hrest : c.rest = l :: rest)
    (hfuel : c.fuel ≠ some 0) : bump c = .ok l.text (behind c l rest) := by
  rw [bump, hrest]
  dsimp only
  split
  · exact absurd ‹_› hfuel
  · rfl

theorem bump_of_exhausted {c : Cursor} (hrest : c.rest ≠ []) (hfuel : c.fuel = some 0) :
    bump c = .error .execFuelExhausted c := by
  obtain ⟨l, rest, hrest⟩ := List.exists_cons_of_ne_nil hrest
  rw [bump, hrest]
  dsimp only
  rw [hfuel]
  rfl

/-- What is taken is the next lexeme. -/
theorem exists_behind_of_bump_eq_ok {c c' : Cursor} {text : String} (h : bump c = .ok text c') :
    ∃ l rest, c.rest = l :: rest ∧ text = l.text ∧ c' = behind c l rest := by
  cases hrest : c.rest with
  | nil =>
    rw [bump_of_nil hrest] at h
    cases h
  | cons l rest =>
    by_cases hfuel : c.fuel = some 0
    · rw [bump_of_exhausted (by rw [hrest]; exact List.cons_ne_nil _ _) hfuel] at h
      cases h
    · rw [bump_of_cons hrest hfuel] at h
      obtain ⟨rfl, rfl⟩ := EStateM.Result.ok.inj h
      exact ⟨l, rest, rfl, rfl, rfl⟩

end Runs

namespace Cut

variable {n : Nat} {α : Type} {s : Pace} {t : α → Pace} {p q : Parser α}

/-! ## Invariants of all rules -/

/-- A rule that returns something has closed every level that it opened. -/
theorem depth_eq (h : Cut n s t p q) {c c' : Cursor} {a : α} (hrun : q c = .ok a c') :
    c'.depth = c.depth := by
  have hnested : ∀ {α : Type} {q : Parser α} {a : α} {c c' : Cursor},
      (∀ c₁, q (opened c) = .ok a c₁ → c₁.depth = c.depth + 1) →
      Parser.nested q c = .ok a c' → c'.depth = c.depth := by
    intro α q a c c' hinner hrun
    obtain ⟨c₁, hq, rfl⟩ := exists_of_nested_eq_ok hrun
    show c₁.depth - 1 = c.depth
    rw [hinner c₁ hq, Nat.add_sub_cancel]
  induction h generalizing c c' with
  | pure _ _ | reading _ _ | countLook _ => cases hrun; rfl
  | throw _ => cases hrun
  | bump =>
    rw [Parser.bump] at hrun
    split at hrun
    · cases hrun
    · split at hrun
      · cases hrun
      · cases hrun; rfl
  | bind _ _ ih ihnext =>
    obtain ⟨b, c₁, hfirst, hsecond⟩ := exists_of_bind_eq_ok hrun
    exact (ihnext b hsecond).trans (ih hfirst)
  | nested _ ih => exact hnested (fun _ hq => ih hq) hrun
  | tooDeep _ ih => exact hnested (fun _ hq => ih hq) hrun

/-- What all steps of a rule preserve. -/
structure Invariant (holds : Pace → Cursor → Prop) : Prop where
  covers : ∀ {s t c}, s.Covers t → holds s c → holds t c
  look : ∀ {i k c}, i < lookBound → holds ⟨i, k⟩ c →
    holds ⟨i + 1, k⟩ { c with looks := c.looks + 1, mostLooks := max c.mostLooks (c.looks + 1) }
  take : ∀ {i k c l rest}, c.rest = l :: rest → holds ⟨i, k⟩ c → holds ⟨0, k + 1⟩ (behind c l rest)
  opening : ∀ {i k c}, holds ⟨i, k + 1⟩ c → holds ⟨0, k⟩ (opened c)
  closing : ∀ {s c}, 0 < c.depth → holds s c → holds ⟨0, s.credit + 1⟩ (closed c)

/-- Where a rule ends, whether it returns something or stops. -/
def Ends (holds : Pace → Cursor → Prop) (t : α → Pace) (r : EStateM.Result Stop Cursor α) : Prop :=
  (∃ u, holds u (cursorOf r)) ∧ ∀ a c', r = .ok a c' → holds (t a) c'

theorem Ends.ok {holds : Pace → Cursor → Prop} {a : α} {c : Cursor} (h : holds (t a) c) :
    Ends holds t (.ok a c) :=
  ⟨⟨_, h⟩, fun _ _ heq => by cases heq; exact h⟩

theorem Ends.error {holds : Pace → Cursor → Prop} {stop : Stop} {c : Cursor} {u : Pace}
    (h : holds u c) : Ends holds t (.error stop c) :=
  ⟨⟨u, h⟩, nofun⟩

/-- An invariant that holds where a level is entered holds behind it. -/
theorem Invariant.ends_nested {holds : Pace → Cursor → Prop} (hinv : Invariant holds) {c : Cursor}
    (hdepth : ∀ a c₁, q (opened c) = .ok a c₁ → c₁.depth = c.depth + 1)
    (h : Ends holds t (q (opened c))) :
    Ends holds (fun a => ⟨0, (t a).credit + 1⟩) (Parser.nested q c) := by
  obtain ⟨⟨u, hu⟩, hok⟩ := h
  cases hrun : q (opened c) with
  | ok a c₁ =>
    rw [nested_of_ok hrun]
    exact .ok (hinv.closing (by rw [hdepth a c₁ hrun]; exact Nat.succ_pos _) (hok a c₁ hrun))
  | error stop c₁ =>
    rw [hrun] at hu
    rw [nested_of_error hrun]
    exact .error hu

/-- What all steps preserve, every rule preserves. -/
theorem Invariant.ends {holds : Pace → Cursor → Prop} (hinv : Invariant holds) (h : Cut n s t p q)
    {c : Cursor} (hc : holds s c) : Ends holds t (q c) := by
  induction h generalizing c with
  | pure a hcovers => exact .ok (hinv.covers hcovers hc)
  | throw stop => exact .error hc
  | reading f _ => exact .ok hc
  | countLook hlook => exact .ok (hinv.look hlook hc)
  | bump =>
    cases hrest : c.rest with
    | nil =>
      rw [bump_of_nil hrest]
      exact .error hc
    | cons l rest =>
      by_cases hfuel : c.fuel = some 0
      · rw [bump_of_exhausted (by rw [hrest]; exact List.cons_ne_nil _ _) hfuel]
        exact .error hc
      · rw [bump_of_cons hrest hfuel]
        exact .ok (hinv.take hrest hc)
  | @bind _ _ _ _ _ _ _ q _ _ _ _ ih ihnext =>
    obtain ⟨⟨u, hu⟩, hok⟩ := ih hc
    cases hrun : q c with
    | ok a c₁ =>
      rw [bind_of_ok hrun]
      exact ihnext a (hok a c₁ hrun)
    | error stop c₁ =>
      rw [hrun] at hu
      rw [bind_of_error hrun]
      exact .error hu
  | nested hinner ih =>
    exact hinv.ends_nested (fun _ _ => hinner.depth_eq) (ih (hinv.opening hc))
  | tooDeep hinner ih =>
    exact hinv.ends_nested (fun _ _ => hinner.depth_eq) (ih (hinv.opening hc))

/-! ## Three invariants -/

/-- The cursor `c'` is further on in the text that `c` reads. -/
structure Reaches (c c' : Cursor) : Prop where
  rest : c'.rest <:+ c.rest
  source : c'.source = c.source
  fuel : c.fuel = none → c'.fuel = none
  deepest : c.deepest ≤ c'.deepest

theorem Reaches.refl (c : Cursor) : Reaches c c := ⟨List.suffix_refl _, rfl, id, le_refl _⟩

theorem invariant_reaches (c₀ : Cursor) : Invariant fun _ c => Reaches c₀ c where
  covers _ h := h
  look _ h := ⟨h.rest, h.source, h.fuel, h.deepest⟩
  take hrest h := by
    refine ⟨List.IsSuffix.trans ?_ h.rest, h.source, fun hc => ?_, h.deepest⟩
    · rw [hrest]
      exact List.suffix_cons _ _
    · show Option.map _ _ = none
      rw [h.fuel hc]
      rfl
  opening h := ⟨h.rest, h.source, h.fuel, h.deepest.trans (le_max_left _ _)⟩
  closing _ h := ⟨h.rest, h.source, h.fuel, h.deepest⟩

/-- A rule takes lexemes from the front. -/
theorem reaches (h : Cut n s t p q) (c : Cursor) : Reaches c (cursorOf (q c)) :=
  ((invariant_reaches c).ends h (.refl c)).1.elim fun _ hc => hc

theorem invariant_looks : Invariant fun s c => c.looks ≤ s.looks ∧ c.mostLooks ≤ lookBound where
  covers hcovers h := ⟨h.1.trans hcovers.looks, h.2⟩
  look hlook h := ⟨Nat.succ_le_succ h.1, max_le h.2 (Nat.lt_of_le_of_lt h.1 hlook)⟩
  take _ h := ⟨le_refl 0, h.2⟩
  opening h := ⟨le_refl 0, h.2⟩
  closing _ h := ⟨le_refl 0, h.2⟩

/-- A rule that is entered at its pace never looks too often. -/
theorem mostLooks_le (h : Cut n s t p q) {c : Cursor} (hlooks : c.looks ≤ s.looks)
    (hmost : c.mostLooks ≤ lookBound) : (cursorOf (q c)).mostLooks ≤ lookBound :=
  (invariant_looks.ends h ⟨hlooks, hmost⟩).1.elim fun _ hc => hc.2

/-- There is room for the open levels, for the lexemes that are left and for those that were taken
in advance. -/
theorem invariant_room (bound : Nat) :
    Invariant fun s c => c.depth + c.rest.length + s.credit ≤ bound where
  covers hcovers h := (Nat.add_le_add_left hcovers.credit _).trans h
  look _ h := h
  take {i k c l rest} hrest h := by
    rw [hrest, List.length_cons] at h
    show c.depth + rest.length + (k + 1) ≤ bound
    dsimp only at h
    omega
  opening {i k c} h := by
    show c.depth + 1 + c.rest.length + k ≤ bound
    dsimp only at h
    omega
  closing {s c} hdepth h := by
    show c.depth - 1 + c.rest.length + (s.credit + 1) ≤ bound
    omega

/-- A rule takes the lexemes that it says it takes. -/
theorem length_add_credit_le (h : Cut n s t p q) {c c' : Cursor} {a : α} (hrun : q c = .ok a c') :
    c'.rest.length + (t a).credit ≤ c.rest.length + s.credit := by
  have hroom : c'.depth + c'.rest.length + (t a).credit ≤ c.depth + c.rest.length + s.credit :=
    ((invariant_room _).ends h (le_refl _)).2 a c' hrun
  rw [h.depth_eq hrun] at hroom
  omega

theorem invariant_deepest (bound : Nat) : Invariant fun s c =>
    c.depth + c.rest.length + s.credit ≤ bound ∧ c.deepest ≤ bound where
  covers hcovers h := ⟨(invariant_room bound).covers hcovers h.1, h.2⟩
  look hlook h := ⟨(invariant_room bound).look hlook h.1, h.2⟩
  take hrest h := ⟨(invariant_room bound).take hrest h.1, h.2⟩
  opening {i k c} h := by
    refine ⟨(invariant_room bound).opening (i := i) h.1, max_le h.2 ?_⟩
    have hroom := h.1
    dsimp only at hroom
    omega
  closing hdepth h := ⟨(invariant_room bound).closing hdepth h.1, h.2⟩

/-- No more levels are opened than lexemes are left and were taken in advance. -/
theorem deepest_le (h : Cut n s t p q) {bound : Nat} {c : Cursor}
    (hroom : c.depth + c.rest.length + s.credit ≤ bound) (hdeepest : c.deepest ≤ bound) :
    (cursorOf (q c)).deepest ≤ bound :=
  ((invariant_deepest bound).ends h ⟨hroom, hdeepest⟩).1.elim fun _ hc => hc.2

/-! ## A step budget -/

/-- A cursor with a step budget. -/
def withFuel (budget : Nat) (c : Cursor) : Cursor := { c with fuel := some budget }

/-- What a run without a step budget says about one with a budget: the same, if the lexemes that
were taken are within the budget, and otherwise the run stops because the budget is used up. -/
def Spends (budget : Nat) (c : Cursor) (free limited : EStateM.Result Stop Cursor α) : Prop :=
  (∃ left, budget + (cursorOf free).rest.length = left + c.rest.length ∧
    limited = mapCursor (withFuel left) free) ∨
  (budget + (cursorOf free).rest.length < c.rest.length ∧
    ∃ c', limited = .error .execFuelExhausted c')

theorem Spends.nothing (budget : Nat) {c : Cursor} {free : EStateM.Result Stop Cursor α}
    (h : (cursorOf free).rest = c.rest) :
    Spends budget c free (mapCursor (withFuel budget) free) :=
  Or.inl ⟨budget, by rw [h], rfl⟩

/-- A level costs nothing. -/
theorem Spends.nested {budget : Nat} {c : Cursor}
    (h : Spends budget (opened c) (q (opened c)) (q (withFuel budget (opened c)))) :
    Spends budget c (Parser.nested q c) (Parser.nested q (withFuel budget c)) := by
  have hopened : opened (withFuel budget c) = withFuel budget (opened c) := rfl
  cases hrun : q (opened c) with
  | ok a c₁ =>
    rw [hrun] at h
    rw [nested_of_ok hrun]
    rcases h with ⟨left, hleft, hlimited⟩ | ⟨hlt, c', hlimited⟩
    · rw [← hopened] at hlimited
      rw [nested_of_ok hlimited]
      exact Or.inl ⟨left, hleft, rfl⟩
    · rw [← hopened] at hlimited
      exact Or.inr ⟨hlt, c', nested_of_error hlimited⟩
  | error stop c₁ =>
    rw [hrun] at h
    rw [nested_of_error hrun]
    rcases h with ⟨left, hleft, hlimited⟩ | ⟨hlt, c', hlimited⟩
    · rw [← hopened] at hlimited
      rw [nested_of_error hlimited]
      exact Or.inl ⟨left, hleft, rfl⟩
    · rw [← hopened] at hlimited
      exact Or.inr ⟨hlt, c', nested_of_error hlimited⟩

/-- Every rule spends one unit for each lexeme that it takes. -/
theorem spends (h : Cut n s t p q) {c : Cursor} (hc : c.fuel = none) (budget : Nat) :
    Spends budget c (q c) (q (withFuel budget c)) := by
  induction h generalizing c budget with
  | pure a _ => exact .nothing budget rfl
  | throw stop => exact .nothing budget rfl
  | @reading _ _ _ f hf =>
    have hread : Parser.reading f (withFuel budget c) =
        mapCursor (withFuel budget) (Parser.reading f c) := by
      show EStateM.Result.ok (f (withFuel budget c)) _ = EStateM.Result.ok (f c) _
      rw [withFuel, hf]
    rw [hread]
    exact .nothing budget rfl
  | countLook _ => exact .nothing budget rfl
  | bump =>
    cases hrest : c.rest with
    | nil =>
      rw [bump_of_nil hrest, bump_of_nil (c := withFuel budget c) hrest]
      exact .nothing budget rfl
    | cons l rest =>
      rw [bump_of_cons hrest (by rw [hc]; exact nofun)]
      cases budget with
      | zero =>
        refine Or.inr ⟨?_, _, bump_of_exhausted (c := withFuel 0 c) ?_ rfl⟩
        · show 0 + rest.length < c.rest.length
          rw [hrest, List.length_cons]
          omega
        · show c.rest ≠ []
          rw [hrest]
          exact List.cons_ne_nil _ _
      | succ budget =>
        refine Or.inl ⟨budget, ?_, bump_of_cons (c := withFuel (budget + 1) c) hrest nofun⟩
        show budget + 1 + rest.length = budget + c.rest.length
        rw [hrest, List.length_cons]
        omega
  | @bind _ _ _ _ _ _ _ q _ g hfirst hnext ih ihnext =>
    have hreach := hfirst.reaches c
    cases hrun : q c with
    | ok a c₁ =>
      have hspends := ih hc budget
      rw [hrun] at hspends hreach
      rw [bind_of_ok hrun]
      have hshorter := ((hnext a).reaches c₁).rest.length_le
      rcases hspends with ⟨left, hleft, hlimited⟩ | ⟨hlt, c', hlimited⟩
      · rw [bind_of_ok hlimited]
        change budget + c₁.rest.length = left + c.rest.length at hleft
        have hc₁ : c₁.fuel = none := hreach.fuel hc
        rcases ihnext a hc₁ left with ⟨left', hleft', hlimited'⟩ | ⟨hlt, hlimited'⟩
        · exact Or.inl ⟨left', by omega, hlimited'⟩
        · exact Or.inr ⟨by omega, hlimited'⟩
      · change budget + c₁.rest.length < c.rest.length at hlt
        exact Or.inr ⟨by omega, c', bind_of_error hlimited⟩
    | error stop c₁ =>
      have hspends := ih hc budget
      rw [hrun] at hspends
      rw [bind_of_error hrun]
      rcases hspends with ⟨left, hleft, hlimited⟩ | ⟨hlt, c', hlimited⟩
      · exact Or.inl ⟨left, hleft, bind_of_error hlimited⟩
      · exact Or.inr ⟨hlt, c', bind_of_error hlimited⟩
  | nested _ ih => exact .nested (ih (c := opened _) hc budget)
  | tooDeep _ ih => exact .nested (ih (c := opened _) hc budget)

/-! ## Fewer levels -/

/-- What a run says about one with fewer levels, of which `bound` may be open at once: the same, if
no more were open, and otherwise the run stops because it is too deep. -/
def Descends (bound : Nat) (free limited : EStateM.Result Stop Cursor α) : Prop :=
  ((cursorOf free).deepest ≤ bound ∧ limited = free) ∨
  (bound < (cursorOf free).deepest ∧ ∃ c', limited = .error .recursionLimitExceeded c')

/-- A rule with fewer levels does what it does with more, until it would open one too many. -/
theorem descends (h : Cut n s t p q) {c : Cursor} (hc : c.deepest ≤ c.depth + n) :
    Descends (c.depth + n) (q c) (p c) := by
  induction h generalizing c with
  | pure _ _ | throw _ | reading _ _ | countLook _ => exact Or.inl ⟨hc, rfl⟩
  | @bump n i k =>
    have hsame : (cursorOf (Parser.bump c)).deepest = c.deepest := by
      rw [Parser.bump]
      split
      · rfl
      · split <;> rfl
    exact Or.inl ⟨hsame ▸ hc, rfl⟩
  | @bind _ _ _ _ _ _ p q f g hfirst hnext ih ihnext =>
    have hdescends := ih hc
    cases hrun : q c with
    | ok a c₁ =>
      rw [hrun] at hdescends
      rw [bind_of_ok hrun]
      have hdepth : c₁.depth = c.depth := hfirst.depth_eq hrun
      rcases hdescends with ⟨hle, hlimited⟩ | ⟨hlt, c', hlimited⟩
      · rw [bind_of_ok hlimited, ← hdepth]
        exact ihnext a (hdepth.symm ▸ hle)
      · exact Or.inr ⟨hlt.trans_le ((hnext a).reaches c₁).deepest, c', bind_of_error hlimited⟩
    | error stop c₁ =>
      rw [hrun] at hdescends
      rw [bind_of_error hrun]
      rcases hdescends with ⟨hle, hlimited⟩ | ⟨hlt, c', hlimited⟩
      · exact Or.inl ⟨hle, bind_of_error hlimited⟩
      · exact Or.inr ⟨hlt, c', bind_of_error hlimited⟩
  | @nested n _ _ _ _ p q _ ih =>
    have hopened : (opened c).depth + n = c.depth + (n + 1) := by
      show c.depth + 1 + n = _
      omega
    have hinner := ih (c := opened c) (max_le (by omega) (by rw [hopened]; omega))
    rw [hopened] at hinner
    cases hrun : q (opened c) with
    | ok a c₁ =>
      rw [hrun] at hinner
      rw [nested_of_ok hrun]
      rcases hinner with ⟨hle, hlimited⟩ | ⟨hlt, c', hlimited⟩
      · exact Or.inl ⟨hle, nested_of_ok hlimited⟩
      · exact Or.inr ⟨hlt, c', nested_of_error hlimited⟩
    | error stop c₁ =>
      rw [hrun] at hinner
      rw [nested_of_error hrun]
      rcases hinner with ⟨hle, hlimited⟩ | ⟨hlt, c', hlimited⟩
      · exact Or.inl ⟨hle, nested_of_error hlimited⟩
      · exact Or.inr ⟨hlt, c', nested_of_error hlimited⟩
  | @tooDeep _ _ _ _ _ q hinner _ =>
    refine Or.inr ⟨?_, c, rfl⟩
    have hdeep : c.depth + 1 ≤ (cursorOf (q (opened c))).deepest :=
      (le_max_right _ _).trans (hinner.reaches (opened c)).deepest
    cases hrun : q (opened c) with
    | ok a c₁ =>
      rw [hrun] at hdeep
      rw [nested_of_ok hrun]
      exact hdeep
    | error stop c₁ =>
      rw [hrun] at hdeep
      rw [nested_of_error hrun]
      exact hdeep

end Cut

end Parser

end RubySig
