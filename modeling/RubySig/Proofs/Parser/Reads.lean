import RubySig.Proofs.Parser.Ensures
import RubySig.Proofs.Token.Texts

/-!
# Rules that read a text

A rule without a step budget that is entered in front of some words returns something and stops in
front of the words behind.  What it returns is what a text stands for, once it is known of which
words the text consists.

* `Parser.Reads`: what a rule returns in front of words, and which words it leaves.
* `Reads.pure`, `Reads.bind`, `Reads.exactly`, `Reads.ifTrue`, `Reads.ifFalse`: steps.
* `reads_look`, `reads_bump`, `reads_eat`, `reads_expect`: looking and taking.
* `reads_separated`, `reads_separatedUntil`, `reads_repeatedAfter`: repetition, with the texts of
  the items in a row.
-/

namespace RubySig

/-- The words that are still to be read. -/
def Cursor.words (c : Cursor) : List Word := c.rest.map fun l => (l.kind, l.text)

/-- The kind of the word at a place, if there is one. -/
def kindAt (ws : List Word) (n : Nat) : TokenKind := (ws[n]?.map (·.1)).getD .endOfText

theorem kindOf_eq_kindAt (c : Cursor) (n : Nat) : kindOf c.rest n = kindAt c.words n := by
  rw [kindOf, kindAt, Cursor.words, List.getElem?_map, Option.map_map]
  rfl

namespace Parser

variable {α β : Type}

/-- In front of the words `ws` and without a step budget, a rule returns something with a property
and stops in front of the words `left`. -/
structure Reads (p : Parser α) (ws : List Word) (post : α → Prop) (left : List Word) : Prop where
  suffix : left <:+ ws
  run : ∀ c, c.fuel = none → c.words = ws →
    ∃ a c', p c = .ok a c' ∧ post a ∧ c'.fuel = none ∧ c'.words = left

/-- A cursor in front of words. -/
def frontOf (ws : List Word) : Cursor :=
  { source := default, textEnd := 0, rest := ws.map fun w => ⟨w.1, w.2, default, false, false⟩,
    lastEnd := 0, fuel := none, depth := 0, deepest := 0, looks := 0, mostLooks := 0 }

namespace Reads

variable {p : Parser α} {ws ws₁ left : List Word} {mid post : α → Prop} {result : β → Prop}

/-! ## Steps -/

theorem pure {a : α} (h : post a) : Reads (Pure.pure a : Parser α) ws post ws :=
  ⟨List.suffix_refl _, fun c hfuel hws => ⟨a, c, rfl, h, hfuel, hws⟩⟩

theorem mono (h : Reads p ws mid left) (hpost : ∀ a, mid a → post a) : Reads p ws post left := by
  refine ⟨h.suffix, fun c hfuel hws => ?_⟩
  obtain ⟨a, c', hrun, ha, hleft⟩ := h.run c hfuel hws
  exact ⟨a, c', hrun, hpost a ha, hleft⟩

/-- Some cursor is in front of the words, so the rule does return something. -/
theorem exists_result (h : Reads p ws post left) : ∃ a, post a := by
  have hwords : (frontOf ws).words = ws := by
    rw [Cursor.words, frontOf, List.map_map]
    exact List.map_id ws
  obtain ⟨a, -, -, ha, -⟩ := h.run (frontOf ws) rfl hwords
  exact ⟨a, ha⟩

theorem bind {f : α → Parser β} (hp : Reads p ws mid ws₁)
    (hf : ∀ a, mid a → Reads (f a) ws₁ result left) : Reads (p >>= f) ws result left := by
  obtain ⟨a, ha⟩ := hp.exists_result
  refine ⟨(hf a ha).suffix.trans hp.suffix, fun c hfuel hws => ?_⟩
  obtain ⟨a, c₁, hfirst, ha, hfuel₁, hws₁⟩ := hp.run c hfuel hws
  obtain ⟨b, c', hsecond, hb, hleft⟩ := (hf a ha).run c₁ hfuel₁ hws₁
  exact ⟨b, c', (bind_of_ok hfirst).trans hsecond, hb, hleft⟩

/-- The first step returns a known result. -/
theorem exactly {a : α} {f : α → Parser β} (hp : Reads p ws (· = a) ws₁)
    (hf : Reads (f a) ws₁ result left) : Reads (p >>= f) ws result left :=
  bind hp fun _ hb => hb ▸ hf

/-- What the first step returns does not matter. -/
theorem step {f : α → Parser β} (hp : Reads p ws (fun _ => True) ws₁)
    (hf : ∀ a, Reads (f a) ws₁ result left) : Reads (p >>= f) ws result left :=
  bind hp fun a _ => hf a

theorem ifTrue {question : Parser Bool} {q : Parser α}
    (hquestion : Reads question ws (· = true) ws₁) (hp : Reads p ws₁ post left) :
    Reads (do if ← question then p else q) ws post left :=
  exactly hquestion hp

theorem ifFalse {question : Parser Bool} {q : Parser α}
    (hquestion : Reads question ws (· = false) ws₁) (hq : Reads q ws₁ post left) :
    Reads (do if ← question then p else q) ws post left :=
  exactly hquestion hq

theorem nested (h : Reads p ws post left) : Reads (Parser.nested p) ws post left := by
  refine ⟨h.suffix, fun c hfuel hws => ?_⟩
  obtain ⟨a, c', hrun, ha, hfuel', hws'⟩ := h.run (opened c) hfuel hws
  exact ⟨a, closed c', nested_of_ok hrun, ha, hfuel', hws'⟩

end Reads

/-! ## Looking -/

section Looking

variable {ws : List Word} {kind : TokenKind}

theorem reads_peek (n : Nat) : Reads (peek n) ws (· = kindAt ws n) ws :=
  ⟨List.suffix_refl _, fun c hfuel hws =>
    ⟨_, looked c, peek_eq n c, by rw [kindOf_eq_kindAt, hws], hfuel, hws⟩⟩

theorem reads_look : Reads look ws (· = kindAt ws 0) ws := reads_peek 0

theorem reads_isAt (kind : TokenKind) : Reads (isAt kind) ws (· = (kindAt ws 0 == kind)) ws :=
  .exactly reads_look (.pure rfl)

theorem reads_isFollowedBy (kind : TokenKind) :
    Reads (isFollowedBy kind) ws (· = (kindAt ws 1 == kind)) ws :=
  .exactly (reads_peek 1) (.pure rfl)

theorem reads_isAt_true (h : kindAt ws 0 = kind) : Reads (isAt kind) ws (· = true) ws :=
  (reads_isAt kind).mono fun _ hb => hb.trans (beq_iff_eq.2 h)

theorem reads_isAt_false (h : kindAt ws 0 ≠ kind) : Reads (isAt kind) ws (· = false) ws :=
  (reads_isAt kind).mono fun _ hb => hb.trans (beq_eq_false_iff_ne.2 h)

theorem reads_isAtPair (kind following : TokenKind) :
    Reads (isAtPair kind following) ws
      (· = (kindAt ws 0 == kind && kindAt ws 1 == following)) ws := by
  by_cases h : kindAt ws 0 = kind
  · rw [beq_iff_eq.2 h]
    exact .ifTrue (reads_isAt_true h) (reads_isFollowedBy following)
  · rw [beq_eq_false_iff_ne.2 h]
    exact .ifFalse (reads_isAt_false h) (.pure rfl)

/-- A step that reads the cursor and returns something. -/
theorem reads_of_reading {p : Parser α} (h : ∀ c, ∃ a, p c = .ok a c) :
    Reads p ws (fun _ => True) ws := by
  refine ⟨List.suffix_refl _, fun c hfuel hws => ?_⟩
  obtain ⟨a, ha⟩ := h c
  exact ⟨a, c, ha, trivial, hfuel, hws⟩

theorem reads_startOffset : Reads startOffset ws (fun _ => True) ws :=
  reads_of_reading fun _ => ⟨_, rfl⟩

theorem reads_currentRange : Reads currentRange ws (fun _ => True) ws :=
  reads_of_reading fun _ => ⟨_, rfl⟩

theorem reads_rangeFrom (start : Nat) : Reads (rangeFrom start) ws (fun _ => True) ws :=
  reads_of_reading fun _ => ⟨_, rfl⟩

theorem reads_spanFrom (start : Nat) : Reads (spanFrom start) ws (fun _ => True) ws :=
  reads_of_reading fun _ => ⟨_, rfl⟩

theorem reads_rounds : Reads rounds ws (· = ws.length + 1) ws := by
  refine ⟨List.suffix_refl _, fun c hfuel hws => ⟨_, c, rfl, ?_, hfuel, hws⟩⟩
  show c.rest.length + 1 = ws.length + 1
  rw [← hws, Cursor.words, List.length_map]

end Looking

/-! ## Taking -/

section Taking

variable {ws : List Word} {kind : TokenKind} {text : String}

theorem reads_bump : Reads bump ((kind, text) :: ws) (· = text) ws := by
  refine ⟨List.suffix_cons _ _, fun c hfuel hws => ?_⟩
  obtain ⟨l, rest, hrest, hl, hws'⟩ := List.map_eq_cons_iff.1 hws
  obtain ⟨-, htext⟩ := Prod.mk.inj hl
  refine ⟨l.text, behind c l rest, bump_of_cons hrest (hfuel ▸ nofun), htext, ?_, hws'⟩
  show c.fuel.map _ = none
  rw [hfuel]
  rfl

theorem reads_assertAt : Reads (assertAt kind) ((kind, text) :: ws) (fun _ => True)
    ((kind, text) :: ws) := by
  have hsame : (kind != kind) = false := bne_self_eq_false' kind
  refine .exactly reads_look ?_
  show Reads (if (kind != kind) = true then _ else _) _ _ _
  rw [hsame]
  exact .pure trivial

theorem reads_eat : Reads (eat kind) ((kind, text) :: ws) (· = true) ws :=
  .ifTrue (reads_isAt_true rfl) (.exactly reads_bump (.pure rfl))

theorem reads_eat_false (h : kindAt ws 0 ≠ kind) : Reads (eat kind) ws (· = false) ws :=
  .ifFalse (reads_isAt_false h) (.pure rfl)

theorem reads_expect (what : String) :
    Reads (expect kind what) ((kind, text) :: ws) (fun _ => True) ws :=
  .ifTrue (reads_isAt_true rfl) (.step reads_currentRange fun _ =>
    .exactly reads_bump (.pure trivial))

end Taking

/-! ## Repetition -/

section Repetition

variable {γ : Type} {p : Parser α} {erase : α → γ} {kind close : TokenKind} {mark : String}

/-- A round that is the last one. -/
theorem reads_lastRound {q : Parser (List α)} {ws left : List Word} {v : γ}
    (hp : Reads p ws (erase · = v) left) (hend : kindAt left 0 ≠ kind) :
    Reads (do
      let a ← p
      if ← eat kind then return a :: (← q) else return [a]) ws
      (fun as => as.map erase = [v]) left :=
  .bind hp fun a ha => .ifFalse (reads_eat_false hend) (.pure (by rw [← ha]; rfl))

/-- A round with another one behind it. -/
theorem reads_round {q : Parser (List α)} {ws ws' left : List Word} {v : γ} {vs : List γ}
    (hp : Reads p ws (erase · = v) ((kind, mark) :: ws'))
    (hq : Reads q ws' (fun as => as.map erase = vs) left) :
    Reads (do
      let a ← p
      if ← eat kind then return a :: (← q) else return [a]) ws
      (fun as => as.map erase = v :: vs) left :=
  .bind hp fun a ha => .ifTrue reads_eat (.bind hq fun as has => .pure (by
    rw [List.map_cons, ha, has]))

variable {ι : Type} {value : ι → γ} {text : ι → String} {ok : String → Prop} {sep : String}

/-- Texts in a row, each behind a separator. -/
def joined (sep : String) (text : ι → String) (xs : List ι) : String :=
  String.join (xs.map fun x => sep ++ text x)

theorem joined_cons (x : ι) (xs : List ι) :
    joined sep text (x :: xs) = sep ++ (text x ++ joined sep text xs) := by
  rw [joined, List.map_cons, String.join_cons, String.append_assoc, joined]

theorem intercalate_cons (x : ι) (xs : List ι) :
    sep.intercalate ((x :: xs).map text) = text x ++ joined sep text xs := by
  induction xs generalizing x with
  | nil =>
    rw [List.map_singleton, String.intercalate_singleton]
    exact String.append_empty.symm
  | cons y ys ih =>
    rw [List.map_cons, List.map_cons, String.intercalate_cons_cons, ← List.map_cons, ih,
      joined_cons, String.append_assoc]

/-- The texts of a list are read one by one, as long as what follows each of them is fine. -/
structure Items (p : Parser α) (erase : α → γ) (value : ι → γ) (text : ι → String)
    (ok : String → Prop) (sep : String) (kind : TokenKind) (mark : String) (xs : List ι) :
    Prop where
  separator : ∀ rest, words (sep ++ rest) = (kind, mark) :: words rest
  separated : ∀ rest, ok (sep ++ rest)
  item : ∀ x ∈ xs, ∀ rest, ok rest →
    Reads p (words (text x ++ rest)) (erase · = value x) (words rest)

variable {x : ι} {xs : List ι} {rest : String} {n : Nat}

theorem Items.tail (h : Items p erase value text ok sep kind mark (x :: xs)) :
    Items p erase value text ok sep kind mark xs :=
  ⟨h.separator, h.separated, fun y hy => h.item y (List.mem_cons_of_mem _ hy)⟩

/-- What follows an item is fine. -/
theorem Items.ok_joined (h : Items p erase value text ok sep kind mark xs) (hrest : ok rest) :
    ok (joined sep text xs ++ rest) := by
  cases xs with
  | nil => rwa [joined, List.map_nil, String.join_nil, String.empty_append]
  | cons x xs =>
    rw [joined_cons, String.append_assoc]
    exact h.separated _

theorem Items.words_joined (h : Items p erase value text ok sep kind mark (x :: xs)) :
    words (joined sep text (x :: xs) ++ rest) =
      (kind, mark) :: words (text x ++ (joined sep text xs ++ rest)) := by
  rw [joined_cons, String.append_assoc, String.append_assoc, h.separator]

theorem words_joined_nil : words (joined sep text [] ++ rest) = words rest := by
  rw [joined, List.map_nil, String.join_nil, String.empty_append]

/-- Every round takes a separator, so the words that are left bound the rounds. -/
theorem Items.length_lt (h : Items p erase value text ok sep kind mark (x :: xs)) {ws : List Word}
    (hsuffix : words (joined sep text (x :: xs) ++ rest) <:+ ws) (hn : ws.length < n + 1) :
    (words (text x ++ (joined sep text xs ++ rest))).length < n := by
  have hle := hsuffix.length_le
  rw [h.words_joined, List.length_cons] at hle
  omega

theorem reads_separatedWithin (h : Items p erase value text ok sep kind mark (x :: xs))
    (hrest : ok rest) (hend : kindAt (words rest) 0 ≠ kind)
    (hn : (words (text x ++ (joined sep text xs ++ rest))).length < n) :
    Reads (separatedWithin kind p n) (words (text x ++ (joined sep text xs ++ rest)))
      (fun as => as.map erase = (x :: xs).map value) (words rest) := by
  induction n generalizing x xs with
  | zero => exact absurd hn (Nat.not_lt_zero _)
  | succ n ih =>
    have hitem := h.item x List.mem_cons_self _ (h.tail.ok_joined hrest)
    cases xs with
    | nil =>
      rw [words_joined_nil] at hitem
      exact reads_lastRound hitem hend
    | cons y ys =>
      have hlt := h.tail.length_lt hitem.suffix hn
      rw [h.tail.words_joined] at hitem
      exact reads_round hitem (ih h.tail hlt)

/-- Items with separators between them are read one by one. -/
theorem reads_separated (h : Items p erase value text ok sep kind mark (x :: xs))
    (hrest : ok rest) (hend : kindAt (words rest) 0 ≠ kind) :
    Reads (separated kind p) (words (sep.intercalate ((x :: xs).map text) ++ rest))
      (fun as => as.map erase = (x :: xs).map value) (words rest) := by
  rw [intercalate_cons, String.append_assoc]
  exact .exactly reads_rounds (reads_separatedWithin h hrest hend (Nat.lt_succ_self _))

theorem reads_separatedUntilWithin (h : Items p erase value text ok sep kind mark (x :: xs))
    (hopen : ∀ y ∈ x :: xs, ∀ rest, ok rest → kindAt (words (text y ++ rest)) 0 ≠ close)
    (hrest : ok rest) (hend : kindAt (words rest) 0 ≠ kind)
    (hn : (words (text x ++ (joined sep text xs ++ rest))).length < n) :
    Reads (separatedUntilWithin close kind p n) (words (text x ++ (joined sep text xs ++ rest)))
      (fun as => as.map erase = (x :: xs).map value) (words rest) := by
  induction n generalizing x xs with
  | zero => exact absurd hn (Nat.not_lt_zero _)
  | succ n ih =>
    have hok := h.tail.ok_joined hrest
    have hitem := h.item x List.mem_cons_self _ hok
    refine .ifFalse (reads_isAt_false (hopen x List.mem_cons_self _ hok)) ?_
    cases xs with
    | nil =>
      rw [words_joined_nil] at hitem
      exact reads_lastRound hitem hend
    | cons y ys =>
      have hlt := h.tail.length_lt hitem.suffix hn
      rw [h.tail.words_joined] at hitem
      exact reads_round hitem
        (ih h.tail (fun z hz => hopen z (List.mem_cons_of_mem _ hz)) hlt)

/-- Items up to a closing word are read one by one. -/
theorem reads_separatedUntil (h : Items p erase value text ok sep kind mark (x :: xs))
    (hopen : ∀ y ∈ x :: xs, ∀ rest, ok rest → kindAt (words (text y ++ rest)) 0 ≠ close)
    (hrest : ok rest) (hend : kindAt (words rest) 0 ≠ kind) :
    Reads (separatedUntil close kind p) (words (sep.intercalate ((x :: xs).map text) ++ rest))
      (fun as => as.map erase = (x :: xs).map value) (words rest) := by
  rw [intercalate_cons, String.append_assoc]
  exact .exactly reads_rounds (reads_separatedUntilWithin h hopen hrest hend (Nat.lt_succ_self _))

/-- Where the closing word stands nothing is read. -/
theorem reads_separatedUntil_nil {ws : List Word} (h : kindAt ws 0 = close) :
    Reads (separatedUntil close kind p) ws (· = []) ws :=
  .exactly reads_rounds (.ifTrue (reads_isAt_true h) (.pure rfl))

/-- Items behind marks are read one by one. -/
theorem reads_repeatedAfter (h : Items p erase value text ok sep kind mark xs) (hrest : ok rest)
    (hend : kindAt (words rest) 0 ≠ kind) :
    Reads (repeatedAfter kind p) (words (joined sep text xs ++ rest))
      (fun as => as.map erase = xs.map value) (words rest) := by
  have hwithin : ∀ (n : Nat) (xs : List ι), Items p erase value text ok sep kind mark xs →
      (words (joined sep text xs ++ rest)).length < n →
      Reads (repeatedAfterWithin kind p n) (words (joined sep text xs ++ rest))
        (fun as => as.map erase = xs.map value) (words rest) := by
    intro n
    induction n with
    | zero => exact fun _ _ hn => absurd hn (Nat.not_lt_zero _)
    | succ n ih =>
      intro xs h hn
      cases xs with
      | nil =>
        rw [words_joined_nil]
        exact .ifFalse (reads_eat_false hend) (.pure rfl)
      | cons x xs =>
        have hitem := h.item x List.mem_cons_self _ (h.tail.ok_joined hrest)
        have hlt := h.length_lt (List.suffix_refl _) hn
        have hle := hitem.suffix.length_le
        rw [h.words_joined]
        exact .ifTrue reads_eat (.bind hitem fun a ha =>
          .bind (ih xs h.tail (by omega)) fun as has => .pure (by
            rw [List.map_cons, List.map_cons, ha, has]))
  exact .exactly reads_rounds (hwithin _ xs h (Nat.lt_succ_self _))

end Repetition

end Parser

end RubySig
