import RubySig.Parser.Members

/-!
# What a rule of the grammar returns

A rule yields results with a property if everything that it returns has it, wherever the rule is
entered.  Nothing is said about a rule that stops.

* `Parser.Yields`: the property of a rule.
* `Yields.pure`, `Yields.bind`, `Yields.ite`, `Yields.throw`: the steps from which rules are built.
* `Yields.nested`, `Yields.separated`, `Yields.separatedUntil`, `Yields.repeatedAfter`,
  `Yields.memberList`: what repetition returns.
-/

namespace RubySig

namespace Parser

variable {α β : Type}

/-- Two steps return something if the second one does, entered where the first one ends. -/
theorem exists_of_bind_eq_ok {p : Parser α} {f : α → Parser β} {c c' : Cursor} {b : β}
    (h : (p >>= f) c = .ok b c') : ∃ a c₁, p c = .ok a c₁ ∧ f a c₁ = .ok b c' := by
  change EStateM.bind p f c = .ok b c' at h
  rw [EStateM.bind] at h
  split at h
  · exact ⟨_, _, ‹_›, h⟩
  · cases h

/-- Everything that a rule returns has a property. -/
def Yields (p : Parser α) (post : α → Prop) : Prop := ∀ c a c', p c = .ok a c' → post a

namespace Yields

variable {p : Parser α} {mid post : α → Prop} {result : β → Prop}

/-! ## Single steps -/

theorem any (p : Parser α) : Yields p fun _ => True := fun _ _ _ _ => trivial

theorem pure {a : α} (h : post a) : Yields (Pure.pure a : Parser α) post := by
  intro c b c' hrun
  cases hrun
  exact h

theorem throw (stop : Stop) : Yields (MonadExcept.throw stop : Parser α) post :=
  fun _ _ _ hrun => by cases hrun

/-- The first step yields what the second one needs. -/
theorem bind {f : α → Parser β} (hp : Yields p mid) (hf : ∀ a, mid a → Yields (f a) result) :
    Yields (p >>= f) result := by
  intro c b c' hrun
  obtain ⟨a, c₁, hfirst, hsecond⟩ := exists_of_bind_eq_ok hrun
  exact hf a (hp c a c₁ hfirst) c₁ b c' hsecond

/-- What the first step returns does not matter. -/
theorem step {f : α → Parser β} (hf : ∀ a, Yields (f a) result) : Yields (p >>= f) result :=
  bind (any p) fun a _ => hf a

theorem ite {c : Prop} [Decidable c] {q : Parser α} (hp : c → Yields p post)
    (hq : ¬ c → Yields q post) : Yields (if c then p else q) post := by
  split
  · exact hp ‹_›
  · exact hq ‹_›

theorem failAt (range : TextRange) (message : String) :
    Yields (Parser.failAt range message : Parser α) post :=
  throw _

theorem unexpected (what : String) : Yields (Parser.unexpected what : Parser α) post :=
  step fun _ => ite (fun _ => step fun _ => failAt _ _)
    fun _ => step fun _ => step fun _ => step fun _ => failAt _ _

theorem tooDeep : Yields (Parser.tooDeep : Parser α) post := throw _

theorem nested (h : Yields p post) : Yields (Parser.nested p) post :=
  step fun _ => bind h fun _ ha => step fun _ => pure ha

/-! ## Repetition -/

variable {mark separator close : TokenKind}

/-- A repetition either stops after this round or goes on in another one. -/
theorem cons {q : Parser (List α)} {a : α} (ha : post a)
    (hq : Yields q fun as => ∀ a ∈ as, post a) :
    Yields (do return a :: (← q)) fun as => ∀ a ∈ as, post a :=
  bind hq fun _ has => pure (List.forall_mem_cons.2 ⟨ha, has⟩)

theorem nil : Yields (Pure.pure [] : Parser (List α)) fun as => ∀ a ∈ as, post a :=
  pure fun _ ha => absurd ha List.not_mem_nil

theorem singleton {a : α} (ha : post a) :
    Yields (Pure.pure [a] : Parser (List α)) fun as => ∀ a ∈ as, post a :=
  pure (List.forall_mem_singleton.2 ha)

theorem separatedWithin (h : Yields p post) (n : Nat) :
    Yields (Parser.separatedWithin separator p n) fun as => ∀ a ∈ as, post a := by
  induction n with
  | zero => exact throw _
  | succ n ih =>
    exact bind h fun a ha => step fun _ => ite (fun _ => cons ha ih) fun _ => singleton ha

theorem separated (h : Yields p post) :
    Yields (Parser.separated separator p) fun as => ∀ a ∈ as, post a :=
  step fun _ => separatedWithin h _

theorem separatedUntilWithin (h : Yields p post) (n : Nat) :
    Yields (Parser.separatedUntilWithin close separator p n) fun as => ∀ a ∈ as, post a := by
  induction n with
  | zero => exact throw _
  | succ n ih =>
    refine step fun _ => ite (fun _ => nil) fun _ => ?_
    exact bind h fun a ha => step fun _ => ite (fun _ => cons ha ih) fun _ => singleton ha

theorem separatedUntil (h : Yields p post) :
    Yields (Parser.separatedUntil close separator p) fun as => ∀ a ∈ as, post a :=
  step fun _ => separatedUntilWithin h _

theorem repeatedAfterWithin (h : Yields p post) (n : Nat) :
    Yields (Parser.repeatedAfterWithin mark p n) fun as => ∀ a ∈ as, post a := by
  induction n with
  | zero => exact throw _
  | succ n ih =>
    exact step fun _ => ite (fun _ => bind h fun _ ha => cons ha ih) fun _ => nil

theorem repeatedAfter (h : Yields p post) :
    Yields (Parser.repeatedAfter mark p) fun as => ∀ a ∈ as, post a :=
  step fun _ => repeatedAfterWithin h _

theorem memberListWithin {p : Parser Member} {post : Member → Prop} (h : Yields p post) (n : Nat) :
    Yields (Parser.memberListWithin p n) fun ms => ∀ m ∈ ms, post m := by
  induction n with
  | zero => exact throw _
  | succ n ih =>
    refine step fun _ => ite (fun _ => nil) fun _ => step fun _ => ite (fun _ => unexpected _) ?_
    exact fun _ => bind h fun _ hm => cons hm ih

theorem memberList {p : Parser Member} {post : Member → Prop} (h : Yields p post) :
    Yields (Parser.memberList p) fun ms => ∀ m ∈ ms, post m :=
  step fun _ => memberListWithin h _

end Yields

end Parser

end RubySig
