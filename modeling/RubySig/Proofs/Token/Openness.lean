import RubySig.Proofs.Token.Words

/-!
# Where tokens may end

A text is open to the characters that some rule can still read behind it.  In front of any other
character a token ends.

* `CharClass.within`, `Pattern.within`: a bound on the characters that are read.
* `OpenTo`, `OpenTo.stops`: the characters that can be read behind a text.
* `TokenKind.Spells.exists_rule`: the rule that describes a token.
-/

namespace RubySig

/-! ## Bounds on characters -/

/-- Whether all characters of a class are in a set. -/
def CharClass.within (set : Char → Bool) : CharClass → Bool
  | only c => set c
  | between lo hi =>
    (List.range' lo.toNat (hi.toNat + 1 - lo.toNat)).all fun n => set (Char.ofNat n)
  | either a b => a.within set && b.within set
  | excluding _ => false

theorem CharClass.mem_of_within {set : Char → Bool} {cls : CharClass} {c : Char}
    (h : cls.within set = true) (hc : cls.contains c = true) : set c = true := by
  induction cls with
  | only d =>
    obtain rfl : c = d := beq_iff_eq.1 hc
    exact h
  | between lo hi =>
    simp only [CharClass.contains, Bool.and_eq_true, decide_eq_true_eq] at hc
    have hlo : lo.toNat ≤ c.toNat := hc.1
    have hhi : c.toNat ≤ hi.toNat := hc.2
    have hset := List.all_eq_true.1 h c.toNat (List.mem_range'_1.2 ⟨hlo, by omega⟩)
    rwa [Char.ofNat_toNat] at hset
  | either a b iha ihb =>
    rw [CharClass.within, Bool.and_eq_true] at h
    rw [CharClass.contains, Bool.or_eq_true] at hc
    exact hc.elim (iha h.1) (ihb h.2)
  | excluding cs => cases h

namespace Pattern

/-- Whether all characters that a pattern reads are in a set. -/
def within (set : Char → Bool) : Pattern → Bool
  | never | nothing => true
  | one cls => cls.within set
  | seq p q | alt p q => p.within set && q.within set
  | many p => p.within set

variable {set : Char → Bool} {p q : Pattern} {c : Char}

theorem within_mkSeq (hp : p.within set = true) (hq : q.within set = true) :
    (mkSeq p q).within set = true := by
  unfold mkSeq
  split
  · rfl
  · exact hq
  · split
    · rfl
    · rw [within, hp, hq]
      rfl

theorem within_mkAlt (hp : p.within set = true) (hq : q.within set = true) :
    (mkAlt p q).within set = true := by
  unfold mkAlt
  split
  · exact hq
  · split
    · exact hp
    · rw [within, hp, hq]
      rfl

/-- What may follow is read within the same bound. -/
theorem within_derivative (h : p.within set = true) : (p.derivative c).within set = true := by
  induction p with
  | never | nothing => rfl
  | one cls =>
    rw [derivative]
    split <;> rfl
  | seq p q ihp ihq =>
    rw [within, Bool.and_eq_true] at h
    rw [derivative]
    split
    · exact within_mkAlt (within_mkSeq (ihp h.1) h.2) (ihq h.2)
    · exact within_mkSeq (ihp h.1) h.2
  | alt p q ihp ihq =>
    rw [within, Bool.and_eq_true] at h
    exact within_mkAlt (ihp h.1) (ihq h.2)
  | many p ihp => exact within_mkSeq (ihp h) h

/-- A character outside of the bound is not read. -/
theorem derivative_eq_never (h : p.within set = true) (hc : set c = false) :
    p.derivative c = never := by
  induction p with
  | never | nothing => rfl
  | one cls =>
    rw [derivative, if_neg]
    intro hcontains
    rw [CharClass.mem_of_within h hcontains] at hc
    cases hc
  | seq p q ihp ihq =>
    rw [within, Bool.and_eq_true] at h
    rw [derivative, ihp h.1, ihq h.2]
    split <;> rfl
  | alt p q ihp ihq =>
    rw [within, Bool.and_eq_true] at h
    rw [derivative, ihp h.1, ihq h.2]
    rfl
  | many p ihp =>
    rw [derivative, ihp h]
    rfl

theorem mem_of_matches {s : List Char} (hs : Matches p s) (h : p.within set = true) :
    ∀ c ∈ s, set c = true := by
  induction hs with
  | nothing | manyNil => exact nofun
  | one hc => exact List.forall_mem_singleton.2 (CharClass.mem_of_within h hc)
  | seq _ _ ihp ihq =>
    rw [within, Bool.and_eq_true] at h
    exact List.forall_mem_append.2 ⟨ihp h.1, ihq h.2⟩
  | altLeft _ ih =>
    rw [within, Bool.and_eq_true] at h
    exact ih h.1
  | altRight _ ih =>
    rw [within, Bool.and_eq_true] at h
    exact ih h.2
  | manyCons _ _ ihp ihq => exact List.forall_mem_append.2 ⟨ihp h, ihq h⟩

end Pattern

/-! ## What can be read behind a text -/

/-- Every rule that reads a whole text reads only characters of a set behind it. -/
def OpenTo (set : Char → Bool) (text : List Char) : Prop :=
  ∀ r ∈ survivors tokenRules text, r.pattern.within set = true

instance (set : Char → Bool) (text : List Char) : Decidable (OpenTo set text) :=
  inferInstanceAs (Decidable (∀ r ∈ _, _))

theorem mem_advance {c : Char} {rules : List TokenRule} {r : TokenRule} :
    r ∈ advance c rules ↔
      (∃ r' ∈ rules, r.kind = r'.kind ∧ r.pattern = r'.pattern.derivative c) ∧
        r.pattern ≠ .never := by
  rw [advance, List.mem_filter, List.mem_map, bne_iff_ne]
  refine and_congr_left' ⟨?_, ?_⟩
  · rintro ⟨r', hr', rfl⟩
    exact ⟨r', hr', rfl, rfl⟩
  · rintro ⟨r', hr', hkind, hpattern⟩
    exact ⟨r', hr', by rw [← hkind, ← hpattern]⟩

namespace OpenTo

variable {set : Char → Bool} {text rest : List Char}

theorem append (h : OpenTo set text) (more : List Char) : OpenTo set (text ++ more) := by
  have hmore : ∀ (rules : List TokenRule), (∀ r ∈ rules, r.pattern.within set = true) →
      ∀ r ∈ survivors rules more, r.pattern.within set = true := by
    induction more with
    | nil => exact fun _ hrules => hrules
    | cons c more ih =>
      refine fun rules hrules => ih _ fun r hr => ?_
      obtain ⟨⟨r', hr', -, hpattern⟩, -⟩ := mem_advance.1 hr
      rw [hpattern]
      exact Pattern.within_derivative (hrules r' hr')
  rw [OpenTo, survivors_append]
  exact hmore _ h

/-- A token ends in front of a character that no rule can read behind it. -/
theorem stops (h : OpenTo set text) (hrest : ∀ c ∈ rest.head?, set c = false) :
    Stops text rest := by
  intro c hc
  refine List.eq_nil_iff_forall_not_mem.2 fun r hr => ?_
  obtain ⟨⟨r', hr', -, hpattern⟩, hnever⟩ := mem_advance.1 hr
  rw [hpattern] at hnever
  exact hnever (Pattern.derivative_eq_never (h r' hr') (hrest c hc))

end OpenTo

/-! ## Rules behind tokens -/

/-- A rule that can still go on has read the text so far. -/
theorem exists_of_mem_survivors {rules : List TokenRule} {text : List Char} {r : TokenRule}
    (h : r ∈ survivors rules text) :
    ∃ r' ∈ rules, r.kind = r'.kind ∧
      ∀ more, r.pattern.Matches more → r'.pattern.Matches (text ++ more) := by
  induction text generalizing rules with
  | nil => exact ⟨r, h, rfl, fun _ => id⟩
  | cons c text ih =>
    obtain ⟨r₁, hr₁, hkind, hmatches⟩ := ih h
    obtain ⟨⟨r₂, hr₂, hkind', hpattern⟩, -⟩ := mem_advance.1 hr₁
    refine ⟨r₂, hr₂, hkind.trans hkind', fun more hmore => ?_⟩
    rw [List.cons_append, Pattern.matches_cons_iff, ← hpattern]
    exact hmatches more hmore

/-- A token is described by a rule of its kind. -/
theorem TokenKind.Spells.exists_rule {kind : TokenKind} {text : List Char}
    (h : kind.Spells text) : ∃ r ∈ tokenRules, r.kind = kind ∧ r.pattern.Matches text := by
  obtain ⟨r, hr, hkind⟩ := Option.map_eq_some_iff.1 h
  obtain ⟨r', hr', hkind', hmatches⟩ := exists_of_mem_survivors (List.mem_of_find?_eq_some hr)
  have hnullable : r.pattern.nullable = true :=
    List.find?_some (p := fun r : TokenRule => r.pattern.nullable) hr
  have hmatched := hmatches [] ((Pattern.matches_nil_iff _).2 hnullable)
  rw [List.append_nil] at hmatched
  exact ⟨r', hr', hkind' ▸ hkind, hmatched⟩

end RubySig
