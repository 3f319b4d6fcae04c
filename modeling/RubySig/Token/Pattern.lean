/-!
# Patterns of characters

Regular patterns over characters and a matcher that reads a text one character at a
time: the derivative of a pattern is the pattern of what may follow that character.

* `Pattern.Matches`: which texts a pattern describes.
* `Pattern.nullable`, `Pattern.derivative`: the matcher.
* `Pattern.matches_nil_iff`, `Pattern.matches_cons_iff`: the matcher does what
  `Matches` says.
-/

namespace RubySig

/-- A set of characters. -/
inductive CharClass
  /-- One character. -/
  | only (c : Char)
  /-- The characters from `lo` to `hi`. -/
  | between (lo hi : Char)
  /-- The characters of either set. -/
  | either (a b : CharClass)
  /-- All characters but the listed ones. -/
  | excluding (cs : List Char)
  deriving Repr, Inhabited, DecidableEq

/-- Whether a character belongs to a set. -/
def CharClass.contains : CharClass → Char → Bool
  | only c, x => x == c
  | between lo hi, x => lo ≤ x && x ≤ hi
  | either a b, x => a.contains x || b.contains x
  | excluding cs, x => !cs.contains x

/-- A regular pattern. -/
inductive Pattern
  /-- No text. -/
  | never
  /-- The empty text. -/
  | nothing
  /-- One character of a set. -/
  | one (cls : CharClass)
  /-- A text of `p` and then a text of `q`. -/
  | seq (p q : Pattern)
  /-- A text of `p` or of `q`. -/
  | alt (p q : Pattern)
  /-- Any number of texts of `p`. -/
  | many (p : Pattern)
  deriving Repr, Inhabited, DecidableEq

namespace Pattern

/-! ## Meaning -/

/-- The texts that a pattern describes. -/
inductive Matches : Pattern → List Char → Prop
  /-- The empty text. -/
  | nothing : Matches nothing []
  /-- A single character of the set. -/
  | one {cls : CharClass} {c : Char} : cls.contains c = true → Matches (one cls) [c]
  /-- Two texts, one after the other. -/
  | seq {p q : Pattern} {s t : List Char} : Matches p s → Matches q t → Matches (seq p q) (s ++ t)
  /-- A text of the first alternative. -/
  | altLeft {p q : Pattern} {s : List Char} : Matches p s → Matches (alt p q) s
  /-- A text of the second alternative. -/
  | altRight {p q : Pattern} {s : List Char} : Matches q s → Matches (alt p q) s
  /-- No repetition. -/
  | manyNil {p : Pattern} : Matches (many p) []
  /-- One repetition and then more. -/
  | manyCons {p : Pattern} {s t : List Char} :
      Matches p s → Matches (many p) t → Matches (many p) (s ++ t)

/-! ## Shorthands -/

/-- One given character. -/
def char (c : Char) : Pattern := one (.only c)

/-- A given text. -/
def text : List Char → Pattern
  | [] => nothing
  | c :: cs => seq (char c) (text cs)

/-- A text of `p` or nothing. -/
def optional (p : Pattern) : Pattern := alt p nothing

/-- At least one text of `p`. -/
def repeated (p : Pattern) : Pattern := seq p (many p)

/-- A text of one of the patterns. -/
def anyOf : List Pattern → Pattern
  | [] => never
  | [p] => p
  | p :: q :: rest => alt p (anyOf (q :: rest))

/-! ## Matching -/

/-- `seq` that notices an impossible or empty part. -/
def mkSeq : Pattern → Pattern → Pattern
  | never, _ => never
  | nothing, q => q
  | p, q => if q = never then never else seq p q

/-- `alt` that drops impossible alternatives. -/
def mkAlt : Pattern → Pattern → Pattern
  | never, q => q
  | p, q => if q = never then p else alt p q

/-- Whether the empty text matches. -/
def nullable : Pattern → Bool
  | never => false
  | nothing => true
  | one _ => false
  | seq p q => p.nullable && q.nullable
  | alt p q => p.nullable || q.nullable
  | many _ => true

/-- The pattern of what may follow a first character. -/
def derivative (c : Char) : Pattern → Pattern
  | never => never
  | nothing => never
  | one cls => if cls.contains c then nothing else never
  | seq p q =>
    if p.nullable then mkAlt (mkSeq (p.derivative c) q) (q.derivative c)
    else mkSeq (p.derivative c) q
  | alt p q => mkAlt (p.derivative c) (q.derivative c)
  | many p => mkSeq (p.derivative c) (many p)

/-! ## The matcher agrees with the meaning -/

theorem not_matches_never (s : List Char) : ¬ Matches never s := nofun

theorem matches_nothing_iff {s : List Char} : Matches nothing s ↔ s = [] := by
  constructor
  · intro h; cases h; rfl
  · rintro rfl; exact .nothing

theorem matches_seq_iff {p q : Pattern} {s : List Char} :
    Matches (seq p q) s ↔ ∃ u v, s = u ++ v ∧ Matches p u ∧ Matches q v := by
  constructor
  · intro h; cases h with | seq hp hq => exact ⟨_, _, rfl, hp, hq⟩
  · rintro ⟨u, v, rfl, hp, hq⟩; exact .seq hp hq

theorem matches_alt_iff {p q : Pattern} {s : List Char} :
    Matches (alt p q) s ↔ Matches p s ∨ Matches q s := by
  constructor
  · intro h
    cases h with
    | altLeft h => exact .inl h
    | altRight h => exact .inr h
  · rintro (h | h)
    · exact .altLeft h
    · exact .altRight h

theorem matches_mkSeq_iff {p q : Pattern} {s : List Char} :
    Matches (mkSeq p q) s ↔ Matches (seq p q) s := by
  rw [matches_seq_iff]
  unfold mkSeq
  split
  · simp [not_matches_never]
  · constructor
    · intro h; exact ⟨[], s, rfl, .nothing, h⟩
    · rintro ⟨u, v, rfl, hu, hv⟩
      rw [matches_nothing_iff.1 hu]; exact hv
  · split
    · next h => subst h; simp [not_matches_never]
    · exact matches_seq_iff

theorem matches_mkAlt_iff {p q : Pattern} {s : List Char} :
    Matches (mkAlt p q) s ↔ Matches p s ∨ Matches q s := by
  unfold mkAlt
  split
  · simp [not_matches_never]
  · split
    · next h => subst h; simp [not_matches_never]
    · exact matches_alt_iff

theorem matches_nil_iff (p : Pattern) : Matches p [] ↔ p.nullable = true := by
  induction p with
  | never => simp [nullable, not_matches_never]
  | nothing => simp [nullable, matches_nothing_iff]
  | one cls => simp only [nullable, Bool.false_eq_true, iff_false]; nofun
  | seq p q hp hq =>
    rw [matches_seq_iff, nullable, Bool.and_eq_true, ← hp, ← hq]
    constructor
    · rintro ⟨u, v, h, hu, hv⟩
      obtain ⟨rfl, rfl⟩ := List.append_eq_nil_iff.1 h.symm
      exact ⟨hu, hv⟩
    · rintro ⟨hu, hv⟩
      exact ⟨[], [], rfl, hu, hv⟩
  | alt p q hp hq => simp [nullable, matches_alt_iff, ← hp, ← hq]
  | many p _ => simpa [nullable] using Matches.manyNil

/-- A text of `many p` that is not empty starts with a text of `p` that is not empty. -/
theorem matches_many_cons {p : Pattern} {c : Char} {s : List Char} (h : Matches (many p) (c :: s)) :
    ∃ u v, s = u ++ v ∧ Matches p (c :: u) ∧ Matches (many p) v := by
  generalize hr : many p = r at h
  generalize ht : c :: s = t at h
  induction h with
  | nothing => cases hr
  | one _ => cases hr
  | seq _ _ _ _ => cases hr
  | altLeft _ _ => cases hr
  | altRight _ _ => cases hr
  | manyNil => cases ht
  | @manyCons p' u v hu hv _ ih =>
    cases hr
    cases u with
    | nil => exact ih rfl ht
    | cons d u =>
      injection ht with hc hs
      subst hc
      exact ⟨u, v, hs, hu, hv⟩

theorem matches_cons_iff (p : Pattern) (c : Char) (s : List Char) :
    Matches p (c :: s) ↔ Matches (p.derivative c) s := by
  induction p generalizing s with
  | never => exact ⟨nofun, nofun⟩
  | nothing => exact ⟨nofun, nofun⟩
  | one cls =>
    simp only [derivative]
    constructor
    · intro h; cases h with | one h => simp [h, matches_nothing_iff]
    · split
      · next h => intro hs; rw [matches_nothing_iff.1 hs]; exact .one h
      · nofun
  | alt p q hp hq => rw [derivative, matches_mkAlt_iff, matches_alt_iff, hp, hq]
  | seq p q hp hq =>
    have key : Matches (seq p q) (c :: s) ↔
        (∃ u v, s = u ++ v ∧ Matches p (c :: u) ∧ Matches q v) ∨
        (p.nullable = true ∧ Matches q (c :: s)) := by
      rw [matches_seq_iff]
      constructor
      · rintro ⟨u, v, huv, hu, hv⟩
        cases u with
        | nil => exact .inr ⟨(matches_nil_iff p).1 hu, by simpa [huv] using hv⟩
        | cons d u =>
          injection huv with hc hs
          subst hc
          exact .inl ⟨u, v, hs, hu, hv⟩
      · rintro (⟨u, v, rfl, hu, hv⟩ | ⟨hn, hq⟩)
        · exact ⟨c :: u, v, rfl, hu, hv⟩
        · exact ⟨[], c :: s, rfl, (matches_nil_iff p).2 hn, hq⟩
    rw [key]
    simp only [derivative]
    split
    · next hn =>
      simp only [matches_mkAlt_iff, matches_mkSeq_iff, matches_seq_iff, hp, hq, hn, true_and]
    · next hn =>
      simp only [matches_mkSeq_iff, matches_seq_iff, hp, hn, Bool.false_eq_true, false_and, or_false]
  | many p hp =>
    rw [derivative, matches_mkSeq_iff, matches_seq_iff]
    constructor
    · intro h
      obtain ⟨u, v, rfl, hu, hv⟩ := matches_many_cons h
      exact ⟨u, v, rfl, (hp u).1 hu, hv⟩
    · rintro ⟨u, v, rfl, hu, hv⟩
      exact .manyCons ((hp u).2 hu) hv

end Pattern

end RubySig
