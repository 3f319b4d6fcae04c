import RubySig.Proofs.Parser.CallableReads

/-!
# Reading printed operators

Each level of the grammar reads what the printer writes in its place: marks behind a type that is
none of the operators or stands in parentheses, operands of an intersection, operands of a union.

* `Parser.Legible`: types that can be read back, with their parts.
* `Parser.ReadsBelow`: smaller types are read back, and return types.
* `Parser.readsBack_base`: types without operators, and types in parentheses.
* `Parser.readsBack_optionalType`, `Parser.readsBack_intersection`, `Parser.readsBack_unionType`:
  one lemma for each level.
* `Parser.reads_typeWith_returnWith`: with enough levels a legible type is read back.
-/

namespace RubySig

/-! ## Marks -/

/-- Several marks of optionals. -/
def questionMarks (k : Nat) : String := String.join (List.replicate k "?")

theorem questionMarks_zero_append (rest : String) : questionMarks 0 ++ rest = rest :=
  String.empty_append

theorem questionMarks_succ_append (k : Nat) (rest : String) :
    questionMarks (k + 1) ++ rest = "?" ++ (questionMarks k ++ rest) := by
  rw [questionMarks, List.replicate_succ, String.join_cons, String.append_assoc, ← questionMarks]

/-- A type is another one, which is no optional, with marks. -/
theorem TypeExpr.exists_iterate_optional (t : TypeExpr) :
    ∃ base k, t = TypeExpr.optional^[k] base ∧ ∀ inner, base ≠ .optional inner := by
  induction t using TypeExpr.inductionOnChildren with
  | step t ih =>
    by_cases hoptional : ∃ inner, t = .optional inner
    · obtain ⟨inner, rfl⟩ := hoptional
      obtain ⟨base, k, hinner, hbase⟩ := ih inner (List.mem_singleton_self _)
      exact ⟨base, k + 1, by rw [Function.iterate_succ_apply', ← hinner], hbase⟩
    · exact ⟨t, 0, rfl, not_exists.1 hoptional⟩

theorem TypeExpr.operandText_iterate (base : TypeExpr) (k : Nat) :
    (TypeExpr.optional^[k] base).operandText .optional =
      base.operandText .optional ++ questionMarks k := by
  induction k with
  | zero => exact String.append_empty.symm
  | succ k ih =>
    have hmark : (TypeExpr.optional (TypeExpr.optional^[k] base)).operandText .optional =
        (TypeExpr.optional^[k] base).operandText .optional ++ "?" := by
      rw [operandText, render, operandText]
      rfl
    rw [Function.iterate_succ_apply', hmark, ih, questionMarks, questionMarks,
      List.replicate_succ', String.join_append, String.append_assoc]
    rfl

theorem TypeExpr.sizeOf_le_iterate (base : TypeExpr) (k : Nat) :
    sizeOf base + k ≤ sizeOf (TypeExpr.optional^[k] base) := by
  induction k with
  | zero => exact le_refl _
  | succ k ih =>
    rw [Function.iterate_succ_apply', optional.sizeOf_spec]
    omega

theorem TypeExpr.withoutSpans_iterate (base : TypeExpr) (k : Nat) :
    (TypeExpr.optional^[k] base).withoutSpans = TypeExpr.optional^[k] base.withoutSpans := by
  have hcommute : Function.Commute TypeExpr.withoutSpans TypeExpr.optional := fun t =>
    (TypeExpr.optional t).withoutSpans_eq
  exact hcommute.iterate_right k base

namespace Parser

theorem words_marks (k : Nat) (rest : String) :
    words (questionMarks k ++ rest) = List.replicate k (.question, "?") ++ words rest := by
  induction k with
  | zero => rw [questionMarks_zero_append]; rfl
  | succ k ih => rw [questionMarks_succ_append, words_question, ih]; rfl

theorem reads_isAtOptionalMark {ws : List Word} :
    Reads isAtOptionalMark ws (· = (kindAt ws 0 == .question && !(kindAt ws 1 == .braceOpen)))
      ws := by
  by_cases h : kindAt ws 0 = .question
  · rw [beq_iff_eq.2 h]
    exact .ifTrue (reads_isAt_true h) (.exactly (reads_isFollowedBy .braceOpen) (.pure rfl))
  · rw [beq_eq_false_iff_ne.2 h]
    exact .ifFalse (reads_isAt_false h) (.pure rfl)

/-- All marks are read. -/
theorem reads_optionalMarksWithin {k n : Nat} (hn : k < n) (t : TypeExpr) {ws : List Word}
    (hquestion : kindAt ws 0 ≠ .question) (hbrace : kindAt ws 0 ≠ .braceOpen) :
    Reads (optionalMarksWithin t n) (List.replicate k (.question, "?") ++ ws)
      (· = TypeExpr.optional^[k] t) ws := by
  induction n generalizing k t with
  | zero => exact absurd hn (Nat.not_lt_zero k)
  | succ n ih =>
    cases k with
    | zero =>
      refine .ifFalse (reads_isAtOptionalMark.mono fun b hb => ?_) (.pure rfl)
      exact hb.trans (Bool.and_eq_false_iff.2 (Or.inl (beq_eq_false_iff_ne.2 hquestion)))
    | succ k =>
      have hnext : kindAt (List.replicate k (.question, "?") ++ ws) 0 ≠ .braceOpen := by
        cases k with
        | zero => exact hbrace
        | succ k => rintro ⟨⟩
      refine .ifTrue (reads_isAtOptionalMark.mono fun b hb => ?_) (.exactly reads_bump
        (ih (Nat.lt_of_succ_lt_succ hn) (.optional t)))
      exact hb.trans (Bool.and_eq_true_iff.2
        ⟨rfl, Bool.not_eq_true' _ ▸ beq_eq_false_iff_ne.2 hnext⟩)

/-- A type with marks behind it is read back if the type in front of the marks is. -/
theorem readsBack_marks {simple : Parser TypeExpr} {text : String} {base : TypeExpr}
    {ok : String → Prop} (h : ReadsBack simple text base ok) (k : Nat) {operators : List TokenKind}
    (hok : ∀ rest, Follows operators rest → ok (questionMarks k ++ rest))
    (hquestion : .question ∉ operators) (hbrace : .braceOpen ∉ operators) :
    ReadsBack (optionalType simple) (text ++ questionMarks k) (TypeExpr.optional^[k] base)
      (Follows operators) := by
  intro rest hrest
  obtain ⟨hleads, hread⟩ := h _ (hok rest hrest)
  rw [words_marks] at hread
  rw [String.append_assoc]
  refine ⟨hleads, .bind hread fun t ht => .exactly reads_rounds ?_⟩
  have hrounds : k < (List.replicate k (TokenKind.question, "?") ++ words rest).length + 1 := by
    rw [List.length_append, List.length_replicate]
    omega
  refine (reads_optionalMarksWithin hrounds t (hrest.ne ⟨rfl, hquestion⟩)
    (hrest.ne ⟨rfl, hbrace⟩)).mono fun t' ht' => ?_
  rw [ht', TypeExpr.withoutSpans_iterate, ht, TypeExpr.withoutSpans_iterate]

/-! ## Types without operators -/

/-- Types of which every part can be written in a scope, with keys that a rule reads back and
without marks that belong to the types in front of them. -/
structure Legible (keyRule : Parser RecordKey) (vars : List String) (good : TypeExpr → Prop) :
    Prop where
  spelled : ∀ {t}, good t → t.SpelledAt vars
  child : ∀ {t c}, good t → c ∈ t.children → good c
  apart : ∀ {t}, good (.optional t) → t.openSet = inWord
  keys : ∀ {fields}, good (.record fields) → ∀ f ∈ fields, ReadsKey keyRule f.key

/-- What is below marks is legible, and the marks do not belong to it. -/
theorem Legible.base {keyRule : Parser RecordKey} {vars : List String} {good : TypeExpr → Prop}
    (hgood : Legible keyRule vars good) {base : TypeExpr} {k : Nat}
    (h : good (TypeExpr.optional^[k] base)) : good base ∧ (k ≠ 0 → base.openSet = inWord) := by
  induction k with
  | zero => exact ⟨h, fun hk => absurd rfl hk⟩
  | succ k ih =>
    rw [Function.iterate_succ_apply'] at h
    obtain ⟨hbase, hopen⟩ := ih (hgood.child h (List.mem_singleton_self _))
    refine ⟨hbase, fun _ => ?_⟩
    by_cases hk : k = 0
    · subst hk
      exact hgood.apart h
    · exact hopen hk

/-- Legible types smaller than a bound are read back, also as return types. -/
structure ReadsBelow (good : TypeExpr → Prop) (type returnType : Parser TypeExpr) (n : Nat) :
    Prop where
  type : ∀ t : TypeExpr, good t → sizeOf t < n → ReadsBack type t.render t (Follows [])
  returnType : ∀ t : TypeExpr, good t → sizeOf t < n →
    ReadsBack returnType (t.operandText .optional) t (Follows [])

section Levels

variable {keyRule : Parser RecordKey} {vars : List String} {good : TypeExpr → Prop}
  {type returnType : Parser TypeExpr} {t : TypeExpr}

theorem ReadsBelow.mono {n m : Nat} (h : ReadsBelow good type returnType n) (hmn : m ≤ n) :
    ReadsBelow good type returnType m :=
  ⟨fun t ht hsize => h.type t ht (by omega), fun t ht hsize => h.returnType t ht (by omega)⟩

theorem ReadsBelow.child (h : ReadsBelow good type returnType (sizeOf t))
    (hgood : Legible keyRule vars good) (ht : good t) {c : TypeExpr} (hc : c ∈ t.children) :
    ReadsBack type c.render c (Follows []) :=
  h.type c (hgood.child ht hc) (TypeExpr.sizeOf_lt_of_mem_children hc)

/-- A proc is read back where no operator follows. -/
theorem readsBack_proc_of_below (hgood : Legible keyRule vars good) {f : FunctionType}
    {b : Option Block} (ht : good (.proc f b))
    (hbelow : ReadsBelow good type returnType (sizeOf (TypeExpr.proc f b))) :
    ReadsBack (simpleWith keyRule vars type returnType) (TypeExpr.proc f b).render (.proc f b)
      (Follows []) := by
  obtain ⟨hparams, hblock⟩ := hgood.spelled ht
  have hfunction : ∀ u ∈ f.types, u ∈ (TypeExpr.proc f b).children := fun u hu =>
    List.mem_append_left _ hu
  have hreturn : f.returnType ∈ (TypeExpr.proc f b).children :=
    hfunction _ (List.mem_append_right _ (List.mem_singleton_self _))
  refine readsBack_proc ⟨hparams, fun p hp => hbelow.child hgood ht (hfunction _
    (List.mem_append_left _ (List.mem_map_of_mem hp))), hbelow.returnType _ (hgood.child ht hreturn)
      (TypeExpr.sizeOf_lt_of_mem_children hreturn)⟩ ?_
  rintro b' hb
  obtain rfl := Option.mem_def.1 hb
  exact ⟨hblock b' rfl, fun p hp => hbelow.child hgood ht (List.mem_append_right _
      (List.mem_append_left _ (List.mem_map_of_mem hp))), hbelow.child hgood ht
        (List.mem_append_right _ (List.mem_append_right _ (List.mem_singleton_self _)))⟩

/-- A type without operators is read back. -/
theorem readsBack_plain (hgood : Legible keyRule vars good) (ht : good t)
    (hbelow : ReadsBelow good type returnType (sizeOf t)) (hplain : t.needsParens .optional = false)
    (hbase : ∀ inner, t ≠ .optional inner) :
    ReadsBack (simpleWith keyRule vars type returnType) t.render t (Behind t.openSet) := by
  have hspelled := hgood.spelled ht
  have hchild : ∀ c ∈ t.children, ReadsBack type c.render c (Follows []) := fun _ hc =>
    hbelow.child hgood ht hc
  cases t with
  | named target => exact readsBack_named hspelled.1 hspelled.2 hchild
  | singleton target => exact readsBack_singleton hspelled
  | var name => exact readsBack_var hspelled.1 hspelled.2
  | tuple types => exact readsBack_tuple hchild
  | record fields =>
    exact readsBack_record (hgood.keys ht) fun f hf => hchild _ (List.mem_map_of_mem hf)
  | literal value =>
    cases value with
    | string quoted => exact readsBack_string hspelled
    | symbol name => exact readsBack_symbol hspelled
    | integer value => exact readsBack_integer hspelled
    | bool value => exact readsBack_bool value
  | special special => exact readsBack_special special
  | optional inner => exact absurd rfl (hbase inner)
  | union _ | intersection _ | proc _ _ => cases hplain

/-- A type in parentheses is read back whatever follows. -/
theorem readsBack_parens {text : String} (h : ReadsBack type text t (Follows [])) :
    ReadsBack (simpleWith keyRule vars type returnType) ("(" ++ text ++ ")") t fun _ => True := by
  intro rest _
  obtain ⟨-, hread⟩ := h (")" ++ rest) (follows_parenClose rest)
  rw [words_parenClose] at hread
  rw [String.append_assoc, String.append_assoc, words_parenOpen]
  exact ⟨.cons rfl (by rintro ⟨⟩), reads_simpleWith (by rintro ⟨⟩) (.exactly reads_look
    (.exactly reads_bump (.bind hread fun _ ht' => .step (reads_expect _) fun _ => .pure ht')))⟩

/-- What stands in front of marks is read back. -/
theorem readsBack_base (hgood : Legible keyRule vars good) (ht : good t)
    (hbelow : ReadsBelow good type returnType (sizeOf t))
    (hself : t.needsParens .optional = true → ReadsBack type t.render t (Follows []))
    (hbase : ∀ inner, t ≠ .optional inner) :
    ReadsBack (simpleWith keyRule vars type returnType) (t.operandText .optional) t
      (Behind t.openSet) := by
  rw [TypeExpr.operandText, parenthesized]
  split
  · exact fun rest _ => readsBack_parens (hself ‹_›) rest trivial
  · exact readsBack_plain hgood ht hbelow (Bool.not_eq_true _ ▸ ‹_›) hbase

/-! ## Levels of operators -/

/-- Marks are read back with what stands in front of them. -/
theorem readsBack_optionalType (hgood : Legible keyRule vars good) (ht : good t)
    (hbelow : ReadsBelow good type returnType (sizeOf t))
    (hself : t.needsParens .optional = true → ReadsBack type t.render t (Follows [])) :
    ReadsBack (optionalType (simpleWith keyRule vars type returnType)) (t.operandText .optional) t
      (Follows [.amp, .pipe]) := by
  obtain ⟨base, k, rfl, hbase⟩ := t.exists_iterate_optional
  obtain ⟨hinnermost, hopen⟩ := hgood.base ht
  have hsize := base.sizeOf_le_iterate k
  have hinner : base.needsParens .optional = true →
      ReadsBack type base.render base (Follows []) := by
    intro hparens
    cases k with
    | zero => exact hself hparens
    | succ k => exact hbelow.type base hinnermost (by omega)
  rw [TypeExpr.operandText_iterate]
  refine readsBack_marks (readsBack_base hgood hinnermost (hbelow.mono (by omega)) hinner hbase) k
    (fun rest hrest => ?_) (by decide) (by decide)
  cases k with
  | zero =>
    rw [questionMarks_zero_append]
    refine hrest.behind ?_ (by decide)
    rcases base.openSet_eq with hset | hset <;> rw [hset] <;> decide
  | succ k =>
    rw [hopen (Nat.succ_ne_zero k)]
    refine ⟨?_, by rw [words_marks]; rfl⟩
    rw [questionMarks_succ_append]
    exact avoids_append (by decide) _

section Operands

variable {operand : Parser TypeExpr} {mark : TokenKind} {build : List TypeExpr → TypeExpr}
  {operators : List TokenKind}

/-- One operand stands for itself. -/
theorem readsBack_single {text : String} {others : List TokenKind}
    (h : ReadsBack operand text t (Follows others)) (hothers : ∀ kind ∈ operators, kind ∈ others)
    (hmark : endsType mark = false ∧ mark ∉ operators) :
    ReadsBack (operands mark build operand) text t (Follows operators) := by
  intro rest hrest
  obtain ⟨hleads, hread⟩ := h rest (hrest.mono hothers)
  exact ⟨hleads, .bind hread fun _ ht => .ifFalse (reads_isAt_false (hrest.ne hmark)) (.pure ht)⟩

/-- Several operands are read back one by one. -/
theorem readsBack_operands {types : List TypeExpr} {text : TypeExpr → String} {sep written : String}
    (hsep : ∀ rest, words (sep ++ rest) = (mark, written) :: words rest)
    (happart : ∀ rest, Avoids inType (sep ++ rest)) (hlength : 2 ≤ types.length)
    (hbuild : ∀ types, (build types).withoutSpans = build (types.map TypeExpr.withoutSpans))
    (h : ∀ t ∈ types, ReadsBack operand (text t) t (Follows (mark :: operators)))
    (hmark : endsType mark = false ∧ mark ∉ operators) :
    ReadsBack (operands mark build operand) (sep.intercalate (types.map text)) (build types)
      (Follows operators) := by
  intro rest hrest
  obtain ⟨first, types, rfl⟩ :=
    List.exists_cons_of_ne_nil (List.ne_nil_of_length_pos (Nat.lt_of_succ_lt hlength))
  obtain ⟨second, types, rfl⟩ :=
    List.exists_cons_of_ne_nil (List.ne_nil_of_length_pos (Nat.lt_of_succ_lt_succ hlength))
  have hitems : Items operand TypeExpr.withoutSpans TypeExpr.withoutSpans text
      (Follows (mark :: operators)) sep mark written (second :: types) :=
    ⟨hsep, fun rest => ⟨happart rest, Or.inr (by rw [hsep]; exact List.mem_cons_self)⟩,
      fun t ht rest hrest => (h t (List.mem_cons_of_mem _ ht) rest hrest).2⟩
  have hok : Follows (mark :: operators) rest := hrest.mono fun _ hk => List.mem_cons_of_mem _ hk
  obtain ⟨hleads, hfirst⟩ := h first List.mem_cons_self _ (hitems.ok_joined hok)
  have hothers := reads_repeatedAfter hitems hok (hrest.ne hmark)
  rw [intercalate_cons, String.append_assoc]
  refine ⟨hleads, .bind hfirst fun t ht => .ifTrue (reads_isAt_true ?_)
    (.bind hothers fun ts hts => .pure ?_)⟩
  · rw [hitems.words_joined]
    rfl
  · rw [hbuild, hbuild, List.map_cons, List.map_cons, ht, hts]

end Operands

/-- Intersections are read back where no union is. -/
theorem readsBack_intersection (hgood : Legible keyRule vars good) (ht : good t)
    (hbelow : ReadsBelow good type returnType (sizeOf t))
    (hself : t.needsParens .union = true → ReadsBack type t.render t (Follows [])) :
    ReadsBack (operands .amp .intersection (optionalType (simpleWith keyRule vars type returnType)))
      (t.operandText .union) t (Follows [.pipe]) := by
  have hmark : endsType .amp = false ∧ .amp ∉ [TokenKind.pipe] := by decide
  by_cases hsame : t.needsParens .optional = t.needsParens .union
  · have htext : t.operandText .union = t.operandText .optional := by
      rw [TypeExpr.operandText, TypeExpr.operandText, hsame]
    rw [htext]
    exact readsBack_single (readsBack_optionalType hgood ht hbelow fun h => hself (hsame ▸ h))
      (by decide) hmark
  · cases t with
    | intersection types =>
      have htext : (TypeExpr.intersection types).operandText .union =
          " & ".intercalate (types.map (TypeExpr.operandText .optional)) := by
        rw [TypeExpr.operandText, parenthesized, TypeExpr.needsParens, if_neg (by decide),
          TypeExpr.render, renderOperands_eq]
        refine congrArg _ (List.map_congr_left fun c _ => ?_)
        cases c <;> rfl
      rw [htext]
      refine readsBack_operands (words_literal " & " [.whitespace, .amp, .whitespace] (by decide))
        (fun rest => avoids_append (by decide) rest) (hgood.spelled ht)
        (fun types => (TypeExpr.intersection types).withoutSpans_eq) (fun c hc => ?_) hmark
      exact readsBack_optionalType hgood (hgood.child ht hc) (hbelow.mono
        (Nat.le_of_lt (TypeExpr.sizeOf_lt_of_mem_children hc))) fun _ => hbelow.child hgood ht hc
    | _ => exact absurd rfl hsame

/-- Every printed type is read back. -/
theorem readsBack_unionType (hgood : Legible keyRule vars good) (ht : good t)
    (hbelow : ReadsBelow good type returnType (sizeOf t)) :
    ReadsBack (unionType (simpleWith keyRule vars type returnType)) t.render t (Follows []) := by
  have hmark : endsType .pipe = false ∧ .pipe ∉ ([] : List TokenKind) := by decide
  by_cases hplain : t.needsParens .union = false
  · have htext : t.render = t.operandText .union := by
      rw [TypeExpr.operandText, parenthesized, hplain, if_neg Bool.false_ne_true]
    rw [htext]
    exact readsBack_single (readsBack_intersection hgood ht hbelow fun h => by
      rw [hplain] at h; cases h) (fun _ h => absurd h List.not_mem_nil) hmark
  · cases t with
    | union types =>
      rw [TypeExpr.render, renderOperands_eq]
      refine readsBack_operands (words_literal " | " [.whitespace, .pipe, .whitespace] (by decide))
        (fun rest => avoids_append (by decide) rest) (hgood.spelled ht)
        (fun types => (TypeExpr.union types).withoutSpans_eq) (fun c hc => ?_) hmark
      exact readsBack_intersection hgood (hgood.child ht hc) (hbelow.mono
        (Nat.le_of_lt (TypeExpr.sizeOf_lt_of_mem_children hc))) fun _ => hbelow.child hgood ht hc
    | proc f b =>
      have hmarked : ReadsBack (optionalType (simpleWith keyRule vars type returnType))
          ((TypeExpr.proc f b).render ++ questionMarks 0) (.proc f b) (Follows []) :=
        readsBack_marks (readsBack_proc_of_below hgood ht hbelow) 0 (fun rest hrest => by
          rwa [questionMarks_zero_append]) List.not_mem_nil List.not_mem_nil
      rw [show questionMarks 0 = "" from rfl, String.append_empty] at hmarked
      have hsingle : ReadsBack (operands .amp .intersection (optionalType
          (simpleWith keyRule vars type returnType))) (TypeExpr.proc f b).render (.proc f b)
          (Follows []) :=
        readsBack_single hmarked (fun _ h => absurd h List.not_mem_nil) (by decide)
      exact readsBack_single hsingle (fun _ h => absurd h List.not_mem_nil) hmark
    | _ => exact absurd rfl hplain

theorem ReadsBack.nested {p : Parser TypeExpr} {text : String} {ok : String → Prop}
    (h : ReadsBack p text t ok) : ReadsBack (Parser.nested p) text t ok :=
  fun rest hrest => ⟨(h rest hrest).1, (h rest hrest).2.nested⟩

/-- With two levels for every part of a legible type it is read back. -/
theorem reads_typeWith_returnWith (hgood : Legible keyRule vars good) (n : Nat) :
    (∀ t : TypeExpr, good t → 2 * sizeOf t < n →
      ReadsBack (typeWith keyRule vars n) t.render t (Follows [])) ∧
    ∀ t : TypeExpr, good t → 2 * sizeOf t + 1 < n →
      ReadsBack (returnWith keyRule vars n) (t.operandText .optional) t (Follows []) := by
  induction n with
  | zero => exact ⟨fun _ _ hsize => by omega, fun _ _ hsize => by omega⟩
  | succ n ih =>
    have hbelow : ∀ {t : TypeExpr}, 2 * sizeOf t < n + 1 →
        ReadsBelow good (typeWith keyRule vars n) (returnWith keyRule vars n) (sizeOf t) :=
      fun hsize => ⟨fun c hc hlt => ih.1 c hc (by omega), fun c hc hlt => ih.2 c hc (by omega)⟩
    refine ⟨fun t ht hsize => (readsBack_unionType hgood ht (hbelow hsize)).nested,
      fun t ht hsize => ReadsBack.nested ?_⟩
    have hreturn := readsBack_optionalType hgood ht (hbelow (by omega)) fun _ =>
      ih.1 t ht (by omega)
    exact fun rest hrest => hreturn rest (hrest.mono nofun)

end Levels

end Parser

end RubySig
