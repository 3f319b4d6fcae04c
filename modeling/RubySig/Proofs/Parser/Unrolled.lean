import RubySig.Proofs.Parser.BodyCut
import RubySig.Proofs.Parser.Ensures

/-!
# Repetition without a bound

The repetitions of the grammar are bounded by the number of lexemes left, so that they end.  The
bound is never reached: every round but the last one takes a lexeme.  Each repetition is therefore
one round and then the repetition again.

* `Parser.Shortens`: how many lexemes a rule takes at least.
* `Parser.Shrinks`, `Parser.unroll`: a repetition with a bound is the repetition without one.
* `Parser.separated_eq`, `Parser.separatedUntil_eq`, `Parser.repeatedAfter_eq`,
  `Parser.enclosingSegments_eq`, `Parser.optionalMarks_eq`, `Parser.typeParamList_eq`,
  `Parser.memberList_eq`, `Parser.file_eq`: one round of each repetition.
-/

namespace RubySig

namespace Parser

variable {α β ι : Type}

/-! ## How much a rule takes -/

/-- Where a rule returns something, it took at least `k` lexemes. -/
def Shortens (k : Nat) (p : Parser α) : Prop :=
  ∀ c a c', p c = .ok a c' → c'.rest.length + k ≤ c.rest.length

theorem Cut.shortens {n i j k m : Nat} {p q : Parser α}
    (h : Cut n ⟨i, k⟩ (fun _ => ⟨j, k + m⟩) p q) : Shortens m q := by
  intro c a c' hrun
  have hlength := h.length_add_credit_le hrun
  simp only at hlength
  omega

theorem Shortens.nested {k : Nat} {p : Parser α} (h : Shortens k p) :
    Shortens k (Parser.nested p) := by
  intro c a c' hrun
  obtain ⟨d, hp, rfl⟩ := exists_of_nested_eq_ok hrun
  exact h (opened c) a d hp

/-- What is eaten is one lexeme. -/
theorem length_of_eat {kind : TokenKind} {c c' : Cursor} {taken : Bool}
    (h : eat kind c = .ok taken c') :
    c'.rest.length ≤ c.rest.length ∧ (taken = true → c'.rest.length < c.rest.length) := by
  have hlength := (cut_eat (n := 0) (i := 0) (k := 0) kind (by decide)).length_add_credit_le h
  cases taken
  · simp at hlength
    exact ⟨hlength, nofun⟩
  · simp at hlength
    omega

/-! ## One round -/

theorem bind_congr_ok {p : Parser α} {f g : α → Parser β} {c : Cursor}
    (h : ∀ a c', p c = .ok a c' → f a c' = g a c') : (p >>= f) c = (p >>= g) c := by
  cases hrun : p c with
  | ok a c' => rw [bind_of_ok hrun, bind_of_ok hrun, h a c' hrun]
  | error stop c' => rw [bind_of_error hrun, bind_of_error hrun]

theorem bind_congr_first {p q : Parser α} {f : α → Parser β} {c : Cursor} (h : p c = q c) :
    (p >>= f) c = (q >>= f) c := by
  show EStateM.bind p f c = EStateM.bind q f c
  rw [EStateM.bind, EStateM.bind, h]

/-- One round of a repetition goes on only behind the lexemes that it took. -/
def Shrinks (round : (ι → Parser α) → ι → Parser α) : Prop :=
  ∀ (again again' : ι → Parser α) (i : ι) (c : Cursor),
    (∀ j d, d.rest.length < c.rest.length → again j d = again' j d) →
      round again i c = round again' i c

section Unrolling

variable {loop : Nat → ι → Parser α} {round : (ι → Parser α) → ι → Parser α}

/-- Beyond the number of lexemes left the bound makes no difference. -/
theorem within_eq (hloop : ∀ n, loop (n + 1) = round (loop n)) (hround : Shrinks round) (n m : Nat)
    (i : ι) (c : Cursor) (hn : c.rest.length < n) (hm : c.rest.length < m) :
    loop n i c = loop m i c := by
  induction n generalizing m i c with
  | zero => omega
  | succ n ih =>
    obtain ⟨m, rfl⟩ := Nat.exists_eq_add_one_of_ne_zero (Nat.ne_zero_of_lt hm)
    rw [hloop, hloop]
    refine hround _ _ i c fun j d hd => ?_
    exact ih m j d (by omega) (by omega)

variable (loop round) in
/-- A repetition is one round and then the repetition again. -/
theorem unroll (hloop : ∀ n, loop (n + 1) = round (loop n)) (hround : Shrinks round) (i : ι) :
    (rounds >>= fun n => loop n i) = round (fun j => rounds >>= fun n => loop n j) i := by
  funext c
  have hrounds : ∀ (j : ι) (d : Cursor),
      (rounds >>= fun n => loop n j) d = loop (d.rest.length + 1) j d :=
    fun j d => bind_of_ok rfl
  rw [hrounds, hloop]
  refine hround _ _ i c fun j d hd => ?_
  rw [hrounds]
  exact within_eq hloop hround _ _ j d hd (Nat.lt_succ_self _)

/-- A repetition of one kind of round. -/
theorem unroll_one (loop : Nat → Parser α) (round : Parser α → Parser α)
    (hloop : ∀ n, loop (n + 1) = round (loop n))
    (hround : Shrinks fun (again : Unit → Parser α) _ => round (again ())) :
    (rounds >>= loop) = round (rounds >>= loop) :=
  unroll (fun n _ => loop n) _ (fun n => funext fun _ => hloop n) hround ()

end Unrolling

/-! ## Separators and marks -/

section Lists

variable {p : Parser α} {separator close mark : TokenKind}

/-- What is done behind a separator is done behind fewer lexemes. -/
theorem eatIte_congr {q q' r : Parser α} {c : Cursor}
    (h : ∀ d, d.rest.length < c.rest.length → q d = q' d) :
    (do if ← eat separator then q else r : Parser α) c =
      (do if ← eat separator then q' else r : Parser α) c := by
  refine bind_congr_ok fun taken d hd => ?_
  cases taken with
  | false => rfl
  | true => exact h d ((length_of_eat hd).2 rfl)

/-- One round of `separated`. -/
def separatedRound (separator : TokenKind) (p : Parser α) (again : Parser (List α)) :
    Parser (List α) := do
  let a ← p
  if ← eat separator then return a :: (← again) else return [a]

theorem separated_eq (hp : Shortens 0 p) :
    separated separator p = separatedRound separator p (separated separator p) := by
  refine unroll_one _ (separatedRound separator p) (fun _ => rfl) fun again again' i c h => ?_
  refine bind_congr_ok fun a d hd => eatIte_congr fun e he => bind_congr_first ?_
  have hlength := hp c a d hd
  exact h () e (by omega)

/-- One round of `separatedUntil`. -/
def separatedUntilRound (close separator : TokenKind) (p : Parser α) (again : Parser (List α)) :
    Parser (List α) := do
  if ← isAt close then return []
  else
    let a ← p
    if ← eat separator then return a :: (← again) else return [a]

theorem separatedUntil_eq (hp : Shortens 0 p) : separatedUntil close separator p =
    separatedUntilRound close separator p (separatedUntil close separator p) := by
  refine unroll_one _ (separatedUntilRound close separator p) (fun _ => rfl)
    fun again again' i c h => ?_
  refine bind_congr_ok fun closed d hd => ?_
  obtain rfl : d = looked c := by cases hd; rfl
  cases closed with
  | true => rfl
  | false =>
    refine bind_congr_ok fun a e he => eatIte_congr fun f hf => bind_congr_first ?_
    have hlength := hp _ a e he
    exact h () f (by simp only [looked] at hlength; omega)

/-- One round of `repeatedAfter`. -/
def repeatedAfterRound (mark : TokenKind) (p : Parser α) (again : Parser (List α)) :
    Parser (List α) := do
  if ← eat mark then
    let a ← p
    return a :: (← again)
  else return []

theorem repeatedAfter_eq (hp : Shortens 0 p) :
    repeatedAfter mark p = repeatedAfterRound mark p (repeatedAfter mark p) := by
  refine unroll_one _ (repeatedAfterRound mark p) (fun _ => rfl) fun again again' i c h => ?_
  refine eatIte_congr fun d hd => bind_congr_ok fun a e he => bind_congr_first ?_
  have hlength := hp d a e he
  exact h () e (by omega)

end Lists

/-! ## Parts of types -/

/-- What is taken is one lexeme. -/
theorem length_of_bump {c c' : Cursor} {text : String} (h : bump c = .ok text c') :
    c'.rest.length < c.rest.length :=
  (Cut.bump (n := 0) (i := 0) (k := 0)).shortens c text c' h

/-- One round of `enclosingSegments`. -/
def segmentRound (again : Parser (List String)) : Parser (List String) := do
  if ← isAtPair .upperIdent .doubleColon then
    let segment ← bump
    let _ ← bump
    return segment :: (← again)
  else return []

theorem enclosingSegments_eq : enclosingSegments = segmentRound enclosingSegments := by
  refine unroll_one _ segmentRound (fun _ => rfl) fun again again' i c h => ?_
  refine bind_congr_ok fun more d hd => ?_
  have hlength := (cut_isAtPair (n := 0) (i := 0) (k := 0) _ _ (by decide)).length_add_credit_le hd
  cases more with
  | false => rfl
  | true =>
    refine bind_congr_ok fun segment e he => bind_congr_ok fun _ f hf => bind_congr_first ?_
    have hfirst := length_of_bump he
    have hsecond := length_of_bump hf
    exact h () f (by simp only at hlength; omega)

/-- The marks behind a type. -/
def optionalMarks (type : TypeExpr) : Parser TypeExpr := do
  optionalMarksWithin type (← rounds)

/-- One round of `optionalMarks`. -/
def optionalMarksRound (again : TypeExpr → Parser TypeExpr) (type : TypeExpr) :
    Parser TypeExpr := do
  if ← isAtOptionalMark then
    let _ ← bump
    again (.optional type)
  else return type

theorem optionalMarks_eq (type : TypeExpr) :
    optionalMarks type = optionalMarksRound optionalMarks type := by
  refine unroll (fun n type => optionalMarksWithin type n) optionalMarksRound (fun _ => rfl)
    (fun again again' i c h => ?_) type
  refine bind_congr_ok fun more d hd => ?_
  have hlength := (cut_isAtOptionalMark (n := 0) (i := 0) (k := 0)
    (by decide)).length_add_credit_le hd
  cases more with
  | false => rfl
  | true =>
    refine bind_congr_ok fun _ e he => ?_
    have hmark := length_of_bump he
    exact h _ e (by simp only at hlength; omega)

/-- Type parameters with commas between them. -/
def typeParamList (allowVariance : Bool) (levels : Nat) (vars : List String) :
    Parser (List TypeParam) := do
  typeParamsWithin allowVariance levels vars (← rounds)

/-- One round of `typeParamList`. -/
def typeParamRound (allowVariance : Bool) (levels : Nat)
    (again : List String → Parser (List TypeParam)) (vars : List String) :
    Parser (List TypeParam) := do
  let p ← typeParam allowVariance vars levels
  if ← eat .comma then return p :: (← again (p.name :: vars)) else return [p]

theorem typeParamList_eq (allowVariance : Bool) (levels : Nat) (vars : List String) :
    typeParamList allowVariance levels vars =
      typeParamRound allowVariance levels (typeParamList allowVariance levels) vars := by
  refine unroll (fun n vars => typeParamsWithin allowVariance levels vars n)
    (typeParamRound allowVariance levels) (fun _ => rfl) (fun again again' i c h => ?_) vars
  refine bind_congr_ok fun p d hd => eatIte_congr fun e he => bind_congr_first ?_
  have hlength := (cut_typeParam (k := 0) allowVariance i (le_refl levels)
    (Nat.le_of_ble_eq_true rfl : 0 + 4 ≤ lookBound)).length_add_credit_le hd
  exact h _ e (by simp only at hlength; omega)

/-! ## Bodies and files -/

/-- One round of `memberList`. -/
def memberRound (member : Parser Member) (again : Parser (List Member)) : Parser (List Member) := do
  if ← eat (.keyword .kwEnd) then return []
  else if ← atEnd then unexpected "`end`"
  else
    let m ← member
    return m :: (← again)

theorem memberList_eq {member : Parser Member} (hmember : Shortens 1 member) :
    memberList member = memberRound member (memberList member) := by
  refine unroll_one _ (memberRound member) (fun _ => rfl) fun again again' i c h => ?_
  refine bind_congr_ok fun ended d hd => ?_
  have hlength := (length_of_eat hd).1
  cases ended with
  | true => rfl
  | false =>
    refine bind_congr_ok fun ended e he => ?_
    obtain rfl : e = d := by cases he; rfl
    cases ended with
    | true => rfl
    | false =>
      refine bind_congr_ok fun m f hf => bind_congr_first ?_
      have htaken := hmember e m f hf
      exact h () f (by omega)

theorem shortens_declaration (levels : Nat) : Shortens 1 (declaration levels) :=
  (cut_declaration (i := 0) (k := 0) (le_refl levels) (by decide)).shortens

/-- One round of `file`. -/
def fileRound (levels : Nat) (again : Parser (List Declaration)) : Parser (List Declaration) := do
  if ← atEnd then return []
  else
    let d ← declaration levels
    return d :: (← again)

theorem file_eq (levels : Nat) : file levels = fileRound levels (file levels) := by
  refine unroll_one _ (fileRound levels) (fun _ => rfl) fun again again' i c h => ?_
  refine bind_congr_ok fun ended d hd => ?_
  obtain rfl : d = c := by cases hd; rfl
  cases ended with
  | true => rfl
  | false =>
    refine bind_congr_ok fun m e he => bind_congr_first ?_
    have htaken := shortens_declaration levels d m e he
    exact h () e (by omega)

/-! ## What the repeated rules take -/

section Levels

variable (vars : List String) (levels : Nat)

theorem shortens_namedType (what : String) : Shortens 0 (namedType vars levels what) :=
  ((cut_namedType (i := 0) (k := 1) vars what (le_refl levels) (by decide)).shortens (m := 0))

theorem shortens_methodType : Shortens 0 (methodType vars levels) :=
  (cut_methodType (i := 0) vars (le_refl levels) (by decide)).shortens

theorem shortens_bodyMember (bodies : Bodies) (hbodies : bodies.Cut levels bodies) :
    Shortens 1 (bodyMember vars levels (entityDecl vars levels bodies)) :=
  (cut_bodyMember vars (le_refl levels) (.bind (cut_look (by decide)) fun kind =>
    cut_entityDeclAt (le_refl levels) hbodies vars kind (by decide))).shortens

theorem shortens_interfaceMember : Shortens 1 (interfaceMember vars levels) :=
  (cut_interfaceMember vars (le_refl levels)).shortens

end Levels

end Parser

end RubySig
