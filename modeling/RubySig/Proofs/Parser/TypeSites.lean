import Mathlib.Algebra.Order.BigOperators.Group.List
import RubySig.Proofs.Parser.Takes

/-!
# Where the references of parsed types are written

* `Reference.site`, `TypeExpr.sites`: where references and those of a type start.
* `sum_arrange_le`: settling the slots of parameters adds nothing.
* `Parser.typeName_takes`, `Parser.namedWith_takes`, `Parser.singletonType_takes`: the places where
  a name starts.
* `Parser.simpleType_takes`, `Parser.typeExpr_takes`, `Parser.methodType_takes`: types and
  overloads.
-/

namespace RubySig

/-! ## Places of references -/

/-- Where a reference is written. -/
def Reference.span : Reference → Span
  | .named target => target.span
  | .singleton target => target.span

/-- Where a reference starts. -/
def Reference.site (r : Reference) : Site := r.span.site

/-- Where references start. -/
def sitesOf (references : List Reference) : Multiset Site := ↑(references.map Reference.site)

theorem sitesOf_append (xs ys : List Reference) : sitesOf (xs ++ ys) = sitesOf xs + sitesOf ys := by
  rw [sitesOf, List.map_append, ← Multiset.coe_add]
  rfl

theorem sitesOf_flatMap {α : Type} (xs : List α) (f : α → List Reference) :
    sitesOf (xs.flatMap f) = (xs.map fun x => sitesOf (f x)).sum := by
  induction xs with
  | nil => rfl
  | cons x rest ih => rw [List.flatMap_cons, sitesOf_append, ih, List.map_cons, List.sum_cons]

/-- Where the references of a type start. -/
def TypeExpr.sites (t : TypeExpr) : Multiset Site := sitesOf t.references

/-- Where a name and the references in its arguments start. -/
def NamedType.sites (t : NamedType) : Multiset Site := sitesOf t.references

/-- Where the references of an overload start. -/
def MethodType.sites (m : MethodType) : Multiset Site := sitesOf m.references

/-- Where the references of parameters and return type start. -/
def FunctionType.sites (f : FunctionType) : Multiset Site := (f.types.map TypeExpr.sites).sum

/-- Where the references of a block start. -/
def blockSites (block : Option Block) : Multiset Site := ((blockTypes block).map TypeExpr.sites).sum

/-- Where the references in the bounds of type parameters start. -/
def boundSites (params : List TypeParam) : Multiset Site := sitesOf (referencesOfTypeParams params)

theorem NamedType.sites_eq (t : NamedType) :
    t.sites = {t.span.site} + (t.args.map TypeExpr.sites).sum := by
  obtain ⟨name, args, span⟩ := t
  rw [sites, references, argReferences, referencesOfTypes_eq, ← List.singleton_append,
    sitesOf_append, sitesOf_flatMap]
  rfl

theorem TypeExpr.sites_named (t : NamedType) : (TypeExpr.named t).sites = t.sites := by
  rw [sites, references]
  rfl

theorem TypeExpr.sites_singleton (t : SingletonType) :
    (TypeExpr.singleton t).sites = {t.span.site} := by
  rw [sites, references]
  rfl

/-- A node that is no reference starts none. -/
theorem TypeExpr.sites_of_children {t : TypeExpr} (h : t.reference? = none) :
    t.sites = (t.children.map TypeExpr.sites).sum := by
  rw [sites, references_eq, h, Option.toList_none, List.nil_append, sitesOf_flatMap]
  rfl

theorem TypeExpr.sites_proc (function : FunctionType) (block : Option Block) :
    (TypeExpr.proc function block).sites = function.sites + blockSites block := by
  rw [sites_of_children rfl, children, List.map_append, List.sum_append]
  rfl

theorem FunctionType.sites_eq (params : List Param) (returnType : TypeExpr) :
    FunctionType.sites ⟨params, returnType⟩ =
      (params.map (·.type.sites)).sum + returnType.sites := by
  simp [FunctionType.sites, types, Function.comp_def]

theorem boundSites_cons (p : TypeParam) (rest : List TypeParam) :
    boundSites (p :: rest) = ((p.upperBound.map TypeExpr.sites).getD 0) + boundSites rest := by
  rw [boundSites, boundSites, referencesOfTypeParams_eq, referencesOfTypeParams_eq]
  cases hbound : p.upperBound with
  | none => rw [List.filterMap_cons_none hbound, Option.map_none, Option.getD_none, zero_add]
  | some t =>
    rw [List.filterMap_cons_some hbound, List.flatMap_cons, sitesOf_append]
    rfl

theorem MethodType.sites_eq (m : MethodType) :
    m.sites = boundSites m.typeParams + (m.function.sites + blockSites m.block) := by
  rw [sites, references, sitesOf_append, sitesOf_append, boundSites, FunctionType.references_eq,
    referencesOfBlock_eq, sitesOf_flatMap, sitesOf_flatMap, add_assoc]
  rfl

/-- Settling the slots of written parameters loses types at most. -/
theorem sum_arrange_le (written : List Param) :
    ((FunctionType.arrange written).map (·.type.sites)).sum ≤
      (written.map (·.type.sites)).sum := by
  have hadd : ∀ (acc : List Param) (q : Param),
      ((FunctionType.addParam acc q).map (·.type.sites)).sum ≤
        (acc.map (·.type.sites)).sum + q.type.sites := by
    intro acc q
    rw [FunctionType.addParam]
    generalize FunctionType.settledSlot acc q.slot = slot
    have hkept :
        (if slot.isSingle then acc.filter fun r => r.slot != slot else acc).Sublist acc := by
      split
      · exact List.filter_sublist
      · exact List.Sublist.refl _
    generalize (if slot.isSingle then acc.filter fun r => r.slot != slot else acc) = kept at hkept
    have hperm := ((List.filter_append_perm (fun r : Param => r.slot.rank ≤ slot.rank) kept).map
      (·.type.sites)).sum_eq
    rw [List.map_append, List.sum_append] at hperm
    rw [List.map_append, List.sum_append, List.map_cons, List.sum_cons, add_left_comm, hperm,
      add_comm]
    exact add_le_add_left ((hkept.map _).sum_le_sum fun _ _ => Multiset.zero_le _) _
  have hfold : ∀ (written acc : List Param),
      ((written.foldl FunctionType.addParam acc).map (·.type.sites)).sum ≤
        (acc.map (·.type.sites)).sum + (written.map (·.type.sites)).sum := by
    intro written
    induction written with
    | nil => exact fun acc => by simp
    | cons q rest ih =>
      intro acc
      rw [List.map_cons, List.sum_cons, ← add_assoc]
      exact (ih _).trans (add_le_add_left (hadd acc q) _)
  have hall := hfold written []
  rwa [List.map_nil, List.sum_nil, zero_add] at hall

/-! ## Names -/

namespace Parser

variable {source : SourceId} {type returnType : Parser TypeExpr}

/-- The range of a qualified name starts at its first lexeme. -/
theorem startsAt_of_typeName {what : String} {accept : TokenKind → Bool} {c c' : Cursor}
    {r : TypeName × TextRange} (h : typeName what accept c = .ok r c') : c.StartsAt r.2.start := by
  have hnone : Yields (unexpected what : Parser (TypeName × TextRange)) fun _ => False :=
    .unexpected what
  obtain ⟨start, c₁, hstart, hrun⟩ := exists_of_bind_eq_ok h
  have hat := (startsAt_of_startOffset hstart).2
  obtain ⟨absolute, c₂, -, hrun⟩ := exists_of_bind_eq_ok hrun
  obtain ⟨path, c₃, -, hrun⟩ := exists_of_bind_eq_ok hrun
  obtain ⟨kind, c₄, -, hrun⟩ := exists_of_bind_eq_ok hrun
  split at hrun
  · obtain ⟨last, c₅, -, hrun⟩ := exists_of_bind_eq_ok hrun
    cases hrun
    exact hat
  · exact (hnone _ _ _ hrun).elim

theorem typeName_takes (what : String) (accept : TokenKind → Bool) :
    Takes source 0 (typeName what accept) fun r => {(source, r.2.start)} := by
  intro c r c' hsource hrun
  have hcut := cut_typeName (n := 0) (i := 0) (k := 0) what accept (by decide)
  have hreach := hcut.reaches c
  rw [hrun] at hreach
  have htaken := site_add_sites_le hreach.source hreach.rest
    (Nat.lt_of_succ_le (hcut.length_add_credit_le hrun)) (startsAt_of_typeName hrun)
  rw [hsource] at htaken
  exact ⟨hreach.source.trans hsource, htaken.trans (zero_add c.sites).ge⟩

theorem namedWith_takes (h : Takes source 0 type TypeExpr.sites) (what : String)
    (accept : TokenKind → Bool) :
    Takes source 0 (namedWith type what accept) NamedType.sites :=
  .startOffset fun _ => Takes.mark (cut_typeName what accept (by decide)) fun (_, _) =>
    .step (cut_eaten _ (by decide)) fun _ => .ite
      (fun _ => .bind (.separated h _) fun _ => .step (cut_expect _ _ (by decide)) fun _ =>
        .spanFrom fun _ => .pure (by rw [NamedType.sites_eq, zero_add]; exact le_refl _))
      fun _ => .spanFrom fun _ => .pure (by rw [NamedType.sites_eq, zero_add]; exact le_refl _)

theorem singletonType_takes : Takes source 0 singletonType TypeExpr.sites :=
  .startOffset fun _ => Takes.checked <| Takes.mark .bump fun _ =>
    .step (cut_expect _ _ (by decide)) fun _ => .step (cut_typeName _ _ (by decide)) fun (_, _) =>
      .step (cut_expect _ _ (by decide)) fun _ => .spanFrom fun _ =>
        .pure (by rw [TypeExpr.sites_singleton, zero_add]; exact le_refl _)

/-! ## Parameters and blocks -/

section Parts

variable (h : Takes source 0 type TypeExpr.sites)

include h

theorem paramOf_takes (slot : Slot) :
    Takes source 0 (paramOf slot type) (·.type.sites) :=
  .bind h fun _ => .step (cut_isAt _ (by decide)) fun _ => .ite
    (fun _ => .step .bump fun _ => .pure (le_refl _)) fun _ => .pure (le_refl _)

theorem param_takes : Takes source 0 (param type) (·.type.sites) := by
  refine .step (cut_look (by decide)) fun kind => ?_
  split
  · exact .step (cut_isOptionalKeyword (by decide)) fun _ => .ite
      (fun _ => .step .bump fun _ => .step cut_keywordName fun _ => paramOf_takes h _)
      fun _ => .step .bump fun _ => paramOf_takes h _
  · exact .step .bump fun _ => paramOf_takes h _
  · exact .step .bump fun _ => paramOf_takes h _
  · exact .ite (fun _ => .step (cut_isFollowedBy _ (by decide)) fun _ => .ite
      (fun _ => .step cut_keywordName fun _ => paramOf_takes h _) fun _ => paramOf_takes h _)
      fun _ => paramOf_takes h _

theorem params_takes :
    Takes source 0 (params type) fun ps => (ps.map (·.type.sites)).sum :=
  .step (cut_eaten _ (by decide)) fun _ => .ite
    (fun _ => .bind (.separatedUntil (param_takes h) 0) fun written =>
      .step (cut_expect _ _ (by decide)) fun _ =>
        .pure ((sum_arrange_le written).trans (zero_add _).ge))
    fun _ => .pure (le_refl _)

theorem blockBody_takes (required : Bool) : Takes source 0 (blockBody required type) blockSites :=
  .bind (params_takes h) fun _ => .step (cut_expect _ _ (by decide)) fun _ =>
    .bind (.frame h _) fun _ => .step (cut_expect _ _ (by decide)) fun _ =>
      .pure (FunctionType.sites_eq _ _).le

theorem block_takes : Takes source 0 (block type) blockSites := by
  refine .step (cut_look (by decide)) fun kind => ?_
  split
  · exact .step .bump fun _ => blockBody_takes h true
  · exact .step (cut_isFollowedBy _ (by decide)) fun _ => .ite
      (fun _ => .step .bump fun _ => .step .bump fun _ => blockBody_takes h false)
      fun _ => .pure (le_refl _)
  · exact .pure (le_refl _)

theorem callable_takes (hreturn : Takes source 0 returnType TypeExpr.sites) :
    Takes source 0 (callable type returnType) fun r => r.1.sites + blockSites r.2 :=
  .bind (params_takes h) fun ps => .bind (.frame (block_takes h) _) fun b =>
    .step (cut_expect _ _ (by decide)) fun _ => .bind (.frame hreturn _) fun t =>
      .pure (by rw [FunctionType.sites_eq, add_right_comm])

/-! ## Types without operators -/

theorem tupleType_takes : Takes source 0 (tupleType type) TypeExpr.sites :=
  .step (cut_assertAt _ (by decide)) fun _ => .step .bump fun _ =>
    .bind (.separatedUntil h 0) fun types => .step (cut_expect _ _ (by decide)) fun _ =>
      .pure (by rw [TypeExpr.sites_of_children rfl, zero_add]; exact le_refl _)

theorem recordField_takes : Takes source 0 (recordField type) (·.type.sites) :=
  .step (cut_recordKey (by decide)) fun _ => .bind h fun _ => .pure (le_refl _)

theorem recordType_takes : Takes source 0 (recordType type) TypeExpr.sites :=
  .step (cut_assertAt _ (by decide)) fun _ => .step .bump fun _ =>
    .bind (.separatedUntil (recordField_takes h) 0) fun fields =>
      .step (cut_expect _ _ (by decide)) fun _ => .pure (by
        rw [TypeExpr.sites_of_children rfl, zero_add, TypeExpr.children, List.map_map]
        exact le_refl _)

theorem procType_takes (hreturn : Takes source 0 returnType TypeExpr.sites) :
    Takes source 0 (procType type returnType) TypeExpr.sites :=
  .step (cut_assertAt _ (by decide)) fun _ => .step .bump fun _ =>
    .bind (callable_takes h hreturn) fun (_, _) => .pure (TypeExpr.sites_proc _ _).le

theorem anyNamed_takes : Takes source 0 (anyNamed type) TypeExpr.sites :=
  .bind (namedWith_takes h _ _) fun _ => .pure (TypeExpr.sites_named _).le

theorem simpleType_takes (vars : List String) (hreturn : Takes source 0 returnType TypeExpr.sites) :
    Takes source 0 (simpleType vars type returnType) TypeExpr.sites := by
  have hnone : ∀ {t : TypeExpr}, t.children = [] → t.reference? = none →
      Takes source 0 (Pure.pure t : Parser TypeExpr) TypeExpr.sites := fun hchildren hreference =>
    .pure (by rw [TypeExpr.sites_of_children hreference, hchildren]; exact le_refl _)
  refine .step (cut_look (by decide)) fun kind => ?_
  split
  · exact .step .bump fun _ => hnone rfl rfl
  · split
    · exact .step .bump fun _ => .bind h fun _ => .step (cut_expect _ _ (by decide)) fun _ =>
        .pure (le_refl _)
    · exact tupleType_takes h
    · exact recordType_takes h
    · exact procType_takes h hreturn
    · exact .step .bump fun _ => hnone rfl rfl
    · exact .step .bump fun _ => hnone rfl rfl
    · exact .step cut_currentRange fun _ => .step .bump fun _ => .ite (fun _ => hnone rfl rfl)
        fun _ => .throw _
    · exact .step .bump fun _ => hnone rfl rfl
    · exact .step .bump fun _ => hnone rfl rfl
    · exact singletonType_takes
    · exact .step (cut_isAtTypeVar vars (by decide)) fun _ => .ite
        (fun _ => .step .bump fun _ => hnone rfl rfl) fun _ => anyNamed_takes h
    · exact anyNamed_takes h
    · exact anyNamed_takes h
    · exact anyNamed_takes h
    · exact .unexpected _

end Parts

/-! ## Operators -/

section Operators

variable {simple : Parser TypeExpr}

theorem optionalMarksWithin_takes (t : TypeExpr) (n : Nat) :
    Takes source t.sites (optionalMarksWithin t n) TypeExpr.sites := by
  induction n generalizing t with
  | zero => exact .throw _
  | succ n ih =>
    have hinner : (TypeExpr.optional t).sites = t.sites := by
      rw [TypeExpr.sites_of_children rfl, TypeExpr.children]
      exact List.sum_singleton
    exact .step (cut_isAtOptionalMark (by decide)) fun _ => .ite
      (fun _ => .step .bump fun _ => hinner ▸ ih (.optional t)) fun _ => .pure (le_refl _)

theorem optionalType_takes (h : Takes source 0 simple TypeExpr.sites) :
    Takes source 0 (optionalType simple) TypeExpr.sites :=
  .bind h fun t => .step cut_rounds fun n => optionalMarksWithin_takes t n

theorem operands_takes {mark : TokenKind} {build : List TypeExpr → TypeExpr}
    {operand : Parser TypeExpr} (hbuild : ∀ ts, (build ts).sites = (ts.map TypeExpr.sites).sum)
    (h : Takes source 0 operand TypeExpr.sites) :
    Takes source 0 (operands mark build operand) TypeExpr.sites :=
  .bind h fun _ => .step (cut_isAt _ (by decide)) fun _ => .ite
    (fun _ => .bind (.repeatedAfter h _) fun _ => .pure (by
      rw [hbuild, List.map_cons, List.sum_cons]))
    fun _ => .pure (le_refl _)

theorem unionType_takes (h : Takes source 0 simple TypeExpr.sites) :
    Takes source 0 (unionType simple) TypeExpr.sites :=
  operands_takes (fun _ => TypeExpr.sites_of_children rfl)
    (operands_takes (fun _ => TypeExpr.sites_of_children rfl) (optionalType_takes h))

end Operators

/-! ## Types and overloads -/

/-- A level takes what the rule in it takes. -/
theorem nested_takes {α : Type} {p : Parser α} {before : Multiset Site} {after : α → Multiset Site}
    (h : Takes source before p after) : Takes source before (nested p) after := by
  intro c a c' hsource hrun
  obtain ⟨c₁, hinner, rfl⟩ := exists_of_nested_eq_ok hrun
  exact h (opened c) a c₁ hsource hinner

/-- By induction on the levels that may still be opened. -/
theorem typeExpr_returnType_takes (vars : List String) (levels : Nat) :
    Takes source 0 (typeExpr vars levels) TypeExpr.sites ∧
      Takes source 0 (Parser.returnType vars levels) TypeExpr.sites := by
  induction levels with
  | zero => exact ⟨.throw _, .throw _⟩
  | succ n ih =>
    have hsimple := simpleType_takes ih.1 vars ih.2
    exact ⟨nested_takes (unionType_takes hsimple), nested_takes (optionalType_takes hsimple)⟩

section Overloads

variable (vars : List String) (levels : Nat)

theorem typeExpr_takes : Takes source 0 (typeExpr vars levels) TypeExpr.sites :=
  (typeExpr_returnType_takes vars levels).1

theorem namedType_takes (what : String) :
    Takes source 0 (namedType vars levels what) NamedType.sites :=
  namedWith_takes (typeExpr_takes vars levels) what _

theorem typeParam_takes (allowVariance : Bool) :
    Takes source 0 (typeParam allowVariance vars levels) fun p =>
      (p.upperBound.map TypeExpr.sites).getD 0 := by
  have hbound : ∀ name, Takes source 0 (upperBound (typeExpr (name :: vars) levels)) fun t =>
      (t.map TypeExpr.sites).getD 0 := fun name =>
    .step (cut_eaten _ (by decide)) fun _ => .ite
      (fun _ => .bind (typeExpr_takes _ levels) fun _ => .pure (le_refl _))
      fun _ => .pure (le_refl _)
  exact .step cut_startOffset fun _ => .step (cut_uncheckedMark _ (by decide)) fun _ =>
    .step (cut_variance _ (by decide)) fun _ => .step (cut_isAt _ (by decide)) fun _ => .ite
      (fun _ => .step .bump fun name => .bind (hbound name) fun _ => .step (cut_spanFrom _) fun _ =>
        .pure (le_refl _))
      fun _ => .unexpected _

theorem typeParams_takes (allowVariance : Bool) :
    Takes source 0 (typeParams allowVariance vars levels) boundSites := by
  have hwithin : ∀ (n : Nat) (vars : List String),
      Takes source 0 (typeParamsWithin allowVariance levels vars n) boundSites := by
    intro n
    induction n with
    | zero => exact fun _ => .throw _
    | succ n ih =>
      exact fun vars => .bind (typeParam_takes vars levels allowVariance) fun p =>
        .step (cut_eaten _ (by decide)) fun _ => .ite
          (fun _ => .bind (.frame (ih _) _) fun _ => .pure (boundSites_cons _ _).le)
          fun _ => .pure (by rw [boundSites_cons]; exact (add_zero _).le)
  exact .step (cut_eaten _ (by decide)) fun _ => .ite
    (fun _ => .step cut_rounds fun _ => .bind (hwithin _ _) fun _ =>
      .step (cut_expect _ _ (by decide)) fun _ => .pure (le_refl _))
    fun _ => .pure (le_refl _)

theorem methodType_takes : Takes source 0 (methodType vars levels) MethodType.sites :=
  .step cut_startOffset fun _ => .bind (typeParams_takes vars levels false) fun _ =>
    .bind (.frame (callable_takes (typeExpr_takes _ levels) (typeExpr_returnType_takes _ levels).2)
      _) fun (_, _) => .step (cut_spanFrom _) fun _ => .pure (MethodType.sites_eq _).le

end Overloads

end Parser

end RubySig
