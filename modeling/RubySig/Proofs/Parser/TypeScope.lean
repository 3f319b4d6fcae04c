import RubySig.Parser.Types
import RubySig.Proofs.Parser.Yields
import RubySig.Proofs.TypeExpr.Params
import RubySig.Proofs.TypeExpr.Scope

/-!
# Variables of parsed types

The grammar reads a bare name as a variable only if it is one of the type parameters in scope, so
every type that it returns is in that scope.  An overload is in the scope in which it is read: its
own type parameters are added while its types are read.

* `Parser.typeVar_yields`: the one place where a variable is made.
* `Parser.simpleType_scoped`, `Parser.unionType_scoped`: the levels of the grammar.
* `Parser.typeExpr_returnType_scoped`, `Parser.namedType_scoped`: types.
* `Parser.methodType_scoped`: overloads.
-/

namespace RubySig

namespace Parser

/-! ## Where a variable is made -/

/-- Looking does not take a lexeme. -/
theorem rest_of_isFollowedBy {kind : TokenKind} {c c' : Cursor} {b : Bool}
    (h : isFollowedBy kind c = .ok b c') : c'.rest = c.rest := by
  cases h
  rfl

/-- A rule that finds itself at a variable stands in front of a name in scope. -/
theorem text_of_isAtTypeVar {vars : List String} {c c' : Cursor}
    (h : isAtTypeVar vars c = .ok true c') : (c'.rest.head?.map (·.text)).getD "" ∈ vars := by
  obtain ⟨text, c₁, htext, h⟩ := exists_of_bind_eq_ok h
  obtain ⟨followed, c₂, hfollowed, h⟩ := exists_of_bind_eq_ok h
  cases htext
  cases followed with
  | true => cases h
  | false =>
    obtain ⟨hcontains, rfl⟩ := EStateM.Result.ok.inj h
    rw [rest_of_isFollowedBy hfollowed]
    exact List.contains_iff_mem.1 hcontains

/-- What is taken is the next lexeme. -/
theorem text_of_bump {c c' : Cursor} {text : String} (h : bump c = .ok text c') :
    text = (c.rest.head?.map (·.text)).getD "" := by
  rw [bump] at h
  cases hrest : c.rest with
  | nil => rw [hrest] at h; cases h
  | cons l rest =>
    rw [hrest] at h
    dsimp only at h
    split at h
    · cases h
    · exact (EStateM.Result.ok.inj h).1.symm

/-- A name that becomes a variable is in scope. -/
theorem typeVar_yields {vars : List String} {post : TypeExpr → Prop} {other : Parser TypeExpr}
    (hvar : ∀ v ∈ vars, post (.var v)) (hother : Yields other post) :
    Yields (do if ← isAtTypeVar vars then return .var (← bump) else other) post := by
  intro c t c' hrun
  obtain ⟨isVar, c₁, hat, hrun⟩ := exists_of_bind_eq_ok hrun
  cases isVar with
  | false => exact hother c₁ t c' hrun
  | true =>
    obtain ⟨text, c₂, hbump, hrun⟩ := exists_of_bind_eq_ok hrun
    cases hrun
    rw [text_of_bump hbump]
    exact hvar _ (text_of_isAtTypeVar hat)

/-! ## Parameters and blocks -/

section Parts

variable {scope : List String} {type returnType : Parser TypeExpr}

theorem paramOf_scoped (slot : Slot) (h : Yields type (·.ScopedIn scope)) :
    Yields (paramOf slot type) (·.type.ScopedIn scope) :=
  .bind h fun _ ht => .step fun _ => .ite (fun _ => .step fun _ => .pure ht) fun _ => .pure ht

theorem param_scoped (h : Yields type (·.ScopedIn scope)) :
    Yields (param type) (·.type.ScopedIn scope) := by
  refine .step fun kind => ?_
  split
  · exact .step fun _ => .ite (fun _ => .step fun _ => .step fun _ => paramOf_scoped _ h)
      fun _ => .step fun _ => paramOf_scoped _ h
  · exact .step fun _ => paramOf_scoped _ h
  · exact .step fun _ => paramOf_scoped _ h
  · exact .ite (fun _ => .step fun _ => .ite (fun _ => .step fun _ => paramOf_scoped _ h)
      fun _ => paramOf_scoped _ h) fun _ => paramOf_scoped _ h

theorem params_scoped (h : Yields type (·.ScopedIn scope)) :
    Yields (params type) fun ps => ∀ p ∈ ps, p.type.ScopedIn scope := by
  refine .step fun _ => .ite (fun _ => ?_) fun _ => .nil
  refine .bind (.separatedUntil (param_scoped h)) fun written hwritten => .step fun _ => .pure ?_
  intro p hp
  obtain ⟨q, hq, hpq, -⟩ := FunctionType.exists_of_mem_arrange hp
  rw [hpq]
  exact hwritten q hq

/-- The types of a function type are in scope if those of its parameters and its return type
are. -/
theorem scoped_types {ps : List Param} {t : TypeExpr} (hps : ∀ p ∈ ps, p.type.ScopedIn scope)
    (ht : t.ScopedIn scope) : ∀ u ∈ (FunctionType.mk ps t).types, u.ScopedIn scope :=
  List.forall_mem_append.2 ⟨List.forall_mem_map.2 hps, List.forall_mem_singleton.2 ht⟩

theorem blockBody_scoped (required : Bool) (h : Yields type (·.ScopedIn scope)) :
    Yields (blockBody required type) fun b => ∀ t ∈ blockTypes b, t.ScopedIn scope :=
  .bind (params_scoped h) fun _ hps => .step fun _ => .bind h fun _ ht => .step fun _ =>
    .pure (scoped_types hps ht)

theorem block_scoped (h : Yields type (·.ScopedIn scope)) :
    Yields (block type) fun b => ∀ t ∈ blockTypes b, t.ScopedIn scope := by
  have hnone : ∀ t ∈ blockTypes none, t.ScopedIn scope := fun _ ht => absurd ht List.not_mem_nil
  refine .step fun kind => ?_
  split
  · exact .step fun _ => blockBody_scoped _ h
  · exact .step fun _ => .ite (fun _ => .step fun _ => .step fun _ => blockBody_scoped _ h)
      fun _ => .pure hnone
  · exact .pure hnone

theorem callable_scoped (h : Yields type (·.ScopedIn scope))
    (hreturn : Yields returnType (·.ScopedIn scope)) :
    Yields (callable type returnType) fun r =>
      ∀ t ∈ r.1.types ++ blockTypes r.2, t.ScopedIn scope :=
  .bind (params_scoped h) fun _ hps => .bind (block_scoped h) fun _ hblock => .step fun _ =>
    .bind hreturn fun _ ht => .pure (List.forall_mem_append.2 ⟨scoped_types hps ht, hblock⟩)

/-! ## Types without operators -/

theorem namedWith_scoped (what : String) (accept : TokenKind → Bool)
    (h : Yields type (·.ScopedIn scope)) :
    Yields (namedWith type what accept) fun t => ∀ a ∈ t.args, a.ScopedIn scope :=
  .step fun _ => .step fun _ => .step fun _ =>
    .ite (fun _ => .bind (.separated h) fun _ hargs => .step fun _ => .step fun _ => .pure hargs)
      fun _ => .step fun _ => .pure fun _ ha => absurd ha List.not_mem_nil

theorem anyNamed_scoped (h : Yields type (·.ScopedIn scope)) :
    Yields (anyNamed type) (·.ScopedIn scope) :=
  .bind (namedWith_scoped _ _ h) fun _ hargs => .pure (TypeExpr.scopedIn_of_children rfl hargs)

theorem tupleType_scoped (h : Yields type (·.ScopedIn scope)) :
    Yields (tupleType type) (·.ScopedIn scope) :=
  .step fun _ => .step fun _ => .bind (.separatedUntil h) fun _ htypes => .step fun _ =>
    .pure (TypeExpr.scopedIn_of_children rfl htypes)

theorem recordField_scoped (h : Yields type (·.ScopedIn scope)) :
    Yields (recordField type) (·.type.ScopedIn scope) :=
  .step fun _ => .bind h fun _ ht => .pure ht

theorem recordType_scoped (h : Yields type (·.ScopedIn scope)) :
    Yields (recordType type) (·.ScopedIn scope) :=
  .step fun _ => .step fun _ => .bind (.separatedUntil (recordField_scoped h)) fun _ hfields =>
    .step fun _ => .pure (TypeExpr.scopedIn_of_children rfl (List.forall_mem_map.2 hfields))

theorem procType_scoped (h : Yields type (·.ScopedIn scope))
    (hreturn : Yields returnType (·.ScopedIn scope)) :
    Yields (procType type returnType) (·.ScopedIn scope) :=
  .step fun _ => .step fun _ => .bind (callable_scoped h hreturn) fun _ htypes =>
    .pure (TypeExpr.scopedIn_of_children rfl htypes)

theorem integerType_scoped : Yields integerType (·.ScopedIn scope) :=
  .step fun _ => .step fun _ => .ite (fun _ => .pure (TypeExpr.scopedIn_literal _))
    fun _ => .failAt _ _

theorem singletonType_scoped : Yields singletonType (·.ScopedIn scope) :=
  .step fun _ => .step fun _ => .step fun _ => .step fun _ => .step fun _ => .step fun _ =>
    .step fun _ => .pure (TypeExpr.scopedIn_singleton _)

theorem simpleType_scoped (h : Yields type (·.ScopedIn scope))
    (hreturn : Yields returnType (·.ScopedIn scope)) :
    Yields (simpleType scope type returnType) (·.ScopedIn scope) := by
  refine .step fun kind => ?_
  split
  · exact .step fun _ => .pure (TypeExpr.scopedIn_special _)
  · split
    · exact .step fun _ => .bind h fun _ ht => .step fun _ => .pure ht
    · exact tupleType_scoped h
    · exact recordType_scoped h
    · exact procType_scoped h hreturn
    · exact .step fun _ => .pure (TypeExpr.scopedIn_literal _)
    · exact .step fun _ => .pure (TypeExpr.scopedIn_literal _)
    · exact integerType_scoped
    · exact .step fun _ => .pure (TypeExpr.scopedIn_literal _)
    · exact .step fun _ => .pure (TypeExpr.scopedIn_literal _)
    · exact singletonType_scoped
    · exact typeVar_yields (fun _ hv => TypeExpr.scopedIn_var.2 hv) (anyNamed_scoped h)
    · exact anyNamed_scoped h
    · exact anyNamed_scoped h
    · exact anyNamed_scoped h
    · exact .unexpected _

/-! ## Operators -/

theorem optionalMarksWithin_scoped {t : TypeExpr} (ht : t.ScopedIn scope) (n : Nat) :
    Yields (optionalMarksWithin t n) (·.ScopedIn scope) := by
  induction n generalizing t with
  | zero => exact .throw _
  | succ n ih =>
    have hoptional : (TypeExpr.optional t).ScopedIn scope :=
      TypeExpr.scopedIn_of_children rfl (List.forall_mem_singleton.2 ht)
    exact .step fun _ => .ite (fun _ => .step fun _ => ih hoptional) fun _ => .pure ht

theorem optionalType_scoped {simple : Parser TypeExpr} (h : Yields simple (·.ScopedIn scope)) :
    Yields (optionalType simple) (·.ScopedIn scope) :=
  .bind h fun _ ht => .step fun _ => optionalMarksWithin_scoped ht _

theorem operands_scoped {mark : TokenKind} {build : List TypeExpr → TypeExpr}
    {operand : Parser TypeExpr}
    (hbuild : ∀ types, (∀ t ∈ types, t.ScopedIn scope) → (build types).ScopedIn scope)
    (h : Yields operand (·.ScopedIn scope)) :
    Yields (operands mark build operand) (·.ScopedIn scope) :=
  .bind h fun _ hfirst => .step fun _ =>
    .ite (fun _ => .bind (.repeatedAfter h) fun _ hrest =>
        .pure (hbuild _ (List.forall_mem_cons.2 ⟨hfirst, hrest⟩)))
      fun _ => .pure hfirst

theorem unionType_scoped {simple : Parser TypeExpr} (h : Yields simple (·.ScopedIn scope)) :
    Yields (unionType simple) (·.ScopedIn scope) :=
  operands_scoped (fun _ htypes => TypeExpr.scopedIn_of_children rfl htypes)
    (operands_scoped (fun _ htypes => TypeExpr.scopedIn_of_children rfl htypes)
      (optionalType_scoped h))

end Parts

/-! ## Types and overloads -/

/-- Every type is in the scope in which it is read.  By induction on the levels that may be
opened. -/
theorem typeExpr_returnType_scoped (scope : List String) (levels : Nat) :
    Yields (typeExpr scope levels) (·.ScopedIn scope) ∧
      Yields (returnType scope levels) (·.ScopedIn scope) := by
  induction levels with
  | zero => exact ⟨.tooDeep, .tooDeep⟩
  | succ n ih =>
    have hsimple := simpleType_scoped ih.1 ih.2
    exact ⟨.nested (unionType_scoped hsimple), .nested (optionalType_scoped hsimple)⟩

theorem typeExpr_scoped (scope : List String) (levels : Nat) :
    Yields (typeExpr scope levels) (·.ScopedIn scope) :=
  (typeExpr_returnType_scoped scope levels).1

theorem namedType_scoped (scope : List String) (levels : Nat) (what : String) :
    Yields (namedType scope levels what) fun t => ∀ a ∈ t.args, a.ScopedIn scope :=
  namedWith_scoped what acceptsMixin (typeExpr_scoped scope levels)

/-- The bound of a type parameter is read with its own name in scope. -/
theorem typeParam_scoped (allowVariance : Bool) (scope : List String) (levels : Nat) :
    Yields (typeParam allowVariance scope levels) fun p =>
      ∀ t, p.upperBound = some t → t.ScopedIn (p.name :: scope) := by
  refine .step fun _ => .step fun _ => .step fun _ => .step fun _ =>
    .ite (fun _ => .step fun name => ?_) fun _ => .unexpected _
  have hbound : Yields (upperBound (typeExpr (name :: scope) levels)) fun b =>
      ∀ t, b = some t → t.ScopedIn (name :: scope) :=
    .step fun _ => .ite (fun _ => .bind (typeExpr_scoped _ _) fun u hu => .pure fun t ht =>
      Option.some.inj ht ▸ hu) fun _ => .pure fun _ ht => by cases ht
  exact .bind hbound fun _ hbound => .step fun _ => .pure hbound

/-- The bounds of type parameters are in the scope of all of them. -/
theorem typeParamsWithin_scoped (allowVariance : Bool) (levels : Nat) (scope : List String)
    (n : Nat) :
    Yields (typeParamsWithin allowVariance levels scope n) fun ps =>
      ∀ t ∈ ps.filterMap (·.upperBound), t.ScopedIn (typeParamNames ps ++ scope) := by
  induction n generalizing scope with
  | zero => exact .throw _
  | succ n ih =>
    -- the bound of the first parameter is in the scope of the parameters behind it, too
    have hcons : ∀ (p : TypeParam) (ps : List TypeParam),
        (∀ t, p.upperBound = some t → t.ScopedIn (p.name :: scope)) →
        (∀ t ∈ ps.filterMap (·.upperBound), t.ScopedIn (typeParamNames ps ++ p.name :: scope)) →
        ∀ t ∈ (p :: ps).filterMap (·.upperBound),
          t.ScopedIn (typeParamNames (p :: ps) ++ scope) := by
      intro p ps hp hps t ht
      obtain ⟨q, hq, hbound⟩ := List.mem_filterMap.1 ht
      rcases List.mem_cons.1 hq with rfl | hq
      · refine (hp t hbound).mono fun v hv => ?_
        rcases List.mem_cons.1 hv with rfl | hv
        · exact List.mem_append_left _ List.mem_cons_self
        · exact List.mem_append_right _ hv
      · refine (hps t (List.mem_filterMap.2 ⟨q, hq, hbound⟩)).mono fun v hv => ?_
        rcases List.mem_append.1 hv with hv | hv
        · exact List.mem_append_left _ (List.mem_cons_of_mem _ hv)
        · rcases List.mem_cons.1 hv with rfl | hv
          · exact List.mem_append_left _ List.mem_cons_self
          · exact List.mem_append_right _ hv
    refine .bind (typeParam_scoped allowVariance scope levels) fun p hp => .step fun _ => ?_
    refine .ite (fun _ => .bind (ih (p.name :: scope)) fun ps hps => .pure (hcons p ps hp hps)) ?_
    exact fun _ => .pure (hcons p [] hp fun _ ht => absurd ht List.not_mem_nil)

theorem typeParams_scoped (allowVariance : Bool) (scope : List String) (levels : Nat) :
    Yields (typeParams allowVariance scope levels) fun ps =>
      ∀ t ∈ ps.filterMap (·.upperBound), t.ScopedIn (typeParamNames ps ++ scope) :=
  .step fun _ => .ite (fun _ => .step fun _ =>
      .bind (typeParamsWithin_scoped _ _ _ _) fun _ hps => .step fun _ => .pure hps)
    fun _ => .pure fun _ ht => absurd ht List.not_mem_nil

theorem methodType_scoped (scope : List String) (levels : Nat) :
    Yields (methodType scope levels) (·.ScopedIn scope) := by
  refine .step fun _ => .bind (typeParams_scoped false scope levels) fun ps hps => ?_
  obtain ⟨htype, hreturn⟩ := typeExpr_returnType_scoped (typeParamNames ps ++ scope) levels
  refine .bind (callable_scoped htype hreturn) fun _ htypes => .step fun _ => .pure ?_
  rw [MethodType.ScopedIn, MethodType.types, List.append_assoc]
  exact List.forall_mem_append.2 ⟨hps, htypes⟩

end Parser

end RubySig
