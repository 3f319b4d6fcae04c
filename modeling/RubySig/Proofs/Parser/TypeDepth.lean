import RubySig.Proofs.Parser.WrittenTypes
import RubySig.Proofs.TypeExpr.Height
import RubySig.Proofs.Validation.Silence

/-!
# The recursion limit bounds the types

Every level that the grammar opens adds at most four layers to a type: a union, an intersection, a
run of optionals and one type without operators.  The marks of a run are read one after the other at
one level, so a run can be of any length.

* `Parser.optionalType_layers`, `Parser.unionType_layers`: the layers of one level.
* `Parser.typesHold_layers`: the layers of all levels.
* `depth_le_of_parseSource`: the types of a text.
* `depth_of_run`: a run of optionals that needs one level and is deeper than four nodes.
-/

namespace RubySig

namespace Parser

section Levels

variable {n : Nat}

/-- All marks behind a type add one layer to it. -/
theorem optionalMarksWithin_layers {t : TypeExpr}
    (ht : t.layers ≤ n ∨ ∃ u, t = .optional u ∧ t.layers ≤ n + 1) (m : Nat) :
    Ensures anywhere (optionalMarksWithin t m) fun t _ => t.layers ≤ n + 1 := by
  induction m generalizing t with
  | zero => exact .throw _
  | succ m ih =>
    refine .step (cut_isAtOptionalMark (by decide)) fun _ => .ite (fun _ => .step .bump fun _ => ?_)
      fun _ => .pure fun _ _ => ?_
    · refine ih (Or.inr ⟨t, rfl, ?_⟩)
      rcases ht with ht | ⟨u, rfl, hu⟩
      · exact TypeExpr.layers_le_of_children (List.forall_mem_singleton.2 ht)
      · exact (TypeExpr.layers_optional_optional u).trans hu
    · rcases ht with ht | ⟨_, _, ht⟩
      · exact Nat.le_succ_of_le ht
      · exact ht

theorem optionalType_layers {simple : Parser TypeExpr}
    (h : Ensures anywhere simple fun t _ => t.layers ≤ n) :
    Ensures anywhere (optionalType simple) fun t _ => t.layers ≤ n + 1 :=
  .known h fun _ ht => .step cut_rounds fun _ => optionalMarksWithin_layers (Or.inl ht) _

theorem operands_layers {mark : TokenKind} {build : List TypeExpr → TypeExpr}
    {operand : Parser TypeExpr} (hbuild : ∀ types, (build types).children = types)
    (h : Ensures anywhere operand fun t _ => t.layers ≤ n) :
    Ensures anywhere (operands mark build operand) fun t _ => t.layers ≤ n + 1 := by
  have hothers : Ensures anywhere (repeatedAfter mark operand) fun ts _ =>
      ∀ t ∈ ts, t.layers ≤ n := .step cut_rounds fun m => .repeatedAfterWithin h m
  refine .known h fun first hfirst => .step (cut_isAt _ (by decide)) fun _ =>
    .ite (fun _ => .known hothers fun others hothers => ?_) fun _ => ?_
  · refine .pure fun _ _ => TypeExpr.layers_le_of_children ?_
    rw [hbuild]
    exact List.forall_mem_cons.2 ⟨hfirst, hothers⟩
  · exact .pure fun _ _ => Nat.le_succ_of_le hfirst

theorem unionType_layers {simple : Parser TypeExpr}
    (h : Ensures anywhere simple fun t _ => t.layers ≤ n) :
    Ensures anywhere (unionType simple) fun t _ => t.layers ≤ n + 3 :=
  operands_layers (fun _ => rfl) (operands_layers (fun _ => rfl) (optionalType_layers h))

end Levels

/-- By induction on the levels that may be opened. -/
theorem typeExpr_returnType_layers (vars : List String) (levels : Nat) :
    Ensures anywhere (typeExpr vars levels) (fun t _ => t.layers ≤ 4 * levels) ∧
      Ensures anywhere (returnType vars levels) (fun t _ => t.layers ≤ 4 * levels) := by
  induction levels with
  | zero => exact ⟨.throw _, .throw _⟩
  | succ n ih =>
    have hsimple : Ensures anywhere (simpleType vars (typeExpr vars n) (returnType vars n))
        fun t _ => t.layers ≤ 4 * n + 1 := by
      refine (simpleType_each vars ih.1 ih.2).mono (fun _ => id) fun t _ ht => ?_
      rcases ht with ht | ht
      · exact Nat.le_succ_of_le ht
      · exact TypeExpr.layers_le_of_children ht
    refine ⟨.nested (unionType_layers hsimple), .nested ?_⟩
    exact (optionalType_layers hsimple).mono (fun _ => id) fun _ _ ht => ht.trans (by omega)

theorem typesHold_layers (limit : Nat) : TypesHold (fun _ t => t.layers ≤ 4 * limit) limit := by
  constructor
  · intro vars levels _ hlevels
    exact (typeExpr_returnType_layers vars levels).1.mono (fun _ => id) fun _ _ ht =>
      ht.trans (Nat.mul_le_mul_left 4 hlevels)
  · intro vars levels _ hlevels
    exact (typeExpr_returnType_layers vars levels).2.mono (fun _ => id) fun _ _ ht =>
      ht.trans (Nat.mul_le_mul_left 4 hlevels)

end Parser

/-- With a recursion limit no type of a text has more than four layers for each level.  So no type
in which no optional is directly inside of another one has more than four nodes on a path for each
level. -/
theorem depth_le_of_parseSource {fuel : Option Nat} {limit : Nat} {source : SourceId}
    {text : String} {declarations : List Declaration} {errors : List Diagnostic}
    (h : parseSource ⟨fuel, some limit⟩ source text = .ok (declarations, errors)) :
    ∀ t, Writes declarations t → t.2.layers ≤ 4 * limit ∧
      ((∀ u ∈ t.2.nodes, u.isDoubled = false) → t.2.depth ≤ 4 * limit) := by
  intro t ht
  have hlayers := of_writes (throughout_of_parseSource (Parser.typesHold_layers limit) h) ht
  exact ⟨hlayers, fun hdoubled => (TypeExpr.depth_le_layers hdoubled).trans hlayers⟩

/-- The type of an alias at the top level of a file. -/
def Declaration.aliased? : Declaration → Option TypeExpr
  | .entity (.typeAlias d) => some d.type
  | .entity (.klass _) | .entity (.module _) | .entity (.interface _) | .entity (.constant _)
  | .global _ => none

theorem writes_of_aliased {declarations : List Declaration} {d : Declaration} {t : TypeExpr}
    (hd : d ∈ declarations) (ht : d.aliased? = some t) :
    ∃ scope, Writes declarations (scope, t) := by
  obtain (⟨_⟩ | ⟨_⟩ | ⟨_⟩ | d | ⟨_⟩) | ⟨_⟩ := d <;> try cases ht
  exact ⟨_, .entity (.outermost hd) (List.mem_append_left _
    (List.mem_append_right _ (List.mem_singleton_self _)))⟩

theorem exists_aliased (limits : Limits) (text : String) (p : TypeExpr → Bool)
    (h : (parseSource limits 0 text).toOption.any fun r =>
      r.2.isEmpty && r.1.any fun d => d.aliased?.any p) :
    ∃ ds scope t, parseSource limits 0 text = .ok (ds, []) ∧ Writes ds (scope, t) ∧ p t = true := by
  obtain ⟨⟨ds, errors⟩, hparse, hcheck⟩ := exists_ok_of_any _ _ h
  obtain ⟨hnone, hcheck⟩ := Bool.and_eq_true_iff.1 hcheck
  obtain rfl : errors = [] := List.isEmpty_iff.1 hnone
  obtain ⟨d, hd, hcheck⟩ := List.any_eq_true.1 hcheck
  obtain ⟨t, ht, hp⟩ := (Option.any_eq_true _ _).1 hcheck
  obtain ⟨scope, hwritten⟩ := writes_of_aliased hd ht
  exact ⟨ds, scope, t, hparse, hwritten, hp⟩

/-- One level suffices for a union of an intersection with an optional, whose depth is four. -/
theorem depth_le_union : ∃ ds scope t,
    parseSource ⟨none, some 1⟩ 0 "type t = A | B & C?\n" = .ok (ds, []) ∧
    Writes ds (scope, t) ∧ t.depth = 4 ∧ t.layers ≤ 4 * 1 ∧ t.depth ≤ 4 * 1 := by
  obtain ⟨ds, scope, t, hparse, ht, hcheck⟩ := exists_aliased ⟨none, some 1⟩
    "type t = A | B & C?\n" (fun t => decide (t.depth = 4) && t.nodes.all fun u => !u.isDoubled)
    (by decide +kernel)
  simp only [Bool.and_eq_true, decide_eq_true_eq, List.all_eq_true, Bool.not_eq_true'] at hcheck
  obtain ⟨hlayers, hdepth⟩ := depth_le_of_parseSource hparse (scope, t) ht
  exact ⟨ds, scope, t, hparse, ht, hcheck.1, hlayers, hdepth hcheck.2⟩

/-- One level suffices for a run of four optionals, too, whose depth is five. -/
theorem depth_of_run : ∃ ds scope t,
    parseSource ⟨none, some 1⟩ 0 "type t = Integer????\n" = .ok (ds, []) ∧
    Writes ds (scope, t) ∧ ¬ t.depth ≤ 4 * 1 := by
  obtain ⟨ds, scope, t, hparse, ht, hcheck⟩ := exists_aliased ⟨none, some 1⟩
    "type t = Integer????\n" (fun t => decide (t.depth = 5)) (by decide +kernel)
  refine ⟨ds, scope, t, hparse, ht, ?_⟩
  rw [of_decide_eq_true hcheck]
  decide

end RubySig
