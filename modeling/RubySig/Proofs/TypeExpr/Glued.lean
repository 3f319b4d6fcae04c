import RubySig.Proofs.TypeExpr.Printed
import RubySig.Proofs.TypeExpr.Spelled

/-!
# Types as they are printed

The mark of an optional behind a symbol is printed like the mark of the symbol, so the printer makes
one text of two types.  Every type has a normal form in which such marks belong to the symbols.

* `TypeExpr.takesMark`: optionals whose mark the symbol in front of it takes.
* `TypeExpr.glued`: the normal form.
* `TypeExpr.PrintsAs`: two types with one text.
* `TypeExpr.render_glued`, `TypeExpr.render_withoutSpans`: what the printer does not tell.
* `TypeExpr.Spelled.glued`: the normal form can be written in the same scope.
* `TypeExpr.NoMarkedKey`: types without records that have a key with a mark.
-/

namespace RubySig

namespace TypeExpr

/-! ## Marks behind symbols -/

/-- An optional of a symbol that has no mark of its own. -/
def takesMark : TypeExpr → Bool
  | .optional (.literal (.symbol name)) => !isMarked name
  | _ => false

/-- A symbol takes the mark behind it. -/
def glueNode : TypeExpr → TypeExpr
  | .optional (.literal (.symbol name)) =>
    if isMarked name then .optional (.literal (.symbol name))
    else .literal (.symbol (name ++ String.singleton '?'))
  | type => type

/-- A type whose symbols have taken the marks behind them. -/
def glued (type : TypeExpr) : TypeExpr := type.map glueNode

theorem glued_eq (t : TypeExpr) : t.glued = glueNode (t.mapChildren glued) := t.map_eq _

theorem exists_of_takesMark {t : TypeExpr} (h : t.takesMark = true) :
    ∃ name, t = .optional (.literal (.symbol name)) ∧ isMarked name = false ∧
      glueNode t = .literal (.symbol (name ++ String.singleton '?')) := by
  unfold takesMark at h
  split at h
  · rename_i name
    have hplain : isMarked name = false := by simpa using h
    exact ⟨name, rfl, hplain, if_neg (by simp [hplain])⟩
  · cases h

theorem glueNode_of_not_takesMark {t : TypeExpr} (h : t.takesMark = false) : glueNode t = t := by
  unfold glueNode
  split
  · rename_i name
    have hmarked : isMarked name = true := by simpa [takesMark] using h
    exact if_pos hmarked
  · rfl

/-- Types without such optionals are in normal form. -/
theorem glued_eq_self {t : TypeExpr} (h : ∀ u ∈ t.nodes, u.takesMark = false) : t.glued = t := by
  induction t using inductionOnChildren with
  | step t ih =>
    obtain ⟨ht, hchildren⟩ := t.forall_nodes_iff.1 h
    have hsame : t.mapChildren glued = t := by
      rw [mapChildren_congr fun c hc => ih c hc (hchildren c hc), mapChildren_id]
    rw [glued_eq, hsame, glueNode_of_not_takesMark ht]

theorem takesMark_glueNode (t : TypeExpr) : (glueNode t).takesMark = false := by
  cases h : t.takesMark with
  | true =>
    obtain ⟨name, -, -, hglued⟩ := exists_of_takesMark h
    rw [hglued]
    rfl
  | false => rw [glueNode_of_not_takesMark h, h]

/-- What holds of every part of a type holds of every part of its normal form. -/
theorem forall_nodes_glueNode {holds : TypeExpr → Prop} {t : TypeExpr} (h : holds (glueNode t))
    (hchildren : ∀ c ∈ t.children, ∀ u ∈ c.nodes, holds u) : ∀ u ∈ (glueNode t).nodes, holds u := by
  refine (glueNode t).forall_nodes_iff.2 ⟨h, ?_⟩
  cases hmark : t.takesMark with
  | true =>
    obtain ⟨name, -, -, hglued⟩ := exists_of_takesMark hmark
    rw [hglued]
    exact fun c hc => absurd hc List.not_mem_nil
  | false =>
    rw [glueNode_of_not_takesMark hmark]
    exact hchildren

theorem takesMark_of_mem_glued (t : TypeExpr) : ∀ u ∈ t.glued.nodes, u.takesMark = false := by
  induction t using inductionOnChildren with
  | step t ih =>
    rw [glued_eq]
    refine forall_nodes_glueNode (takesMark_glueNode _) ?_
    rw [children_mapChildren]
    exact List.forall_mem_map.2 ih

/-! ## Types with one text -/

/-- Two types are printed alike, also as operands. -/
structure PrintsAs (t u : TypeExpr) : Prop where
  render : t.render = u.render
  needsParens : ∀ operator, t.needsParens operator = u.needsParens operator

theorem PrintsAs.trans {t u v : TypeExpr} (h : t.PrintsAs u) (h' : u.PrintsAs v) : t.PrintsAs v :=
  ⟨h.render.trans h'.render,
    fun operator => (h.needsParens operator).trans (h'.needsParens operator)⟩

theorem PrintsAs.operandText {t u : TypeExpr} (h : t.PrintsAs u) (operator : OperandOf) :
    t.operandText operator = u.operandText operator := by
  rw [TypeExpr.operandText, TypeExpr.operandText, h.render, h.needsParens]

section Children

variable {g : TypeExpr → TypeExpr}

theorem map_render {types : List TypeExpr} (h : ∀ t ∈ types, (g t).PrintsAs t) :
    (types.map g).map TypeExpr.render = types.map TypeExpr.render := by
  rw [List.map_map]
  exact List.map_congr_left fun t ht => (h t ht).render

theorem map_operandText {types : List TypeExpr} (h : ∀ t ∈ types, (g t).PrintsAs t)
    (operator : OperandOf) :
    (types.map g).map (TypeExpr.operandText operator) =
      types.map (TypeExpr.operandText operator) := by
  rw [List.map_map]
  exact List.map_congr_left fun t ht => (h t ht).operandText operator

theorem renderParams_mapTypes {f : FunctionType} (h : ∀ t ∈ f.types, (g t).PrintsAs t) :
    (f.mapTypes g).renderParams = f.renderParams := by
  have htexts : (f.mapTypes g).params.map Param.text = f.params.map Param.text := by
    rw [FunctionType.mapTypes, List.map_map]
    refine List.map_congr_left fun p hp => ?_
    have hp : (g p.type).PrintsAs p.type :=
      h p.type (List.mem_append_left _ (List.mem_map_of_mem hp))
    show p.slot.render ++ ((g p.type).render ++ _) = p.slot.render ++ (p.type.render ++ _)
    rw [hp.render]
  rw [FunctionType.renderParams_eq, FunctionType.renderParams_eq, htexts]

theorem printsAs_returnType {f : FunctionType} (h : ∀ t ∈ f.types, (g t).PrintsAs t) :
    (f.mapTypes g).returnType.PrintsAs f.returnType :=
  h f.returnType (List.mem_append_right _ (List.mem_singleton_self _))

theorem renderBlock_map {block : Option Block} (h : ∀ t ∈ blockTypes block, (g t).PrintsAs t) :
    renderBlock (block.map (·.mapTypes g)) = renderBlock block := by
  cases block with
  | none => rfl
  | some b =>
    rw [Option.map_some, renderBlock_some, renderBlock_some, Block.mapTypes,
      renderParams_mapTypes h, (printsAs_returnType h).render]

/-- A type whose children are replaced by types that are printed like them. -/
theorem printsAs_mapChildren {t : TypeExpr} (h : ∀ c ∈ t.children, (g c).PrintsAs c) :
    (t.mapChildren g).PrintsAs t := by
  refine ⟨?_, fun operator => by cases t <;> rfl⟩
  cases t with
  | named target =>
    by_cases hnone : target.args = []
    · have hmapped : target.args.map g = [] := by rw [hnone, List.map_nil]
      rw [mapChildren, render, render, NamedType.render_bare hnone, NamedType.render_bare hmapped]
    · have hmapped : target.args.map g ≠ [] := fun hnil => hnone (List.map_eq_nil_iff.1 hnil)
      have htexts : (target.args.map g).map TypeExpr.render = target.args.map TypeExpr.render :=
        map_render h
      rw [mapChildren, render, render, NamedType.render_args hnone, NamedType.render_args hmapped,
        htexts]
  | union types =>
    have htexts : (types.map g).map (TypeExpr.operandText .union) =
        types.map (TypeExpr.operandText .union) := map_operandText h .union
    rw [mapChildren, render, render, renderOperands_eq, renderOperands_eq, htexts]
  | intersection types =>
    have htexts : (types.map g).map (TypeExpr.operandText .intersection) =
        types.map (TypeExpr.operandText .intersection) := map_operandText h .intersection
    rw [mapChildren, render, render, renderOperands_eq, renderOperands_eq, htexts]
  | optional inner =>
    have hinner : (g inner).PrintsAs inner := h inner (List.mem_singleton_self _)
    rw [mapChildren, render, render, hinner.render, hinner.needsParens]
  | tuple types =>
    by_cases hnone : types = []
    · rw [hnone]
      rfl
    · have hmapped : types.map g ≠ [] := fun hnil => hnone (List.map_eq_nil_iff.1 hnil)
      have htexts : (types.map g).map TypeExpr.render = types.map TypeExpr.render :=
        map_render h
      rw [mapChildren, render_tuple hnone, render_tuple hmapped, htexts]
  | record fields =>
    have htexts : (fields.map fun f => (⟨f.key, g f.type⟩ : RecordField)).map RecordField.render =
        fields.map RecordField.render := by
      rw [List.map_map]
      refine List.map_congr_left fun f hf => ?_
      have hf : (g f.type).PrintsAs f.type := h f.type (List.mem_map_of_mem hf)
      obtain ⟨key, t⟩ := f
      show RecordField.render ⟨key, g t⟩ = RecordField.render ⟨key, t⟩
      rw [RecordField.render, RecordField.render, hf.render]
    by_cases hnone : fields = []
    · rw [hnone]
      rfl
    · have hmapped : (fields.map fun f => (⟨f.key, g f.type⟩ : RecordField)) ≠ [] :=
        fun hnil => hnone (List.map_eq_nil_iff.1 hnil)
      rw [mapChildren, render_record hnone, render_record hmapped, htexts]
  | proc function block =>
    obtain ⟨hfunction, hblock⟩ := List.forall_mem_append.1 h
    rw [mapChildren, render_proc, render_proc, renderParams_mapTypes hfunction,
      renderBlock_map hblock, FunctionType.renderArrow_eq, FunctionType.renderArrow_eq,
      (printsAs_returnType hfunction).operandText]
  | singleton _ | var _ | literal _ | special _ => rfl

end Children

/-- Replacing every node by one that is printed like it does not change the text. -/
theorem printsAs_map {f : TypeExpr → TypeExpr} (hf : ∀ u, (f u).PrintsAs u) (t : TypeExpr) :
    (t.map f).PrintsAs t := by
  induction t using inductionOnChildren with
  | step t ih =>
    rw [map_eq]
    exact (hf _).trans (printsAs_mapChildren ih)

theorem printsAs_glueNode (t : TypeExpr) : (glueNode t).PrintsAs t := by
  cases h : t.takesMark with
  | true =>
    obtain ⟨name, rfl, -, hglued⟩ := exists_of_takesMark h
    rw [hglued]
    refine ⟨?_, fun _ => rfl⟩
    have hparens : (TypeExpr.literal (.symbol name)).needsParens .optional = false := rfl
    rw [render, render, render, Literal.render, Literal.render, hparens, parenthesized,
      if_neg Bool.false_ne_true, String.append_assoc]
    rfl
  | false =>
    rw [glueNode_of_not_takesMark h]
    exact ⟨rfl, fun _ => rfl⟩

theorem render_glued (t : TypeExpr) : t.glued.render = t.render :=
  (printsAs_map printsAs_glueNode t).render

theorem printsAs_dropSpan (t : TypeExpr) : t.dropSpan.PrintsAs t := by
  cases t with
  | named target =>
    obtain ⟨name, args, span⟩ := target
    refine ⟨?_, fun _ => rfl⟩
    rw [dropSpan, render, render]
    cases args <;> rw [NamedType.render, NamedType.render]
  | _ => exact ⟨rfl, fun _ => rfl⟩

theorem render_withoutSpans (t : TypeExpr) : t.withoutSpans.render = t.render :=
  (printsAs_map printsAs_dropSpan t).render

/-! ## Normal forms can be written -/

theorem spelledParams_mapTypes {g : TypeExpr → TypeExpr} {f : FunctionType}
    (h : SpelledParams f.params) : SpelledParams (f.mapTypes g).params := by
  have hparam : ∀ p ∈ (f.mapTypes g).params, ∃ q ∈ f.params, p.slot = q.slot ∧ p.name = q.name := by
    intro p hp
    obtain ⟨q, hq, rfl⟩ := List.mem_map.1 hp
    exact ⟨q, hq, rfl, rfl⟩
  refine ⟨⟨List.pairwise_map.2 h.settled.ordered, fun p hp hslot => ?_⟩, fun p hp => ?_⟩
  · obtain ⟨q, hq, hsame, -⟩ := hparam p hp
    obtain ⟨r, hr, hopen⟩ := h.settled.opened q hq (hsame ▸ hslot)
    exact ⟨_, List.mem_map_of_mem hr, hopen⟩
  · obtain ⟨q, hq, hslot, hname⟩ := hparam p hp
    exact ⟨hslot ▸ (h.each q hq).slot, hname ▸ (h.each q hq).name⟩

/-- Whether a node can be written does not depend on its children. -/
theorem SpelledAt.mapChildren {vars : List String} {g : TypeExpr → TypeExpr} {t : TypeExpr}
    (h : t.SpelledAt vars) : (t.mapChildren g).SpelledAt vars := by
  cases t with
  | union types | intersection types =>
    show 2 ≤ (types.map g).length
    rw [List.length_map]
    exact h
  | record fields => exact List.forall_mem_map.2 h
  | proc function block =>
    refine ⟨spelledParams_mapTypes h.1, fun b hb => ?_⟩
    obtain ⟨b', hb', rfl⟩ := Option.map_eq_some_iff.1 hb
    exact spelledParams_mapTypes (h.2 b' hb')
  | named _ | singleton _ | var _ | optional _ | tuple _ | literal _ | special _ => exact h

/-- The normal form of a type can be written where the type can be written. -/
theorem Spelled.glued {vars : List String} {t : TypeExpr} (h : t.Spelled vars) :
    t.glued.Spelled vars := by
  induction t using inductionOnChildren with
  | step t ih =>
    obtain ⟨ht, hchildren⟩ := (spelled_iff t).1 h
    have hmapped : ∀ c ∈ (t.mapChildren TypeExpr.glued).children, c.Spelled vars := by
      rw [children_mapChildren]
      exact List.forall_mem_map.2 fun c hc => ih c hc (hchildren c hc)
    rw [glued_eq]
    refine forall_nodes_glueNode ?_ hmapped
    cases hmark : (t.mapChildren TypeExpr.glued).takesMark with
    | true =>
      obtain ⟨name, heq, hplain, hglued⟩ := exists_of_takesMark hmark
      rw [heq] at hmapped
      rw [hglued]
      exact spells_append_mark ((spelled_iff _).1 (hmapped _ (List.mem_singleton_self _))).1 hplain
        rfl
    | false =>
      rw [glueNode_of_not_takesMark hmark]
      exact ht.mapChildren

/-! ## Marked keys -/

/-- A record with a key that is the name of a symbol with a mark. -/
def hasMarkedKey : TypeExpr → Bool
  | .record fields => fields.any (·.key.isMarked)
  | _ => false

theorem hasMarkedKey_mapChildren (g : TypeExpr → TypeExpr) (t : TypeExpr) :
    (t.mapChildren g).hasMarkedKey = t.hasMarkedKey := by
  cases t with
  | record fields => exact List.any_map
  | _ => rfl

theorem hasMarkedKey_glueNode (t : TypeExpr) : (glueNode t).hasMarkedKey = t.hasMarkedKey := by
  cases h : t.takesMark with
  | true =>
    obtain ⟨name, rfl, -, hglued⟩ := exists_of_takesMark h
    rw [hglued]
    rfl
  | false => rw [glueNode_of_not_takesMark h]

/-- The types whose text means something else. -/
theorem isGarbled_eq (t : TypeExpr) : t.isGarbled = (t.takesMark || t.hasMarkedKey) := by
  cases t with
  | optional inner =>
    cases inner with
    | literal value => cases value <;> simp [isGarbled, takesMark, hasMarkedKey]
    | _ => rfl
  | _ => rfl

/-- A type without such records in it. -/
def NoMarkedKey (t : TypeExpr) : Prop := ∀ u ∈ t.nodes, u.hasMarkedKey = false

theorem noMarkedKey_iff (t : TypeExpr) :
    t.NoMarkedKey ↔ t.hasMarkedKey = false ∧ ∀ c ∈ t.children, c.NoMarkedKey :=
  t.forall_nodes_iff

/-- Nodes that keep their keys and their children keep the keys in a type. -/
theorem noMarkedKey_map_iff {f : TypeExpr → TypeExpr}
    (hkeys : ∀ u, (f u).hasMarkedKey = u.hasMarkedKey)
    (hchildren : ∀ u, (∀ c ∈ (f u).children, c.NoMarkedKey) ↔ ∀ c ∈ u.children, c.NoMarkedKey)
    (t : TypeExpr) : (t.map f).NoMarkedKey ↔ t.NoMarkedKey := by
  induction t using inductionOnChildren with
  | step t ih =>
    rw [map_eq, noMarkedKey_iff, noMarkedKey_iff t, hkeys, hasMarkedKey_mapChildren, hchildren,
      children_mapChildren, List.forall_mem_map]
    exact and_congr_right' (forall₂_congr ih)

theorem noMarkedKey_glued_iff (t : TypeExpr) : t.glued.NoMarkedKey ↔ t.NoMarkedKey := by
  refine noMarkedKey_map_iff hasMarkedKey_glueNode (fun u => ?_) t
  cases h : u.takesMark with
  | true =>
    obtain ⟨name, rfl, -, hglued⟩ := exists_of_takesMark h
    have hsymbol : (TypeExpr.literal (.symbol name)).NoMarkedKey := by
      rw [noMarkedKey_iff]
      exact ⟨rfl, nofun⟩
    rw [hglued]
    exact ⟨fun _ => List.forall_mem_singleton.2 hsymbol, fun _ => nofun⟩
  | false => rw [glueNode_of_not_takesMark h]

theorem noMarkedKey_withoutSpans_iff (t : TypeExpr) :
    t.withoutSpans.NoMarkedKey ↔ t.NoMarkedKey :=
  noMarkedKey_map_iff (fun u => by cases u <;> rfl) (fun u => by cases u <;> exact Iff.rfl) t

end TypeExpr

end RubySig
