import Mathlib.Data.List.Basic
import RubySig.TypeExpr.Traversal

/-!
# Types as trees of children

A type has children: the types written directly inside it, in order.  The traversals of
`RubySig.TypeExpr.Traversal` recurse through eleven constructors and seven kinds of lists;
here each of them becomes one equation on the children, and one induction serves them all.

* `TypeExpr.children`, `TypeExpr.mapChildren`: the children, and a type with other children.
* `TypeExpr.inductionOnChildren`: what holds of a type if it holds of its children holds of
  every type.
* `TypeExpr.map_eq`, `TypeExpr.nodes_eq`, `TypeExpr.references_eq`: the traversals by children.
* `MethodType.types`: the types of an overload, with the same equations.
-/

namespace RubySig

/-! ## Children -/

/-- The types of the parameters and the return type. -/
def FunctionType.types (f : FunctionType) : List TypeExpr := f.params.map (·.type) ++ [f.returnType]

/-- The types in a block, if there is one. -/
def blockTypes (block : Option Block) : List TypeExpr :=
  (block.map fun b => b.function.types).getD []

/-- The types written directly inside a type, in order. -/
def TypeExpr.children : TypeExpr → List TypeExpr
  | .named target => target.args
  | .union types | .intersection types | .tuple types => types
  | .optional inner => [inner]
  | .record fields => fields.map (·.type)
  | .proc function block => function.types ++ blockTypes block
  | .singleton _ | .var _ | .literal _ | .special _ => []

/-- Replaces the types of the parameters and the return type. -/
def FunctionType.mapTypes (g : TypeExpr → TypeExpr) (f : FunctionType) : FunctionType :=
  ⟨f.params.map fun p => ⟨p.slot, g p.type, p.name⟩, g f.returnType⟩

/-- Replaces the types in a block. -/
def Block.mapTypes (g : TypeExpr → TypeExpr) (b : Block) : Block :=
  ⟨b.required, b.function.mapTypes g⟩

/-- Replaces the children of a type. -/
def TypeExpr.mapChildren (g : TypeExpr → TypeExpr) : TypeExpr → TypeExpr
  | .named target => .named ⟨target.name, target.args.map g, target.span⟩
  | .singleton target => .singleton target
  | .var name => .var name
  | .union types => .union (types.map g)
  | .intersection types => .intersection (types.map g)
  | .optional inner => .optional (g inner)
  | .tuple types => .tuple (types.map g)
  | .record fields => .record (fields.map fun f => ⟨f.key, g f.type⟩)
  | .proc function block => .proc (function.mapTypes g) (block.map (·.mapTypes g))
  | .literal value => .literal value
  | .special type => .special type

@[simp] theorem FunctionType.types_mapTypes (g : TypeExpr → TypeExpr) (f : FunctionType) :
    (f.mapTypes g).types = f.types.map g := by
  simp [FunctionType.types, FunctionType.mapTypes, Function.comp_def]

@[simp] theorem blockTypes_map (g : TypeExpr → TypeExpr) (block : Option Block) :
    blockTypes (block.map (·.mapTypes g)) = (blockTypes block).map g := by
  cases block <;> simp [blockTypes, Block.mapTypes]

@[simp] theorem TypeExpr.children_mapChildren (g : TypeExpr → TypeExpr) (t : TypeExpr) :
    (t.mapChildren g).children = t.children.map g := by
  cases t <;> simp [TypeExpr.mapChildren, TypeExpr.children, Function.comp_def]

theorem FunctionType.mapTypes_congr {g g' : TypeExpr → TypeExpr} {f : FunctionType}
    (h : ∀ t ∈ f.types, g t = g' t) : f.mapTypes g = f.mapTypes g' := by
  simp only [FunctionType.types, List.mem_append, List.mem_map, List.mem_singleton] at h
  rw [FunctionType.mapTypes, FunctionType.mapTypes, h f.returnType (Or.inr rfl)]
  refine congrArg (FunctionType.mk · _) (List.map_congr_left fun p hp => ?_)
  rw [h p.type (Or.inl ⟨p, hp, rfl⟩)]

theorem FunctionType.mapTypes_id (f : FunctionType) : f.mapTypes (fun t => t) = f := by
  obtain ⟨params, returnType⟩ := f
  refine congrArg (FunctionType.mk · _) (List.map_id'' (fun p => ?_) params)
  cases p; rfl

theorem mapBlock_congr {g g' : TypeExpr → TypeExpr} {block : Option Block}
    (h : ∀ t ∈ blockTypes block, g t = g' t) :
    block.map (·.mapTypes g) = block.map (·.mapTypes g') := by
  cases block with
  | none => rfl
  | some b => exact congrArg (fun f => some (Block.mk b.required f)) (FunctionType.mapTypes_congr h)

theorem mapBlock_id (block : Option Block) : block.map (·.mapTypes fun t => t) = block := by
  cases block with
  | none => rfl
  | some b =>
    obtain ⟨required, function⟩ := b
    exact congrArg (fun f => some (Block.mk required f)) function.mapTypes_id

/-! ## Induction -/

theorem FunctionType.sizeOf_lt_of_mem_types {f : FunctionType} {t : TypeExpr}
    (h : t ∈ f.types) : sizeOf t < sizeOf f := by
  obtain ⟨params, returnType⟩ := f
  simp only [FunctionType.types, List.mem_append, List.mem_map, List.mem_singleton] at h
  rcases h with ⟨p, hp, rfl⟩ | rfl
  · have hlt := List.sizeOf_lt_of_mem hp
    obtain ⟨slot, type, name⟩ := p
    simp only [FunctionType.mk.sizeOf_spec, Param.mk.sizeOf_spec] at hlt ⊢
    omega
  · simp only [FunctionType.mk.sizeOf_spec]
    omega

theorem sizeOf_lt_of_mem_blockTypes {block : Option Block} {t : TypeExpr}
    (h : t ∈ blockTypes block) : sizeOf t < sizeOf block := by
  cases block with
  | none => simp [blockTypes] at h
  | some b =>
    obtain ⟨required, function⟩ := b
    have hlt := FunctionType.sizeOf_lt_of_mem_types (f := function) h
    simp only [Option.some.sizeOf_spec, Block.mk.sizeOf_spec]
    omega

namespace TypeExpr

theorem sizeOf_lt_of_mem_children {t c : TypeExpr} (h : c ∈ t.children) :
    sizeOf c < sizeOf t := by
  cases t with
  | named target =>
    obtain ⟨name, args, span⟩ := target
    have hlt : sizeOf c < sizeOf args := List.sizeOf_lt_of_mem h
    simp only [named.sizeOf_spec, NamedType.mk.sizeOf_spec]
    omega
  | union types | intersection types | tuple types =>
    have hlt : sizeOf c < sizeOf types := List.sizeOf_lt_of_mem h
    simp only [union.sizeOf_spec, intersection.sizeOf_spec, tuple.sizeOf_spec]
    omega
  | optional inner =>
    rw [List.mem_singleton.1 h, optional.sizeOf_spec]
    omega
  | record fields =>
    obtain ⟨f, hf, rfl⟩ := List.mem_map.1 h
    have hlt := List.sizeOf_lt_of_mem hf
    obtain ⟨key, type⟩ := f
    simp only [record.sizeOf_spec, RecordField.mk.sizeOf_spec] at hlt ⊢
    omega
  | proc function block =>
    simp only [proc.sizeOf_spec]
    rcases List.mem_append.1 h with h | h
    · have hlt := FunctionType.sizeOf_lt_of_mem_types h
      omega
    · have hlt := sizeOf_lt_of_mem_blockTypes h
      omega
  | singleton _ | var _ | literal _ | special _ => simp [children] at h

/-- What holds of a type whenever it holds of its children holds of every type. -/
@[elab_as_elim]
theorem inductionOnChildren {motive : TypeExpr → Prop}
    (step : ∀ t, (∀ c ∈ t.children, motive c) → motive t) (t : TypeExpr) : motive t :=
  step t fun c hc =>
    have := sizeOf_lt_of_mem_children hc
    inductionOnChildren step c
  termination_by sizeOf t

theorem mapChildren_congr {g g' : TypeExpr → TypeExpr} {t : TypeExpr}
    (h : ∀ c ∈ t.children, g c = g' c) : t.mapChildren g = t.mapChildren g' := by
  cases t with
  | named target => exact congrArg (fun args => named ⟨_, args, _⟩) (List.map_congr_left h)
  | union types => exact congrArg union (List.map_congr_left h)
  | intersection types => exact congrArg intersection (List.map_congr_left h)
  | tuple types => exact congrArg tuple (List.map_congr_left h)
  | optional inner => exact congrArg optional (h inner (List.mem_singleton_self _))
  | record fields =>
    refine congrArg record (List.map_congr_left fun f hf => ?_)
    rw [h f.type (List.mem_map_of_mem hf)]
  | proc function block =>
    simp only [children, List.mem_append] at h
    rw [mapChildren, mapChildren, FunctionType.mapTypes_congr fun c hc => h c (Or.inl hc),
      mapBlock_congr fun c hc => h c (Or.inr hc)]
  | singleton _ | var _ | literal _ | special _ => rfl

@[simp] theorem mapChildren_id (t : TypeExpr) : t.mapChildren (fun c => c) = t := by
  cases t with
  | named target => cases target; simp [mapChildren]
  | record fields =>
    refine congrArg record (List.map_id'' (fun f => ?_) fields)
    cases f; rfl
  | proc function block => rw [mapChildren, FunctionType.mapTypes_id, mapBlock_id]
  | _ => simp [mapChildren]

end TypeExpr

/-! ## Rebuilding by children -/

theorem mapTypesM_id (f : TypeExpr → TypeExpr) (types : List TypeExpr) :
    mapTypesM (m := Id) f types = types.map (TypeExpr.map f) := by
  induction types with
  | nil => rfl
  | cons t rest ih => rw [mapTypesM, ih]; rfl

theorem mapFieldsM_id (f : TypeExpr → TypeExpr) (fields : List RecordField) :
    mapFieldsM (m := Id) f fields = fields.map fun r => ⟨r.key, r.type.map f⟩ := by
  induction fields with
  | nil => rfl
  | cons r rest ih => obtain ⟨key, type⟩ := r; rw [mapFieldsM, ih]; rfl

theorem mapParamsM_id (f : TypeExpr → TypeExpr) (params : List Param) :
    mapParamsM (m := Id) f params = params.map fun p => ⟨p.slot, p.type.map f, p.name⟩ := by
  induction params with
  | nil => rfl
  | cons p rest ih => obtain ⟨slot, type, name⟩ := p; rw [mapParamsM, ih]; rfl

theorem FunctionType.mapM_id (f : TypeExpr → TypeExpr) (function : FunctionType) :
    function.mapM (m := Id) f = function.mapTypes (TypeExpr.map f) := by
  obtain ⟨params, returnType⟩ := function
  rw [FunctionType.mapM, mapParamsM_id]
  rfl

theorem mapBlockM_id (f : TypeExpr → TypeExpr) (block : Option Block) :
    mapBlockM (m := Id) f block = block.map (·.mapTypes (TypeExpr.map f)) := by
  cases block with
  | none => rfl
  | some b => obtain ⟨required, function⟩ := b; rw [mapBlockM, FunctionType.mapM_id]; rfl

/-- A type is rebuilt from its rebuilt children and then handed over. -/
theorem TypeExpr.map_eq (f : TypeExpr → TypeExpr) (t : TypeExpr) :
    t.map f = f (t.mapChildren (TypeExpr.map f)) := by
  cases t with
  | named target =>
    obtain ⟨name, args, span⟩ := target
    rw [TypeExpr.map, TypeExpr.mapM, NamedType.mapArgsM, mapTypesM_id]; rfl
  | union types | intersection types | tuple types =>
    rw [TypeExpr.map, TypeExpr.mapM, mapTypesM_id]; rfl
  | record fields => rw [TypeExpr.map, TypeExpr.mapM, mapFieldsM_id]; rfl
  | proc function block =>
    rw [TypeExpr.map, TypeExpr.mapM, FunctionType.mapM_id, mapBlockM_id]; rfl
  | optional _ | singleton _ | var _ | literal _ | special _ => rfl

/-- A function that changes no node leaves the whole type as it is. -/
theorem TypeExpr.map_eq_self {f : TypeExpr → TypeExpr} (hf : ∀ t, f t = t) (t : TypeExpr) :
    t.map f = t := by
  induction t using TypeExpr.inductionOnChildren with
  | step t ih => rw [TypeExpr.map_eq, hf, TypeExpr.mapChildren_congr ih, TypeExpr.mapChildren_id]

/-! ## Nodes and references by children -/

theorem nodesOfTypes_eq (types : List TypeExpr) :
    nodesOfTypes types = types.flatMap TypeExpr.nodes := by
  induction types with
  | nil => rfl
  | cons t rest ih => rw [nodesOfTypes, ih, List.flatMap_cons]

theorem nodesOfFields_eq (fields : List RecordField) :
    nodesOfFields fields = (fields.map (·.type)).flatMap TypeExpr.nodes := by
  induction fields with
  | nil => rfl
  | cons r rest ih => obtain ⟨key, type⟩ := r; rw [nodesOfFields, ih]; rfl

theorem nodesOfParams_eq (params : List Param) :
    nodesOfParams params = (params.map (·.type)).flatMap TypeExpr.nodes := by
  induction params with
  | nil => rfl
  | cons p rest ih => obtain ⟨slot, type, name⟩ := p; rw [nodesOfParams, ih]; rfl

theorem FunctionType.nodes_eq (f : FunctionType) : f.nodes = f.types.flatMap TypeExpr.nodes := by
  obtain ⟨params, returnType⟩ := f
  rw [FunctionType.nodes, nodesOfParams_eq, FunctionType.types]
  simp

theorem nodesOfBlock_eq (block : Option Block) :
    nodesOfBlock block = (blockTypes block).flatMap TypeExpr.nodes := by
  cases block with
  | none => rfl
  | some b => obtain ⟨required, function⟩ := b; exact function.nodes_eq

/-- The nodes of a type are the type itself and the nodes of its children. -/
theorem TypeExpr.nodes_eq (t : TypeExpr) : t.nodes = t :: t.children.flatMap TypeExpr.nodes := by
  cases t with
  | named target =>
    obtain ⟨name, args, span⟩ := target
    rw [TypeExpr.nodes, NamedType.argNodes, nodesOfTypes_eq]; rfl
  | union types | intersection types | tuple types => rw [TypeExpr.nodes, nodesOfTypes_eq]; rfl
  | optional inner => rw [TypeExpr.nodes]; simp [TypeExpr.children]
  | record fields => rw [TypeExpr.nodes, nodesOfFields_eq]; rfl
  | proc function block =>
    rw [TypeExpr.nodes, function.nodes_eq, nodesOfBlock_eq, ← List.flatMap_append]; rfl
  | singleton _ | var _ | literal _ | special _ => rfl

/-- What a node itself refers to, apart from its children. -/
def TypeExpr.reference? : TypeExpr → Option Reference
  | .named target => some (.named target)
  | .singleton target => some (.singleton target)
  | _ => none

theorem referencesOfTypes_eq (types : List TypeExpr) :
    referencesOfTypes types = types.flatMap TypeExpr.references := by
  induction types with
  | nil => rfl
  | cons t rest ih => rw [referencesOfTypes, ih, List.flatMap_cons]

theorem referencesOfFields_eq (fields : List RecordField) :
    referencesOfFields fields = (fields.map (·.type)).flatMap TypeExpr.references := by
  induction fields with
  | nil => rfl
  | cons r rest ih => obtain ⟨key, type⟩ := r; rw [referencesOfFields, ih]; rfl

theorem referencesOfParams_eq (params : List Param) :
    referencesOfParams params = (params.map (·.type)).flatMap TypeExpr.references := by
  induction params with
  | nil => rfl
  | cons p rest ih => obtain ⟨slot, type, name⟩ := p; rw [referencesOfParams, ih]; rfl

theorem FunctionType.references_eq (f : FunctionType) :
    f.references = f.types.flatMap TypeExpr.references := by
  obtain ⟨params, returnType⟩ := f
  rw [FunctionType.references, referencesOfParams_eq, FunctionType.types]
  simp

theorem referencesOfBlock_eq (block : Option Block) :
    referencesOfBlock block = (blockTypes block).flatMap TypeExpr.references := by
  cases block with
  | none => rfl
  | some b => obtain ⟨required, function⟩ := b; exact function.references_eq

theorem TypeExpr.references_eq (t : TypeExpr) :
    t.references = t.reference?.toList ++ t.children.flatMap TypeExpr.references := by
  cases t with
  | named target =>
    obtain ⟨name, args, span⟩ := target
    rw [TypeExpr.references, NamedType.argReferences, referencesOfTypes_eq]; rfl
  | union types | intersection types | tuple types =>
    rw [TypeExpr.references, referencesOfTypes_eq]; rfl
  | optional inner => rw [TypeExpr.references]; simp [TypeExpr.children, TypeExpr.reference?]
  | record fields => rw [TypeExpr.references, referencesOfFields_eq]; rfl
  | proc function block =>
    rw [TypeExpr.references, function.references_eq, referencesOfBlock_eq, ← List.flatMap_append]
    rfl
  | singleton _ | var _ | literal _ | special _ => rfl

/-- The references of a type are those of its nodes, in the order of the nodes. -/
theorem TypeExpr.references_eq_filterMap_nodes (t : TypeExpr) :
    t.references = t.nodes.filterMap TypeExpr.reference? := by
  induction t using TypeExpr.inductionOnChildren with
  | step t ih =>
    rw [TypeExpr.references_eq, TypeExpr.nodes_eq, List.filterMap_cons, List.filterMap_flatMap,
      List.flatMap_congr ih]
    cases t.reference? <;> rfl

/-! ## Overloads -/

theorem nodesOfTypeParams_eq (params : List TypeParam) :
    nodesOfTypeParams params = (params.filterMap (·.upperBound)).flatMap TypeExpr.nodes := by
  induction params with
  | nil => rfl
  | cons p rest ih =>
    rw [nodesOfTypeParams, List.flatMap_cons, ← nodesOfTypeParams, ih]
    cases h : p.upperBound <;> simp [h]

theorem referencesOfTypeParams_eq (params : List TypeParam) :
    referencesOfTypeParams params =
      (params.filterMap (·.upperBound)).flatMap TypeExpr.references := by
  induction params with
  | nil => rfl
  | cons p rest ih =>
    rw [referencesOfTypeParams, List.flatMap_cons, ← referencesOfTypeParams, ih]
    cases h : p.upperBound <;> simp [h]

namespace MethodType

/-- The types written directly in an overload: bounds, parameters, return type, block. -/
def types (m : MethodType) : List TypeExpr :=
  m.typeParams.filterMap (·.upperBound) ++ m.function.types ++ blockTypes m.block

theorem nodes_eq (m : MethodType) : m.nodes = m.types.flatMap TypeExpr.nodes := by
  rw [MethodType.nodes, nodesOfTypeParams_eq, m.function.nodes_eq, nodesOfBlock_eq, types,
    List.flatMap_append, List.flatMap_append]

theorem references_eq (m : MethodType) : m.references = m.types.flatMap TypeExpr.references := by
  rw [MethodType.references, referencesOfTypeParams_eq, m.function.references_eq,
    referencesOfBlock_eq, types, List.flatMap_append, List.flatMap_append]

theorem map_eq (f : TypeExpr → TypeExpr) (m : MethodType) :
    m.map f =
      ⟨m.typeParams.map fun p => { p with upperBound := p.upperBound.map (TypeExpr.map f) },
        m.function.mapTypes (TypeExpr.map f), m.block.map (·.mapTypes (TypeExpr.map f)),
        m.span⟩ := by
  have hparams : ∀ params : List TypeParam, mapTypeParamsM (m := Id) f params =
      params.map fun p => { p with upperBound := p.upperBound.map (TypeExpr.map f) } := by
    intro params
    induction params with
    | nil => rfl
    | cons p rest ih =>
      obtain ⟨name, variance, unchecked, bound, span⟩ := p
      rw [mapTypeParamsM, ih]
      cases bound <;> rfl
  rw [MethodType.map, MethodType.mapM, hparams, FunctionType.mapM_id, mapBlockM_id]
  rfl

theorem map_eq_self {f : TypeExpr → TypeExpr} (hf : ∀ t, f t = t) (m : MethodType) :
    m.map f = m := by
  have hmap : TypeExpr.map f = fun t => t := funext (TypeExpr.map_eq_self hf)
  obtain ⟨typeParams, function, block, span⟩ := m
  rw [map_eq, hmap, FunctionType.mapTypes_id, mapBlock_id]
  simp

/-- The types of a rebuilt overload are the rebuilt types. -/
@[simp] theorem types_map (f : TypeExpr → TypeExpr) (m : MethodType) :
    (m.map f).types = m.types.map (TypeExpr.map f) := by
  rw [map_eq]
  simp [types, List.filterMap_map, List.map_filterMap]

/-- An overload keeps its own type parameters when it is rebuilt. -/
@[simp] theorem typeParamNames_map (f : TypeExpr → TypeExpr) (m : MethodType) :
    typeParamNames (m.map f).typeParams = typeParamNames m.typeParams := by
  rw [map_eq]
  simp [typeParamNames, Function.comp_def]

end MethodType

end RubySig
