import Mathlib.Order.MinMax
import RubySig.Proofs.TypeExpr.Children

/-!
# Heights of types

The height of a type is the greatest number of nodes on a path from its root to a leaf.  Here every
node has a cost, so that nodes can be left out of the count.

* `TypeExpr.heightBy`: the greatest cost of a path, `TypeExpr.heightBy_eq` by children.
* `TypeExpr.depth`: the height where every node counts.
* `TypeExpr.layers`: the height where a run of optionals directly inside of each other counts once.
-/

namespace RubySig

mutual

/-- The greatest cost of the nodes on a path from the root of a type to a leaf. -/
def TypeExpr.heightBy (cost : TypeExpr → Nat) : TypeExpr → Nat
  | .named target => cost (.named target) + target.argHeightBy cost
  | .singleton target => cost (.singleton target)
  | .var name => cost (.var name)
  | .union types => cost (.union types) + heightOfTypes cost types
  | .intersection types => cost (.intersection types) + heightOfTypes cost types
  | .optional inner => cost (.optional inner) + inner.heightBy cost
  | .tuple types => cost (.tuple types) + heightOfTypes cost types
  | .record fields => cost (.record fields) + heightOfFields cost fields
  | .proc function block =>
    cost (.proc function block) + max (function.heightBy cost) (heightOfBlock cost block)
  | .literal value => cost (.literal value)
  | .special type => cost (.special type)

/-- The height of the type arguments. -/
def NamedType.argHeightBy (cost : TypeExpr → Nat) : NamedType → Nat
  | ⟨_, args, _⟩ => heightOfTypes cost args

/-- The height of parameters and return type. -/
def FunctionType.heightBy (cost : TypeExpr → Nat) : FunctionType → Nat
  | ⟨params, returnType⟩ => max (heightOfParams cost params) (returnType.heightBy cost)

/-- The greatest height of several types. -/
def heightOfTypes (cost : TypeExpr → Nat) : List TypeExpr → Nat
  | [] => 0
  | type :: rest => max (type.heightBy cost) (heightOfTypes cost rest)

/-- The greatest height of record fields. -/
def heightOfFields (cost : TypeExpr → Nat) : List RecordField → Nat
  | [] => 0
  | ⟨_, type⟩ :: rest => max (type.heightBy cost) (heightOfFields cost rest)

/-- The greatest height of parameters. -/
def heightOfParams (cost : TypeExpr → Nat) : List Param → Nat
  | [] => 0
  | ⟨_, type, _⟩ :: rest => max (type.heightBy cost) (heightOfParams cost rest)

/-- The height of a block. -/
def heightOfBlock (cost : TypeExpr → Nat) : Option Block → Nat
  | none => 0
  | some ⟨_, function⟩ => function.heightBy cost

end

/-! ## Heights by children -/

section Children

variable {cost cost' : TypeExpr → Nat} {n : Nat}

theorem heightOfTypes_le_iff {types : List TypeExpr} :
    heightOfTypes cost types ≤ n ↔ ∀ t ∈ types, t.heightBy cost ≤ n := by
  induction types with
  | nil => simp [heightOfTypes]
  | cons t rest ih => rw [heightOfTypes, max_le_iff, ih, List.forall_mem_cons]

theorem heightOfFields_le_iff {fields : List RecordField} :
    heightOfFields cost fields ≤ n ↔ ∀ t ∈ fields.map (·.type), t.heightBy cost ≤ n := by
  induction fields with
  | nil => simp [heightOfFields]
  | cons f rest ih =>
    obtain ⟨key, type⟩ := f
    rw [heightOfFields, max_le_iff, ih, List.map_cons, List.forall_mem_cons]

theorem heightOfParams_le_iff {params : List Param} :
    heightOfParams cost params ≤ n ↔ ∀ t ∈ params.map (·.type), t.heightBy cost ≤ n := by
  induction params with
  | nil => simp [heightOfParams]
  | cons p rest ih =>
    obtain ⟨slot, type, name⟩ := p
    rw [heightOfParams, max_le_iff, ih, List.map_cons, List.forall_mem_cons]

theorem FunctionType.heightBy_le_iff {f : FunctionType} :
    f.heightBy cost ≤ n ↔ ∀ t ∈ f.types, t.heightBy cost ≤ n := by
  obtain ⟨params, returnType⟩ := f
  rw [FunctionType.heightBy, max_le_iff, heightOfParams_le_iff, FunctionType.types,
    List.forall_mem_append, List.forall_mem_singleton]

theorem heightOfBlock_le_iff {block : Option Block} :
    heightOfBlock cost block ≤ n ↔ ∀ t ∈ blockTypes block, t.heightBy cost ≤ n := by
  cases block with
  | none => simp [heightOfBlock, blockTypes]
  | some b =>
    obtain ⟨required, function⟩ := b
    exact FunctionType.heightBy_le_iff

namespace TypeExpr

/-- A type costs as much as its node and the dearest of its children. -/
theorem exists_heightBy_eq (cost : TypeExpr → Nat) (t : TypeExpr) :
    ∃ below, t.heightBy cost = cost t + below ∧
      ∀ n, below ≤ n ↔ ∀ c ∈ t.children, c.heightBy cost ≤ n := by
  cases t with
  | named target =>
    obtain ⟨name, args, span⟩ := target
    exact ⟨heightOfTypes cost args, by rw [heightBy, NamedType.argHeightBy],
      fun _ => heightOfTypes_le_iff⟩
  | union types | intersection types | tuple types =>
    exact ⟨heightOfTypes cost types, by rw [heightBy], fun _ => heightOfTypes_le_iff⟩
  | optional inner => exact ⟨_, by rw [heightBy], fun _ => by rw [children]; simp⟩
  | record fields =>
    exact ⟨heightOfFields cost fields, by rw [heightBy], fun _ => heightOfFields_le_iff⟩
  | proc function block =>
    refine ⟨_, by rw [heightBy], fun _ => ?_⟩
    rw [children, List.forall_mem_append, max_le_iff, FunctionType.heightBy_le_iff,
      heightOfBlock_le_iff]
  | singleton _ | var _ | literal _ | special _ =>
    exact ⟨0, by rw [heightBy, Nat.add_zero], fun _ => by simp [children]⟩

theorem heightBy_le_of_children {t : TypeExpr} (h : ∀ c ∈ t.children, c.heightBy cost ≤ n) :
    t.heightBy cost ≤ cost t + n := by
  obtain ⟨below, heq, hbelow⟩ := t.exists_heightBy_eq cost
  rw [heq]
  exact Nat.add_le_add_left ((hbelow n).2 h) _

/-- Dearer nodes make a type dearer. -/
theorem heightBy_mono {t : TypeExpr} (h : ∀ u ∈ t.nodes, cost u ≤ cost' u) :
    t.heightBy cost ≤ t.heightBy cost' := by
  induction t using inductionOnChildren with
  | step t ih =>
    obtain ⟨below, heq, hbelow⟩ := t.exists_heightBy_eq cost'
    rw [nodes_eq, List.forall_mem_cons, List.forall_mem_flatMap] at h
    have hchildren : ∀ c ∈ t.children, c.heightBy cost ≤ below := fun c hc =>
      (ih c hc (h.2 c hc)).trans ((hbelow below).1 (le_refl below) c hc)
    rw [heq]
    exact (heightBy_le_of_children hchildren).trans (Nat.add_le_add_right h.1 below)

/-! ## Depth and layers -/

/-- The number of nodes on the longest path from the root of a type to a leaf. -/
def depth (t : TypeExpr) : Nat := t.heightBy fun _ => 1

/-- Whether a type is an optional directly inside of which there is another one. -/
def isDoubled : TypeExpr → Bool
  | .optional (.optional _) => true
  | _ => false

/-- The depth of a type where optionals directly inside of each other count as one node. -/
def layers (t : TypeExpr) : Nat := t.heightBy fun u => if u.isDoubled then 0 else 1

/-- Where no optional is directly inside of another one, every node counts. -/
theorem depth_le_layers {t : TypeExpr} (h : ∀ u ∈ t.nodes, u.isDoubled = false) :
    t.depth ≤ t.layers := by
  refine heightBy_mono fun u hu => ?_
  simp [h u hu]

theorem layers_le_of_children {t : TypeExpr} (h : ∀ c ∈ t.children, c.layers ≤ n) :
    t.layers ≤ n + 1 := by
  have hcost : (if t.isDoubled then 0 else 1) ≤ 1 := by split <;> omega
  exact (heightBy_le_of_children h).trans (by omega)

/-- Another optional around an optional adds no layer. -/
theorem layers_optional_optional (t : TypeExpr) :
    (TypeExpr.optional (.optional t)).layers ≤ (TypeExpr.optional t).layers := by
  have hinner : ∀ c ∈ (TypeExpr.optional (.optional t)).children,
      c.layers ≤ (TypeExpr.optional t).layers :=
    List.forall_mem_singleton.2 (le_refl _)
  refine (heightBy_le_of_children hinner).trans ?_
  rw [isDoubled, if_pos rfl, Nat.zero_add]

end TypeExpr

end Children

end RubySig
