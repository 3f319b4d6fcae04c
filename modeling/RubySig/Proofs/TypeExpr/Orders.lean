import Mathlib.Data.List.Perm.Basic
import RubySig.Proofs.TypeExpr.Children

/-!
# Every traversal covers every node once

A type is a tree, and each of its nodes has an address.  Rebuilding a type hands over the node at
every address once, children before their parents; listing its nodes visits the same addresses,
parents before their children; and the references of a type are those of the listed nodes, in order.

* `Logs`: what a computation that keeps a list of handed nodes adds to it.
* `TypeExpr.handed_eq`, `FunctionType.handed_eq`, `MethodType.handed_eq`: the handed nodes by
  children.
* `typeAt?`, `Covers`: the node at an address, and two orders of all addresses.
* `traversals_cover`: types, function types and overloads.
-/

namespace RubySig

/-! ## Handed nodes -/

/-- Notes down a node and replaces it. -/
def noted (f : TypeExpr → TypeExpr) (t : TypeExpr) : StateM (List TypeExpr) TypeExpr := do
  modify (· ++ [t])
  pure (f t)

/-- Whatever is noted already, a computation returns a value and notes down some nodes. -/
def Logs {α : Type} (m : StateM (List TypeExpr) α) (value : α) (nodes : List TypeExpr) : Prop :=
  ∀ log, m.run log = (value, log ++ nodes)

namespace Logs

variable {α β : Type}

theorem pure (a : α) : Logs (pure a) a [] := fun log => congrArg (a, ·) (List.append_nil log).symm

theorem bind {m : StateM (List TypeExpr) α} {a : α} {first : List TypeExpr}
    {k : α → StateM (List TypeExpr) β} {b : β} {second : List TypeExpr} (hm : Logs m a first)
    (hk : Logs (k a) b second) : Logs (m >>= k) b (first ++ second) := by
  intro log
  rw [StateT.run_bind, hm log]
  show (k a).run (log ++ first) = _
  rw [hk, List.append_assoc]

/-- What a computation does with its result notes down nothing. -/
theorem map {m : StateM (List TypeExpr) α} {a : α} {nodes : List TypeExpr} (g : α → β)
    (hm : Logs m a nodes) : Logs (do return g (← m)) (g a) nodes := by
  have h := hm.bind (k := fun a => Pure.pure (g a)) (pure (g a))
  rwa [List.append_nil] at h

theorem noted (f : TypeExpr → TypeExpr) (t : TypeExpr) : Logs (noted f t) (f t) [t] := fun _ => rfl

/-- A node is handed over when its parts are rebuilt. -/
theorem handOver {f : TypeExpr → TypeExpr} {m : StateM (List TypeExpr) α} {a : α}
    {nodes : List TypeExpr} (build : α → TypeExpr) (hm : Logs m a nodes) :
    Logs (do RubySig.noted f (build (← m))) (f (build a)) (nodes ++ [build a]) :=
  hm.bind (noted f (build a))

end Logs

section Parts

variable {f g : TypeExpr → TypeExpr} {handed : TypeExpr → List TypeExpr}

theorem logs_types {types : List TypeExpr}
    (h : ∀ t ∈ types, Logs (t.mapM (noted f)) (g t) (handed t)) :
    Logs (mapTypesM (noted f) types) (types.map g) (types.flatMap handed) := by
  induction types with
  | nil => exact .pure _
  | cons t rest ih =>
    rw [mapTypesM, List.flatMap_cons]
    exact (h t List.mem_cons_self).bind
      ((ih fun u hu => h u (List.mem_cons_of_mem _ hu)).map (g t :: ·))

theorem logs_fields {fields : List RecordField}
    (h : ∀ r ∈ fields, Logs (r.type.mapM (noted f)) (g r.type) (handed r.type)) :
    Logs (mapFieldsM (noted f) fields) (fields.map fun r => ⟨r.key, g r.type⟩)
      ((fields.map (·.type)).flatMap handed) := by
  induction fields with
  | nil => exact .pure _
  | cons r rest ih =>
    obtain ⟨key, type⟩ := r
    rw [mapFieldsM, List.map_cons, List.map_cons, List.flatMap_cons]
    exact (h _ List.mem_cons_self).bind
      ((ih fun u hu => h u (List.mem_cons_of_mem _ hu)).map (⟨key, g type⟩ :: ·))

theorem logs_params {params : List Param}
    (h : ∀ p ∈ params, Logs (p.type.mapM (noted f)) (g p.type) (handed p.type)) :
    Logs (mapParamsM (noted f) params) (params.map fun p => ⟨p.slot, g p.type, p.name⟩)
      ((params.map (·.type)).flatMap handed) := by
  induction params with
  | nil => exact .pure _
  | cons p rest ih =>
    obtain ⟨slot, type, name⟩ := p
    rw [mapParamsM, List.map_cons, List.map_cons, List.flatMap_cons]
    exact (h _ List.mem_cons_self).bind
      ((ih fun u hu => h u (List.mem_cons_of_mem _ hu)).map (⟨slot, g type, name⟩ :: ·))

theorem logs_function {function : FunctionType}
    (h : ∀ t ∈ function.types, Logs (t.mapM (noted f)) (g t) (handed t)) :
    Logs (function.mapM (noted f)) (function.mapTypes g) (function.types.flatMap handed) := by
  obtain ⟨params, returnType⟩ := function
  have hparams : ∀ p ∈ params, Logs (p.type.mapM (noted f)) (g p.type) (handed p.type) :=
    fun p hp => h _ (List.mem_append_left _ (List.mem_map_of_mem hp))
  have hreturn : Logs (returnType.mapM (noted f)) (g returnType) (handed returnType) :=
    h _ (List.mem_append_right _ (List.mem_singleton_self _))
  rw [FunctionType.mapM, FunctionType.types, List.flatMap_append, List.flatMap_singleton]
  exact (logs_params hparams).bind (hreturn.map (FunctionType.mk _ ·))

theorem logs_block {block : Option Block}
    (h : ∀ t ∈ blockTypes block, Logs (t.mapM (noted f)) (g t) (handed t)) :
    Logs (mapBlockM (noted f) block) (block.map (·.mapTypes g))
      ((blockTypes block).flatMap handed) := by
  cases block with
  | none => exact .pure _
  | some b =>
    obtain ⟨required, function⟩ := b
    exact (logs_function h).map fun function => (some ⟨required, function⟩ : Option Block)

theorem logs_typeParams {params : List TypeParam}
    (h : ∀ t ∈ params.filterMap (·.upperBound), Logs (t.mapM (noted f)) (g t) (handed t)) :
    Logs (mapTypeParamsM (noted f) params)
      (params.map fun p => { p with upperBound := p.upperBound.map g })
      ((params.filterMap (·.upperBound)).flatMap handed) := by
  induction params with
  | nil => exact .pure _
  | cons p rest ih =>
    obtain ⟨name, variance, unchecked, bound, span⟩ := p
    cases bound with
    | none => exact (ih h).map (⟨name, variance, unchecked, none, span⟩ :: ·)
    | some bound =>
      obtain ⟨hbound, hrest⟩ := List.forall_mem_cons.1 h
      rw [mapTypeParamsM]
      refine hbound.bind ((Logs.pure (some (g bound))).bind ?_)
      exact (ih hrest).map (⟨name, variance, unchecked, some (g bound), span⟩ :: ·)

end Parts

/-! ## Handed nodes by children -/

namespace TypeExpr

/-- The nodes of the children are handed over and then the type itself, with its children
replaced. -/
theorem logs_of_children {f : TypeExpr → TypeExpr} {t : TypeExpr}
    (h : ∀ c ∈ t.children, Logs (c.mapM (noted f)) (c.map f) (c.handed f)) :
    Logs (t.mapM (noted f)) (t.map f)
      (t.children.flatMap (handed f) ++ [t.mapChildren (TypeExpr.map f)]) := by
  rw [map_eq]
  cases t with
  | named target =>
    obtain ⟨name, args, span⟩ := target
    rw [TypeExpr.mapM, NamedType.mapArgsM]
    exact ((logs_types h).map fun args => (⟨name, args, span⟩ : NamedType)).handOver named
  | union types => rw [TypeExpr.mapM]; exact (logs_types h).handOver union
  | intersection types => rw [TypeExpr.mapM]; exact (logs_types h).handOver intersection
  | tuple types => rw [TypeExpr.mapM]; exact (logs_types h).handOver tuple
  | optional inner =>
    rw [TypeExpr.mapM, children, List.flatMap_singleton]
    exact (h inner (List.mem_singleton_self _)).handOver optional
  | record fields =>
    rw [TypeExpr.mapM]
    exact (logs_fields fun r hr => h r.type (List.mem_map_of_mem hr)).handOver record
  | proc function block =>
    rw [TypeExpr.mapM, children, List.flatMap_append, List.append_assoc]
    exact (logs_function fun c hc => h c (List.mem_append_left _ hc)).bind
      ((logs_block fun c hc => h c (List.mem_append_right _ hc)).handOver (proc _))
  | singleton _ | var _ | literal _ | special _ => rw [TypeExpr.mapM]; exact .noted f _

theorem logs (f : TypeExpr → TypeExpr) (t : TypeExpr) :
    Logs (t.mapM (noted f)) (t.map f) (t.handed f) := by
  induction t using inductionOnChildren with
  | step t ih =>
    have h := logs_of_children ih
    have hhanded : t.handed f = _ := congrArg Prod.snd (h [])
    rw [hhanded]
    exact h

theorem handed_eq (f : TypeExpr → TypeExpr) (t : TypeExpr) :
    t.handed f = t.children.flatMap (handed f) ++ [t.mapChildren (TypeExpr.map f)] :=
  congrArg Prod.snd (logs_of_children (fun c _ => c.logs f) [])

/-- Nodes that are not replaced are handed over as they are. -/
theorem handed_id (t : TypeExpr) : t.handed id = t.children.flatMap (handed id) ++ [t] := by
  have hsame : t.mapChildren (TypeExpr.map id) = t :=
    (mapChildren_congr fun c _ => map_eq_self (fun _ => rfl) c).trans t.mapChildren_id
  rw [handed_eq, hsame]

end TypeExpr

namespace FunctionType

/-- Rebuilds every type in parameters and return type. -/
def map (f : TypeExpr → TypeExpr) (function : FunctionType) : FunctionType :=
  Id.run (function.mapM f)

/-- The nodes of parameters and return type in the order in which `mapM` hands them to `f`. -/
def handed (f : TypeExpr → TypeExpr) (function : FunctionType) : List TypeExpr :=
  ((function.mapM (noted f)).run []).2

theorem handed_eq (f : TypeExpr → TypeExpr) (function : FunctionType) :
    function.handed f = function.types.flatMap (TypeExpr.handed f) :=
  congrArg Prod.snd (logs_function (fun t _ => t.logs f) [])

theorem map_eq_self {f : TypeExpr → TypeExpr} (hf : ∀ t, f t = t) (function : FunctionType) :
    function.map f = function := by
  have hmap : TypeExpr.map f = fun t => t := funext (TypeExpr.map_eq_self hf)
  rw [map, FunctionType.mapM_id, hmap]
  exact function.mapTypes_id

/-- The references of parameters and return type are those of their nodes. -/
theorem references_eq_filterMap_nodes (function : FunctionType) :
    function.references = function.nodes.filterMap TypeExpr.reference? := by
  rw [references_eq, nodes_eq, List.filterMap_flatMap]
  exact List.flatMap_congr fun t _ => t.references_eq_filterMap_nodes

end FunctionType

namespace MethodType

theorem handed_eq (f : TypeExpr → TypeExpr) (m : MethodType) :
    m.handed f = m.types.flatMap (TypeExpr.handed f) := by
  have hlogs : Logs (m.mapM (noted f)) (m.map f) (m.types.flatMap (TypeExpr.handed f)) := by
    rw [map_eq, types, List.flatMap_append, List.flatMap_append, List.append_assoc, MethodType.mapM]
    refine (logs_typeParams fun t _ => t.logs f).bind ?_
    refine (logs_function fun t _ => t.logs f).bind ?_
    exact (logs_block fun t _ => t.logs f).map (MethodType.mk _ _ · m.span)
  exact congrArg Prod.snd (hlogs [])

/-- The references of an overload are those of its nodes. -/
theorem references_eq_filterMap_nodes (m : MethodType) :
    m.references = m.nodes.filterMap TypeExpr.reference? := by
  rw [references_eq, nodes_eq, List.filterMap_flatMap]
  exact List.flatMap_congr fun t _ => t.references_eq_filterMap_nodes

end MethodType

/-! ## Addresses -/

/-- The node at an address in several types: its first number picks one of the types, and each
further one picks a child. -/
def typeAt? : List Nat → List TypeExpr → Option TypeExpr
  | [], _ => none
  | [i], types => types[i]?
  | i :: j :: rest, types => types[i]?.bind fun t => typeAt? (j :: rest) t.children

/-- The address of the same node when one more type stands in front. -/
def shifted : List Nat → List Nat
  | [] => []
  | i :: rest => (i + 1) :: rest

/-- Two lists hold the node at every address of some types once: the first one never a node behind
one of its children, the second one never a node in front of one of its children. -/
def Covers (types visited handed : List TypeExpr) : Prop :=
  ∃ down up : List (List Nat),
    visited.map some = down.map (typeAt? · types) ∧ handed.map some = up.map (typeAt? · types) ∧
    up.Perm down ∧ (∀ p, p ∈ down ↔ (typeAt? p types).isSome) ∧
    down.Pairwise (fun p q => ¬ q <+: p) ∧ up.Pairwise (fun p q => ¬ p <+: q)

@[simp] theorem typeAt?_nil (types : List TypeExpr) : typeAt? [] types = none := by rw [typeAt?]

theorem typeAt?_of_nil (p : List Nat) : typeAt? p [] = none := by
  match p with
  | [] => rfl
  | [_] => rfl
  | _ :: _ :: _ => rfl

theorem typeAt?_zero (t : TypeExpr) (types : List TypeExpr) {p : List Nat} (hp : p ≠ []) :
    typeAt? (0 :: p) (t :: types) = typeAt? p t.children := by
  obtain ⟨i, p, rfl⟩ := List.exists_cons_of_ne_nil hp
  rfl

theorem typeAt?_shifted (t : TypeExpr) (types : List TypeExpr) (p : List Nat) :
    typeAt? (shifted p) (t :: types) = typeAt? p types := by
  match p with
  | [] => rfl
  | [_] => rfl
  | _ :: _ :: _ => rfl

/-- In front of the other types nothing changes for the first one. -/
theorem typeAt?_first (t : TypeExpr) (types : List TypeExpr) (p : List Nat) :
    typeAt? (0 :: p) (t :: types) = typeAt? (0 :: p) [t] := by
  cases p <;> rfl

theorem succ_mem_map_shifted {ps : List (List Nat)} {i : Nat} {p : List Nat} :
    (i + 1) :: p ∈ ps.map shifted ↔ i :: p ∈ ps := by
  refine ⟨fun h => ?_, fun h => List.mem_map_of_mem (f := shifted) h⟩
  obtain ⟨q, hq, hshifted⟩ := List.mem_map.1 h
  match q with
  | [] => cases hshifted
  | j :: q =>
    obtain ⟨hij, rfl⟩ := List.cons.inj hshifted
    exact Nat.succ.inj hij ▸ hq

theorem zero_notMem_map_shifted {ps : List (List Nat)} {p : List Nat} :
    0 :: p ∉ ps.map shifted := by
  intro h
  obtain ⟨q, -, hshifted⟩ := List.mem_map.1 h
  cases q <;> cases hshifted

theorem prefix_of_shifted {p q : List Nat} (hp : p ≠ []) (h : shifted p <+: shifted q) :
    p <+: q := by
  obtain ⟨i, p, rfl⟩ := List.exists_cons_of_ne_nil hp
  cases q with
  | nil => cases List.prefix_nil.1 h
  | cons j q =>
    obtain ⟨hij, hprefix⟩ := List.cons_prefix_cons.1 h
    exact List.cons_prefix_cons.2 ⟨Nat.succ.inj hij, hprefix⟩

namespace Covers

variable {types visited handed visited' handed' : List TypeExpr} {t : TypeExpr}

theorem nil : Covers [] [] [] :=
  ⟨[], [], rfl, rfl, .nil, fun p => by simp [typeAt?_of_nil], .nil, .nil⟩

/-- No node has the empty address. -/
theorem ne_nil {p : List Nat} (h : (typeAt? p types).isSome) : p ≠ [] := by
  rintro rfl
  rw [typeAt?_nil] at h
  cases h

/-- A type in front of its children, or behind them. -/
theorem node (h : Covers t.children visited handed) :
    Covers [t] (t :: visited) (handed ++ [t]) := by
  obtain ⟨down, up, hvisited, hhanded, hperm, hall, hdown, hup⟩ := h
  have hat : ∀ p ∈ down, typeAt? (0 :: p) [t] = typeAt? p t.children :=
    fun p hp => typeAt?_zero t [] (ne_nil ((hall p).1 hp))
  have hmem : ∀ p, p ∈ [0] :: down.map (0 :: ·) ↔ (typeAt? p [t]).isSome := by
    intro p
    match p with
    | [] => simp
    | [0] => simp [typeAt?]
    | (i + 1) :: p =>
      have hnone : typeAt? (shifted (i :: p)) [t] = none := by
        rw [typeAt?_shifted, typeAt?_of_nil]
      simp [← hnone, shifted]
    | 0 :: j :: p =>
      rw [typeAt?_zero t [] (List.cons_ne_nil j p), ← hall]
      simp
  refine ⟨[0] :: down.map (0 :: ·), up.map (0 :: ·) ++ [[0]], ?_, ?_, ?_, hmem, ?_, ?_⟩
  · rw [List.map_cons, hvisited, List.map_cons, List.map_map]
    exact congrArg (some t :: ·) (List.map_congr_left fun p hp => (hat p hp).symm)
  · rw [List.map_append, hhanded, List.map_append, List.map_map]
    refine congrArg (· ++ [some t]) (List.map_congr_left fun p hp => ?_)
    exact (hat p (hperm.subset hp)).symm
  · exact (List.perm_append_singleton _ _).trans ((hperm.map _).cons _)
  · refine List.pairwise_cons.2 ⟨?_, List.pairwise_map.2 (hdown.imp fun hpq hprefix => ?_)⟩
    · refine List.forall_mem_map.2 fun p hp hprefix => ne_nil ((hall p).1 hp) ?_
      exact List.prefix_nil.1 (List.cons_prefix_cons.1 hprefix).2
    · exact hpq (List.cons_prefix_cons.1 hprefix).2
  · refine List.pairwise_append.2 ⟨List.pairwise_map.2 (hup.imp fun hpq hprefix => ?_),
      List.pairwise_singleton _ _, ?_⟩
    · exact hpq (List.cons_prefix_cons.1 hprefix).2
    · refine List.forall_mem_map.2 fun p hp => List.forall_mem_singleton.2 fun hprefix => ?_
      exact ne_nil ((hall p).1 (hperm.subset hp))
        (List.prefix_nil.1 (List.cons_prefix_cons.1 hprefix).2)

/-- The addresses in a single type begin with zero. -/
theorem exists_eq_zero_cons {p : List Nat} (h : (typeAt? p [t]).isSome) : ∃ q, p = 0 :: q := by
  match p with
  | 0 :: q => exact ⟨q, rfl⟩
  | (i + 1) :: q =>
    rw [show (i + 1) :: q = shifted (i :: q) from rfl, typeAt?_shifted, typeAt?_of_nil] at h
    cases h

/-- The addresses in a type and those in the types behind it are all addresses. -/
theorem mem_append_shifted_iff {ps qs : List (List Nat)}
    (hps : ∀ p, p ∈ ps ↔ (typeAt? p [t]).isSome) (hqs : ∀ p, p ∈ qs ↔ (typeAt? p types).isSome)
    (p : List Nat) : p ∈ ps ++ qs.map shifted ↔ (typeAt? p (t :: types)).isSome := by
  rw [List.mem_append]
  match p with
  | [] =>
    rw [typeAt?_nil]
    refine ⟨fun h => ?_, fun h => nomatch h⟩
    rcases h with h | h
    · exact nomatch exists_eq_zero_cons ((hps _).1 h)
    · obtain ⟨q, hq, hnil⟩ := List.mem_map.1 h
      obtain ⟨i, q, rfl⟩ := List.exists_cons_of_ne_nil (ne_nil ((hqs q).1 hq))
      cases hnil
  | 0 :: q =>
    rw [typeAt?_first, ← hps]
    exact or_iff_left zero_notMem_map_shifted
  | (i + 1) :: q =>
    rw [show typeAt? ((i + 1) :: q) (t :: types) = typeAt? (i :: q) types from
      typeAt?_shifted t types (i :: q), ← hqs, succ_mem_map_shifted]
    exact or_iff_right fun h => nomatch exists_eq_zero_cons ((hps _).1 h)

/-- The nodes at the addresses in a type and at those in the types behind it. -/
theorem map_typeAt?_append_shifted {firsts others : List TypeExpr} {ps qs : List (List Nat)}
    (hfirsts : firsts.map some = ps.map (typeAt? · [t]))
    (hothers : others.map some = qs.map (typeAt? · types))
    (hps : ∀ p ∈ ps, (typeAt? p [t]).isSome) :
    (firsts ++ others).map some = (ps ++ qs.map shifted).map (typeAt? · (t :: types)) := by
  rw [List.map_append, hfirsts, hothers, List.map_append, List.map_map]
  refine congrArg₂ (· ++ ·) (List.map_congr_left fun p hp => ?_) ?_
  · obtain ⟨q, rfl⟩ := exists_eq_zero_cons (hps p hp)
    exact (typeAt?_first t types q).symm
  · exact List.map_congr_left fun p _ => (typeAt?_shifted t types p).symm

/-- One type in front of others. -/
theorem cons (h : Covers [t] visited handed) (hrest : Covers types visited' handed') :
    Covers (t :: types) (visited ++ visited') (handed ++ handed') := by
  obtain ⟨down, up, hvisited, hhanded, hperm, hall, hdown, hup⟩ := h
  obtain ⟨down', up', hvisited', hhanded', hperm', hall', hdown', hup'⟩ := hrest
  have hne : ∀ p ∈ down', p ≠ [] := fun p hp => ne_nil ((hall' p).1 hp)
  have hat : ∀ p ∈ down, (typeAt? p [t]).isSome := fun p hp => (hall p).1 hp
  have happart : ∀ p ∈ down, ∀ q ∈ down'.map shifted, ¬ p <+: q ∧ ¬ q <+: p := by
    intro p hp q hq
    obtain ⟨p, rfl⟩ := exists_eq_zero_cons (hat p hp)
    obtain ⟨q, hmem, rfl⟩ := List.mem_map.1 hq
    obtain ⟨i, q, rfl⟩ := List.exists_cons_of_ne_nil (hne q hmem)
    simp [shifted]
  refine ⟨down ++ down'.map shifted, up ++ up'.map shifted,
    map_typeAt?_append_shifted hvisited hvisited' hat,
    map_typeAt?_append_shifted hhanded hhanded' fun p hp => hat p (hperm.subset hp),
    hperm.append (hperm'.map shifted), mem_append_shifted_iff hall hall', ?_, ?_⟩
  · refine List.pairwise_append.2 ⟨hdown, List.pairwise_map.2 (hdown'.imp_of_mem ?_),
      fun p hp q hq => (happart p hp q hq).2⟩
    exact fun _ hq hpq hprefix => hpq (prefix_of_shifted (hne _ hq) hprefix)
  · refine List.pairwise_append.2 ⟨hup, List.pairwise_map.2 (hup'.imp_of_mem ?_), ?_⟩
    · exact fun hp _ hpq hprefix => hpq (prefix_of_shifted (hne _ (hperm'.subset hp)) hprefix)
    · intro p hp q hq
      exact (happart p (hperm.subset hp) q ((hperm'.map shifted).subset hq)).1

/-- Both lists hold the same nodes. -/
theorem perm (h : Covers types visited handed) : handed.Perm visited := by
  obtain ⟨down, up, hvisited, hhanded, hperm, -⟩ := h
  refine (List.map_perm_map_iff fun _ _ h => Option.some.inj h).1 ?_
  rw [hvisited, hhanded]
  exact hperm.map _

/-- Several types are covered one after the other if each of them is. -/
theorem flatMap {walk hand : TypeExpr → List TypeExpr}
    (h : ∀ t ∈ types, Covers [t] (walk t) (hand t)) :
    Covers types (types.flatMap walk) (types.flatMap hand) := by
  induction types with
  | nil => exact nil
  | cons t rest ih =>
    rw [List.flatMap_cons, List.flatMap_cons]
    exact (h t List.mem_cons_self).cons (ih fun u hu => h u (List.mem_cons_of_mem _ hu))

end Covers

theorem TypeExpr.covers (t : TypeExpr) : Covers [t] t.nodes (t.handed id) := by
  induction t using TypeExpr.inductionOnChildren with
  | step t ih =>
    rw [TypeExpr.nodes_eq, TypeExpr.handed_id]
    exact (Covers.flatMap ih).node

/-! ## All traversals -/

/-- Handing over without replacing and listing go through the nodes at all addresses, each once:
listed parents stand in front of their children, handed ones behind them.  Rebuilding then gives the
same value, and the references are those of the listed nodes, in order. -/
theorem traversals_cover :
    (∀ t : TypeExpr, Covers [t] t.nodes (t.handed id) ∧ (t.handed id).Perm t.nodes ∧
      t.map id = t ∧ t.references = t.nodes.filterMap TypeExpr.reference?) ∧
    (∀ f : FunctionType, Covers f.types f.nodes (f.handed id) ∧ (f.handed id).Perm f.nodes ∧
      f.map id = f ∧ f.references = f.nodes.filterMap TypeExpr.reference?) ∧
    ∀ m : MethodType, Covers m.types m.nodes (m.handed id) ∧ (m.handed id).Perm m.nodes ∧
      m.map id = m ∧ m.references = m.nodes.filterMap TypeExpr.reference? := by
  refine ⟨fun t => ?_, fun f => ?_, fun m => ?_⟩
  · exact ⟨t.covers, t.covers.perm, TypeExpr.map_eq_self (fun _ => rfl) t,
      t.references_eq_filterMap_nodes⟩
  · have hcovers : Covers f.types f.nodes (f.handed id) := by
      rw [f.nodes_eq, f.handed_eq]
      exact .flatMap fun t _ => t.covers
    exact ⟨hcovers, hcovers.perm, f.map_eq_self fun _ => rfl, f.references_eq_filterMap_nodes⟩
  · have hcovers : Covers m.types m.nodes (m.handed id) := by
      rw [m.nodes_eq, m.handed_eq]
      exact .flatMap fun t _ => t.covers
    exact ⟨hcovers, hcovers.perm, MethodType.map_eq_self (fun _ => rfl) m,
      m.references_eq_filterMap_nodes⟩

end RubySig
