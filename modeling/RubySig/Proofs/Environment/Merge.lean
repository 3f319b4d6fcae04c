import RubySig.Environment.Merge
import RubySig.Proofs.OrderedMap

/-!
# Environments of sources are anchored

Every entity of an environment that is merged from sources stands under its own absolute name, and
the scopes around each of its fragments are absolute.

* `Nesting.Anchored`, `Placement.Anchored`, `Environment.Anchored`: the property for scopes, for a
  declaration with its name, and for an environment.
* `placeEntity_anchored`: whatever is nested in a declaration is placed in absolute scopes.
* `Placement.Keeps`, `Merge.Holds`, `Merge.Holds.insertAll`: inserting keeps what each placement
  keeps, conflicts or not.
* `exists_original_of_mergeSources`: the entities of a merged environment.
* `mergeSources_anchored`: the property holds of every merged environment.
* `Environment.get?_of_mem_entities`: no two of its entities have one name.
-/

namespace RubySig

/-! ## Names in absolute scopes -/

/-- All scopes are absolute. -/
def Nesting.Anchored (nesting : Nesting) : Prop := ∀ scope ∈ nesting.inner, scope.absolute

theorem Namespace.absolute_join {ns : Namespace} (h : ns.absolute) (other : Namespace) :
    (ns.join other).absolute := by
  rw [join]
  split
  · assumption
  · exact h

theorem TypeName.isAbsolute_placedIn {ns : Namespace} (h : ns.absolute) (n : TypeName) :
    (n.placedIn ns).isAbsolute :=
  Namespace.absolute_join h n.scope

namespace Nesting

variable {nesting : Nesting}

theorem anchored_topLevel : topLevel.Anchored := fun _ h => absurd h List.not_mem_nil

theorem Anchored.enter (h : nesting.Anchored) {n : TypeName} (hn : n.isAbsolute) :
    (nesting.enter n.toNamespace).Anchored :=
  List.forall_mem_cons.2 ⟨hn, h⟩

theorem Anchored.innermost (h : nesting.Anchored) : nesting.innermost.absolute := by
  obtain ⟨_ | ⟨scope, rest⟩⟩ := nesting
  · rfl
  · exact h scope List.mem_cons_self

/-- Whatever a name can stand for is absolute. -/
theorem Anchored.candidates (h : nesting.Anchored) {name candidate : TypeName}
    (hmem : candidate ∈ nesting.candidates name) : candidate.isAbsolute := by
  rw [Nesting.candidates] at hmem
  split at hmem
  · rw [List.mem_singleton.1 hmem]
    assumption
  · obtain ⟨scope, hscope, rfl⟩ := List.mem_map.1 hmem
    rcases List.mem_append.1 hscope with hscope | hscope
    · exact TypeName.isAbsolute_placedIn (h scope hscope) name
    · rw [List.mem_singleton.1 hscope]
      exact TypeName.isAbsolute_placedIn rfl name

end Nesting

/-! ## Placements -/

/-- A named entity has an absolute name and stands in absolute scopes. -/
def Placement.Anchored : Placement → Prop
  | .entity name f => name.isAbsolute ∧ f.nesting.Anchored
  | .global _ => True

mutual

theorem placeEntity_anchored {source : SourceId} {nesting : Nesting} (h : nesting.Anchored)
    (d : EntityDecl) : ∀ p ∈ placeEntity source nesting d, p.Anchored := by
  cases d with
  | klass d => rw [placeEntity]; exact placeClass_anchored h d
  | module d => rw [placeEntity]; exact placeModule_anchored h d
  | interface d | typeAlias d | constant d =>
    rw [placeEntity]
    exact List.forall_mem_singleton.2 ⟨TypeName.isAbsolute_placedIn h.innermost _, h⟩

theorem placeClass_anchored {source : SourceId} {nesting : Nesting} (h : nesting.Anchored)
    (d : ClassDecl) : ∀ p ∈ placeClass source nesting d, p.Anchored := by
  obtain ⟨name, typeParams, superClass, members, nameSpan, span⟩ := d
  have hplaced := TypeName.isAbsolute_placedIn h.innermost name
  rw [placeClass]
  exact List.forall_mem_cons.2 ⟨⟨hplaced, h⟩, placeMembers_anchored (h.enter hplaced) members⟩

theorem placeModule_anchored {source : SourceId} {nesting : Nesting} (h : nesting.Anchored)
    (d : ModuleDecl) : ∀ p ∈ placeModule source nesting d, p.Anchored := by
  obtain ⟨name, typeParams, selfTypes, members, nameSpan, span⟩ := d
  have hplaced := TypeName.isAbsolute_placedIn h.innermost name
  rw [placeModule]
  exact List.forall_mem_cons.2 ⟨⟨hplaced, h⟩, placeMembers_anchored (h.enter hplaced) members⟩

theorem placeMembers_anchored {source : SourceId} {nesting : Nesting} (h : nesting.Anchored)
    (members : List Member) : ∀ p ∈ placeMembers source nesting members, p.Anchored := by
  match members with
  | [] => rw [placeMembers]; exact fun _ hp => absurd hp List.not_mem_nil
  | .nested d :: rest =>
    rw [placeMembers]
    exact List.forall_mem_append.2 ⟨placeEntity_anchored h d, placeMembers_anchored h rest⟩
  | .method _ :: rest | .attr _ :: rest | .methodAlias _ :: rest | .mixin _ :: rest
  | .marker _ :: rest | .typedVar _ :: rest =>
    rw [placeMembers]
    exact placeMembers_anchored h rest

end

theorem placements_anchored (source : SourceId) (declarations : List Declaration) :
    ∀ p ∈ placements source declarations, p.Anchored := by
  intro p hp
  obtain ⟨d, -, hp⟩ := List.mem_flatMap.1 hp
  cases d with
  | entity d => exact placeEntity_anchored Nesting.anchored_topLevel d p hp
  | global d => rw [List.mem_singleton.1 hp]; trivial

/-- The declarations in a body are placed element by element. -/
theorem placeMembers_cons (source : SourceId) (nesting : Nesting) (m : Member)
    (rest : List Member) : placeMembers source nesting (m :: rest) =
      placeMembers source nesting [m] ++ placeMembers source nesting rest := by
  cases m with
  | nested d => simp only [placeMembers, List.append_nil]
  | method _ | attr _ | methodAlias _ | mixin _ | marker _ | typedVar _ =>
    simp only [placeMembers, List.nil_append]

/-! ## Inserting -/

/-- A property of entities is one that a placement keeps: it holds of an entity with this fragment
alone, and still holds of an entity after this fragment, if the fragment fits. -/
def Placement.Keeps (P : Entry → Prop) : Placement → Prop
  | .entity name f => P ⟨name, f, []⟩ ∧ ∀ e : Entry, e.name = name → P e →
      Merge.clash? e f.decl = none → P { e with reopenings := e.reopenings ++ [f] }
  | .global _ => True

namespace Merge

variable {P : Entry → Prop} {m : Merge}

/-- Every entity stands under its own name and has a property. -/
def Holds (m : Merge) (P : Entry → Prop) : Prop :=
  ∀ name e, m.env.get? name = some e → e.name = name ∧ P e

theorem holds_empty : empty.Holds P := by
  intro name e hget
  cases hget

theorem Holds.write (h : m.Holds P) {e : Entry} (he : P e) : (m.write e).Holds P := by
  intro name other hget
  change (m.env.entries.insert e.name e).get? name = some other at hget
  rw [OrderedMap.get?_insert] at hget
  split at hget
  · rename_i hname
    obtain rfl := Option.some.inj hget
    exact ⟨hname.symm, he⟩
  · exact h name other hget

theorem Holds.insertEntity (h : m.Holds P) {name : TypeName} {f : Fragment EntityDecl}
    (hf : (Placement.entity name f).Keeps P) : (m.insertEntity name f).Holds P := by
  obtain ⟨hfirst, hnext⟩ := hf
  rw [Merge.insertEntity]
  cases hget : m.env.get? name with
  | none => exact h.write hfirst
  | some existing =>
    obtain ⟨hname, hexisting⟩ := h name existing hget
    dsimp only
    cases hclash : clash? existing f.decl with
    | some reason => exact h
    | none => exact h.write (hnext existing hname hexisting hclash)

theorem Holds.insert (h : m.Holds P) {p : Placement} (hp : p.Keeps P) : (m.insert p).Holds P := by
  cases p with
  | entity name f => exact h.insertEntity hp
  | global f =>
    rw [Merge.insert, insertGlobal]
    split <;> exact h

/-- Inserting keeps what each placement keeps, conflicts or not. -/
theorem Holds.insertAll (h : m.Holds P) {ps : List Placement} (hps : ∀ p ∈ ps, p.Keeps P) :
    (m.insertAll ps).Holds P := by
  induction ps generalizing m with
  | nil => exact h
  | cons p rest ih =>
    obtain ⟨hp, hrest⟩ := List.forall_mem_cons.1 hps
    exact ih (h.insert hp) hrest

theorem nodup_keys_insert (h : m.env.entries.keys.Nodup) (p : Placement) :
    (m.insert p).env.entries.keys.Nodup := by
  cases p with
  | entity name f =>
    rw [insert, Merge.insertEntity]
    split
    · exact OrderedMap.nodup_keys_insert h _ _
    · split
      · exact h
      · exact OrderedMap.nodup_keys_insert h _ _
  | global f =>
    rw [insert, insertGlobal]
    split <;> exact h

theorem nodup_keys_insertAll (h : m.env.entries.keys.Nodup) (ps : List Placement) :
    (m.insertAll ps).env.entries.keys.Nodup := by
  induction ps generalizing m with
  | nil => exact h
  | cons p rest ih => exact ih (nodup_keys_insert h p)

end Merge

/-- An entity of an environment that is merged from sources has what all placements of the sources
keep, up to the type parameters that its fragments get to see. -/
theorem exists_original_of_mergeSources {P : Entry → Prop}
    {sources : List (SourceId × List Declaration)}
    (hps : ∀ s ∈ sources, ∀ p ∈ placements s.1 s.2, p.Keeps P) {name : TypeName} {e : Entry}
    (hget : (mergeSources sources).1.get? name = some e) :
    ∃ original, original.name = name ∧ P original ∧ e = adoptEntry original := by
  change (OrderedMap.mapValues adoptEntry _).get? name = some e at hget
  rw [OrderedMap.get?_mapValues, Option.map_eq_some_iff] at hget
  obtain ⟨original, horiginal, rfl⟩ := hget
  have hall : ∀ p ∈ sources.flatMap fun s => placements s.1 s.2, p.Keeps P := by
    intro p hp
    obtain ⟨s, hs, hp⟩ := List.mem_flatMap.1 hp
    exact hps s hs p hp
  obtain ⟨hname, horiginal⟩ := Merge.holds_empty.insertAll hall name original horiginal
  exact ⟨original, hname, horiginal, rfl⟩

/-! ## Environments -/

/-- An entity stands under its own name, which is absolute, and the scopes around each of its
fragments are absolute. -/
structure Entry.AnchoredAt (e : Entry) (name : TypeName) : Prop where
  named : e.name = name
  absolute : name.isAbsolute
  nesting : ∀ f ∈ e.fragments, f.nesting.Anchored

/-- All entities stand under their own absolute names and in absolute scopes. -/
def Environment.Anchored (env : Environment) : Prop :=
  ∀ name e, env.get? name = some e → e.AnchoredAt name

theorem Placement.Anchored.keeps {p : Placement} (h : p.Anchored) :
    p.Keeps fun e => e.AnchoredAt e.name := by
  cases p with
  | entity name f =>
    refine ⟨⟨rfl, h.1, List.forall_mem_singleton.2 h.2⟩, fun e _ he _ => ⟨rfl, he.absolute, ?_⟩⟩
    show ∀ g ∈ e.fragments ++ [f], g.nesting.Anchored
    exact List.forall_mem_append.2 ⟨he.nesting, List.forall_mem_singleton.2 h.2⟩
  | global f => trivial

theorem adoptEntry_anchored {e : Entry} {name : TypeName} (h : e.AnchoredAt name) :
    (adoptEntry e).AnchoredAt name := by
  rw [adoptEntry]
  split
  · exact h
  · refine ⟨h.named, h.absolute, fun f hf => ?_⟩
    change f ∈ e.fragments.map (adoptFragment e.paramNames) at hf
    obtain ⟨g, hg, rfl⟩ := List.mem_map.1 hf
    exact h.nesting g hg

/-- In the environment of any sources all entities stand under their own absolute names and in
absolute scopes. -/
theorem mergeSources_anchored (sources : List (SourceId × List Declaration)) :
    (mergeSources sources).1.Anchored := by
  intro name e hget
  obtain ⟨original, rfl, horiginal, rfl⟩ := exists_original_of_mergeSources
    (fun s _ p hp => (placements_anchored s.1 s.2 p hp).keeps) hget
  exact adoptEntry_anchored horiginal

/-- No name stands twice in an environment of sources. -/
theorem nodup_names_mergeSources (sources : List (SourceId × List Declaration)) :
    (mergeSources sources).1.names.Nodup := by
  have hempty : Merge.empty.env.entries.keys.Nodup := List.nodup_nil
  show (OrderedMap.mapValues adoptEntry _).keys.Nodup
  rw [OrderedMap.keys_mapValues]
  exact Merge.nodup_keys_insertAll hempty _

/-- In the environment of any sources every entity is found under its name. -/
theorem Environment.get?_of_mem_entities {sources : List (SourceId × List Declaration)} {e : Entry}
    (h : e ∈ (mergeSources sources).1.entities) :
    (mergeSources sources).1.get? e.name = some e := by
  obtain ⟨⟨name, other⟩, hpair, rfl⟩ := List.mem_map.1 h
  have hget : (mergeSources sources).1.get? name = some other :=
    OrderedMap.get?_of_mem_pairs (nodup_names_mergeSources sources) hpair
  rwa [((mergeSources_anchored sources) name other hget).named]

end RubySig
