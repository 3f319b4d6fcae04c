import RubySig.Proofs.Environment.Insertion
import RubySig.Proofs.Environment.Scope
import RubySig.Proofs.Parser.BodyNesting
import RubySig.Proofs.TypeExpr.Adoption
import RubySig.Proofs.TypeExpr.Members
import RubySig.Proofs.Validation.References

/-!
# Merging keeps every declaration once

Each declaration of the sources, however deep it is nested, either becomes one fragment of the
entity that has its absolute name, or one global variable, or causes one conflict at its own name.

* `Located`, `Declared`, `declaredIn`: the declarations of sources with those around them, in the
  order in which they are loaded.
* `placements_eq`: they are inserted in this order, under the names that the declarations around
  them give.
* `Outcome`, `Merge.outcomes`: what inserting does with each of them.
* `Partitions`, `Environment.Grouped`: nothing is lost or kept twice; fragments that share a name
  fit to each other.
* `mergeSources_partitions`: the result for sources that are read from texts.
-/

namespace RubySig

/-! ## Declarations with those around them -/

/-- A named declaration with the declarations around it, innermost first. -/
structure Located where
  /-- The declaration. -/
  decl : EntityDecl
  /-- The declarations whose bodies it stands in, innermost first. -/
  around : List EntityDecl
  /-- The source in which it is written. -/
  source : SourceId

/-- The scope that is opened by declarations one inside of the other, innermost first. -/
def scopeInside : List EntityDecl → Namespace
  | [] => .root
  | d :: around => (d.name.placedIn (scopeInside around)).toNamespace

/-- The scopes that are open inside of declarations. -/
def nestingInside : List EntityDecl → Nesting
  | [] => .topLevel
  | d :: around => (nestingInside around).enter (scopeInside (d :: around))

/-- The absolute name, which the declarations around a declaration give to it. -/
def Located.name (l : Located) : TypeName := l.decl.name.placedIn (scopeInside l.around)

/-- A declaration and, behind it, all that is nested in it. -/
def EntityDecl.located (source : SourceId) (around : List EntityDecl) (d : EntityDecl) :
    List Located :=
  ⟨d, around, source⟩ ::
    d.inner.attach.flatMap fun inner => EntityDecl.located source (d :: around) inner.1
termination_by sizeOf d
decreasing_by
  obtain ⟨e, he⟩ := inner
  obtain ⟨m, hm, hnested⟩ := List.mem_filterMap.1 he
  have hmember : sizeOf e < sizeOf m := by
    cases m <;> cases hnested
    simp
  have hmembers : sizeOf m < sizeOf d.members := List.sizeOf_lt_of_mem hm
  have hbody : sizeOf d.members ≤ sizeOf d := by
    cases d with
    | klass d | module d | interface d => cases d; simp only [EntityDecl.members]; simp; omega
    | typeAlias _ | constant _ => exact absurd hm List.not_mem_nil
  exact hmember.trans (hmembers.trans_le hbody)

theorem EntityDecl.located_eq (source : SourceId) (around : List EntityDecl) (d : EntityDecl) :
    d.located source around =
      ⟨d, around, source⟩ :: d.inner.flatMap (EntityDecl.located source (d :: around)) := by
  rw [located]
  simp

/-- What a source declares at some place: a named entity or a global variable. -/
inductive Declared
  | entity (located : Located)
  | global (decl : GlobalDecl) (source : SourceId)

/-- All that a source declares, at any depth, in the order in which it is written. -/
def declaredIn (source : SourceId) (declarations : List Declaration) : List Declared :=
  declarations.flatMap fun
    | .entity d => (d.located source []).map .entity
    | .global d => [.global d source]

/-! ## The order of insertion -/

/-- The fragment that a declaration becomes. -/
def Located.fragment (l : Located) : Fragment EntityDecl :=
  ⟨l.decl, nestingInside l.around, l.source⟩

/-- A declaration as it is inserted. -/
def Declared.placement : Declared → Placement
  | .entity l => .entity l.name l.fragment
  | .global d source => .global ⟨d, .topLevel, source⟩

theorem innermost_nestingInside (around : List EntityDecl) :
    (nestingInside around).innermost = scopeInside around := by
  cases around with
  | nil => rfl
  | cons d around => rfl

/-- The scopes around a declaration are those that the declarations around it open, and last the
top level. -/
theorem scopes_nestingInside (around : List EntityDecl) :
    (nestingInside around).scopes = around.tails.map scopeInside := by
  induction around with
  | nil => rfl
  | cons d around ih =>
    show scopeInside (d :: around) :: (nestingInside around).scopes = _
    rw [ih]
    rfl

theorem placeMembers_eq (source : SourceId) (nesting : Nesting) (members : List Member) :
    placeMembers source nesting members =
      (members.filterMap Member.nested?).flatMap (placeEntity source nesting) := by
  induction members with
  | nil => rw [placeMembers]; rfl
  | cons m rest ih =>
    cases m with
    | nested d => rw [placeMembers, ih]; rfl
    | method _ | attr _ | methodAlias _ | mixin _ | marker _ | typedVar _ =>
      rw [placeMembers, ih]; rfl

/-- A declaration is placed in the innermost scope, and those in its body in the scope it opens. -/
theorem placeEntity_eq {d : EntityDecl} (h : d.kind = .interface → d.inner = []) (source : SourceId)
    (nesting : Nesting) : placeEntity source nesting d =
      .entity (d.name.placedIn nesting.innermost) ⟨d, nesting, source⟩ ::
        d.inner.flatMap (placeEntity source
          (nesting.enter (d.name.placedIn nesting.innermost).toNamespace)) := by
  cases d with
  | klass d => obtain ⟨⟩ := d; rw [placeEntity, placeClass, placeMembers_eq]; rfl
  | module d => obtain ⟨⟩ := d; rw [placeEntity, placeModule, placeMembers_eq]; rfl
  | interface d => rw [h rfl, placeEntity]; rfl
  | typeAlias d | constant d => rw [placeEntity]; rfl

theorem EntityDecl.Flat.placeEntity_eq {d : EntityDecl} (h : d.Flat) (source : SourceId)
    (around : List EntityDecl) :
    placeEntity source (nestingInside around) d =
      ((d.located source around).map .entity).map Declared.placement := by
  induction h generalizing around with
  | @node d body inner ih =>
    have hnested : d.inner.flatMap (placeEntity source (nestingInside (d :: around))) =
        ((d.inner.flatMap (EntityDecl.located source (d :: around))).map .entity).map
          Declared.placement := by
      rw [List.map_flatMap, List.map_flatMap]
      exact List.flatMap_congr fun e he => ih e he (d :: around)
    rw [RubySig.placeEntity_eq body, EntityDecl.located_eq, List.map_cons, List.map_cons, ← hnested,
      innermost_nestingInside]
    rfl

/-- What a source declares is inserted in the order in which it is written, under its absolute
name. -/
theorem placements_eq {declarations : List Declaration} (h : ∀ d ∈ declarations, d.Flat)
    (source : SourceId) :
    placements source declarations =
      (declaredIn source declarations).map Declared.placement := by
  rw [placements, declaredIn, List.map_flatMap]
  refine List.flatMap_congr fun d hd => ?_
  cases d with
  | entity d => exact EntityDecl.Flat.placeEntity_eq (h _ hd) source []
  | global d => rfl

/-! ## What inserting does with each declaration -/

/-- A conflict blames a declaration if it stands at the name of the entity or at the global
variable. -/
def Declared.Blames : Declared → Diagnostic → Prop
  | .entity l, c => ∃ reason, c = ⟨.declarationConflict l.name reason, l.decl.nameSpan⟩
  | .global d _, c => ∃ reason, c = ⟨.declarationConflict (.bare d.name) reason, d.span⟩

/-- A declaration and the conflict that it caused when it was inserted, unless it was accepted. -/
structure Outcome where
  /-- What is declared. -/
  declared : Declared
  /-- The conflict. -/
  conflict? : Option Diagnostic

namespace Outcome

/-- The accepted declarations of entities with a name. -/
def acceptedAt (name : TypeName) : Outcome → List Located
  | ⟨.entity l, none⟩ => if l.name = name then [l] else []
  | ⟨.entity _, some _⟩ => []
  | ⟨.global _ _, _⟩ => []

/-- The accepted declarations of global variables with a name. -/
def acceptedGlobals (name : String) : Outcome → List (Fragment GlobalDecl)
  | ⟨.global d source, none⟩ => if d.name = name then [⟨d, .topLevel, source⟩] else []
  | ⟨.global _ _, some _⟩ => []
  | ⟨.entity _, _⟩ => []

end Outcome

namespace Merge

/-- What inserting does with declarations one after the other. -/
def outcomes (m : Merge) : List Declared → List Outcome
  | [] => []
  | d :: rest => ⟨d, m.conflict? d.placement⟩ :: (m.insert d.placement).outcomes rest

theorem declared_outcomes (m : Merge) (ds : List Declared) :
    (m.outcomes ds).map (·.declared) = ds := by
  induction ds generalizing m with
  | nil => rfl
  | cons d rest ih => rw [outcomes, List.map_cons, ih]

/-- The conflicts are those of the rejected declarations, in order. -/
theorem conflicts_insertAll (m : Merge) (ds : List Declared) :
    (m.insertAll (ds.map Declared.placement)).conflicts =
      m.conflicts ++ (m.outcomes ds).filterMap (·.conflict?) := by
  induction ds generalizing m with
  | nil => exact (List.append_nil _).symm
  | cons d rest ih =>
    have hrest := ih (m.insert d.placement)
    rw [conflicts_insert, List.append_assoc] at hrest
    rw [List.map_cons, outcomes, List.filterMap_cons]
    refine hrest.trans ?_
    cases m.conflict? d.placement <;> rfl

/-- The fragments under a name are the accepted declarations of this name, in order. -/
theorem fragmentsOf_insertAll {m : Merge} (h : m.Holds fun _ => True) (ds : List Declared)
    (name : TypeName) :
    (m.insertAll (ds.map Declared.placement)).env.fragmentsOf name =
      m.env.fragmentsOf name ++
        ((m.outcomes ds).flatMap (Outcome.acceptedAt name)).map Located.fragment := by
  induction ds generalizing m with
  | nil => exact (List.append_nil _).symm
  | cons d rest ih =>
    have hrest := ih (h.insert_trivial d.placement)
    have hfirst : (if m.conflict? d.placement = none then d.placement.fragmentsAt name else []) =
        (Outcome.acceptedAt name ⟨d, m.conflict? d.placement⟩).map Located.fragment := by
      cases d with
      | entity l =>
        cases m.conflict? (Declared.entity l).placement with
        | none => rw [if_pos rfl, Outcome.acceptedAt, apply_ite (List.map _)]; rfl
        | some c => rfl
      | global d source => split <;> rfl
    rw [fragmentsOf_insert h, List.append_assoc, hfirst, ← List.map_append] at hrest
    exact hrest

/-- The global variable under a name is the accepted declaration of this name. -/
theorem globalsOf_insertAll (m : Merge) (ds : List Declared) (name : String) :
    (m.insertAll (ds.map Declared.placement)).env.globalsOf name =
      m.env.globalsOf name ++ (m.outcomes ds).flatMap (Outcome.acceptedGlobals name) := by
  induction ds generalizing m with
  | nil => exact (List.append_nil _).symm
  | cons d rest ih =>
    have hrest := ih (m.insert d.placement)
    have hfirst : (if m.conflict? d.placement = none then d.placement.globalsAt name else []) =
        Outcome.acceptedGlobals name ⟨d, m.conflict? d.placement⟩ := by
      cases d with
      | entity l => split <;> rfl
      | global d source =>
        cases m.conflict? (Declared.global d source).placement with
        | none => rw [if_pos rfl]; rfl
        | some c => rfl
    rw [globalsOf_insert, List.append_assoc, hfirst] at hrest
    exact hrest

/-- Each conflict blames the declaration that caused it. -/
theorem blames_outcomes (m : Merge) (ds : List Declared) :
    ∀ o ∈ m.outcomes ds, ∀ c, o.conflict? = some c → o.declared.Blames c := by
  induction ds generalizing m with
  | nil => exact fun _ ho => absurd ho List.not_mem_nil
  | cons d rest ih =>
    refine List.forall_mem_cons.2 ⟨fun c hc => ?_, ih _⟩
    cases d with
    | entity l =>
      obtain ⟨existing, -, hreason⟩ := Option.bind_eq_some_iff.1 hc
      obtain ⟨reason, -, rfl⟩ := Option.map_eq_some_iff.1 hreason
      exact ⟨reason, rfl⟩
    | global d source =>
      change (if _ then _ else _) = _ at hc
      split at hc
      · obtain rfl := Option.some.inj hc
        exact ⟨_, rfl⟩
      · cases hc

end Merge

/-! ## Fragments without a parameter list -/

namespace Environment

theorem names_adoptTypeParams (env : Environment) : (adoptTypeParams env).names = env.names :=
  OrderedMap.keys_mapValues _ _

/-- A fragment of an entity sees the parameters of the entity. -/
theorem fragmentsOf_adoptTypeParams (env : Environment) (name : TypeName) :
    (adoptTypeParams env).fragmentsOf name = (env.fragmentsOf name).map
      (adoptFragment (typeParamNames ((adoptTypeParams env).paramsOf name))) := by
  rw [fragmentsOf, fragmentsOf, paramsOf, get?_adoptTypeParams]
  cases env.get? name with
  | none => rfl
  | some e =>
    show (adoptEntry e).fragments =
      e.fragments.map (adoptFragment (typeParamNames (adoptEntry e).typeParams))
    rw [typeParams_adoptEntry, fragments_adoptEntry_eq_map, Entry.paramNames]

end Environment

/-! ## Partitions -/

/-- A fragment is what a declaration becomes in an entity with the given type parameters. -/
structure Located.Stored (params : List String) (l : Located) (f : Fragment EntityDecl) : Prop where
  decl : f.decl = adoptDecl params l.decl
  source : f.source = l.source
  scopes : f.nesting.scopes = l.around.tails.map scopeInside

/-- All placements of sources, inserted in load order. -/
def insertSources (sources : ParsedSources) : Merge :=
  Merge.empty.insertAll (sources.flatMap fun s => placements s.1 s.2)

/-- What was done with each declaration of some sources: it became one fragment of the entity of its
name, or one global variable, in load order, or it caused one conflict at its own name. -/
structure Partitions (sources : ParsedSources) (outcomes : List Outcome) : Prop where
  declared : outcomes.map (·.declared) = sources.flatMap fun s => declaredIn s.1 s.2
  blames : ∀ o ∈ outcomes, ∀ c, o.conflict? = some c → o.declared.Blames c
  conflicts : (mergeSources sources).2 = outcomes.filterMap (·.conflict?) ++
    allSuperClassConflicts (insertSources sources).env
  fragments : ∀ name, List.Forall₂
    (Located.Stored (typeParamNames ((mergeSources sources).1.paramsOf name)))
    (outcomes.flatMap (Outcome.acceptedAt name)) ((mergeSources sources).1.fragmentsOf name)
  globals : ∀ name, (mergeSources sources).1.globalsOf name =
    outcomes.flatMap (Outcome.acceptedGlobals name)

/-- Every entity is found under its own absolute name, and its fragments fit to each other. -/
structure Environment.Grouped (env : Environment) : Prop where
  distinct : env.names.Nodup
  named : ∀ name ∈ env.names, name.isAbsolute ∧ ∃ e, env.get? name = some e ∧ e.name = name
  nonempty : ∀ name ∈ env.names, env.fragmentsOf name ≠ []
  uniform : ∀ name, ∀ f ∈ env.fragmentsOf name, ∀ g ∈ env.fragmentsOf name,
    f.decl.kind = g.decl.kind
  arity : ∀ name, ∀ f ∈ env.fragmentsOf name, ∀ g ∈ env.fragmentsOf name,
    f.decl.typeParams ≠ [] → g.decl.typeParams ≠ [] →
      f.decl.typeParams.length = g.decl.typeParams.length
  outermost : ∀ name, ∀ f ∈ env.fragmentsOf name, f.nesting.scopes.getLast? = some .root

theorem ParsedSources.Read.placements_eq {sources : ParsedSources} (hread : sources.Read) :
    (sources.flatMap fun s => placements s.1 s.2) =
      (sources.flatMap fun s => declaredIn s.1 s.2).map Declared.placement := by
  rw [List.map_flatMap]
  refine List.flatMap_congr fun s hs => ?_
  obtain ⟨limits, text, errors, hparse⟩ := hread s hs
  exact RubySig.placements_eq (flat_of_parseSource hparse) s.1

theorem Environment.mem_fragmentsOf {env : Environment} {name : TypeName}
    {f : Fragment EntityDecl} (h : f ∈ env.fragmentsOf name) :
    ∃ e, env.get? name = some e ∧ f ∈ e.fragments := by
  cases hget : env.get? name with
  | none =>
    rw [fragmentsOf_of_get?_eq_none hget] at h
    exact absurd h List.not_mem_nil
  | some e =>
    rw [fragmentsOf_of_get? hget] at h
    exact ⟨e, rfl, h⟩

/-- In the environment of any sources that were read from texts all fragments of a name fit to each
other. -/
theorem ParsedSources.Read.grouped {sources : ParsedSources} (hread : sources.Read) :
    (mergeSources sources).1.Grouped := by
  have hanchored := mergeSources_anchored sources
  refine ⟨nodup_names_mergeSources sources, fun name hname => ?_, fun name hname => ?_,
    fun name f hf g hg => ?_, fun name f hf g hg hfp hgp => ?_, fun name f hf => ?_⟩
  · obtain ⟨e, hget⟩ := OrderedMap.exists_get?_of_mem_keys hname
    have hat := hanchored name e hget
    exact ⟨hat.absolute, e, hget, hat.named⟩
  · obtain ⟨e, hget⟩ := OrderedMap.exists_get?_of_mem_keys hname
    rw [Environment.fragmentsOf_of_get? hget]
    exact List.cons_ne_nil _ _
  · obtain ⟨e, hget, hf⟩ := Environment.mem_fragmentsOf hf
    rw [Environment.fragmentsOf_of_get? hget] at hg
    have huniform := mergeSources_uniform (OrderedMap.mem_values_of_get? hget)
    exact (huniform f hf).trans (huniform g hg).symm
  · obtain ⟨e, hget, hf⟩ := Environment.mem_fragmentsOf hf
    rw [Environment.fragmentsOf_of_get? hget] at hg
    have hscoped := Environment.OfTexts.scoped ⟨sources, hread, rfl⟩ name e hget
    exact ((hscoped.arity f hf).resolve_left hfp).trans ((hscoped.arity g hg).resolve_left hgp).symm
  · rw [Nesting.scopes, List.getLast?_append]
    rfl

/-- Merging neither loses nor duplicates.  Every declaration of sources that are read from texts, at
any depth, either becomes exactly one fragment (or global variable) under its absolute name, in load
order, or causes exactly one conflict at its own name; and what is stored under one name fits to
each other. -/
theorem mergeSources_partitions {sources : ParsedSources} (hread : sources.Read) :
    (∃ outcomes, Partitions sources outcomes) ∧ (mergeSources sources).1.Grouped := by
  have hsources : insertSources sources = Merge.empty.insertAll
      ((sources.flatMap fun s => declaredIn s.1 s.2).map Declared.placement) := by
    rw [insertSources, hread.placements_eq]
  refine ⟨⟨Merge.empty.outcomes (sources.flatMap fun s => declaredIn s.1 s.2),
    Merge.declared_outcomes _ _, Merge.blames_outcomes _ _, ?_, fun name => ?_, fun name => ?_⟩,
    hread.grouped⟩
  · refine congrArg (· ++ allSuperClassConflicts (insertSources sources).env) ?_
    show (insertSources sources).conflicts = _
    rw [hsources, Merge.conflicts_insertAll]
    rfl
  · show List.Forall₂ _ _ ((adoptTypeParams (insertSources sources).env).fragmentsOf name)
    rw [Environment.fragmentsOf_adoptTypeParams, hsources,
      Merge.fragmentsOf_insertAll Merge.holds_empty]
    show List.Forall₂ _ _ (List.map _ (List.map Located.fragment _))
    rw [List.map_map]
    refine List.forall₂_map_right_iff.2 (List.forall₂_same.2 fun l _ => ⟨?_, rfl, ?_⟩)
    · rw [← hsources]
      rfl
    · exact scopes_nestingInside l.around
  · show (insertSources sources).env.globalsOf name = _
    rw [hsources, Merge.globalsOf_insertAll]
    rfl

/-- Two texts that open a module together, with a second parameter list that is too long, a module
that is a class already, and a global variable that is declared twice. -/
def townTexts : List (SourceId × Source) :=
  [(0, .ofFile "a.rbs" "module Town\n  class House[T]\n  end\nend\n$count: untyped\n"),
    (1, .ofFile "b.rbs" ("module Town\n  class House[S, U]\n    class Room\n" ++
      "    end\n  end\nend\nmodule Town::House\nend\n$count: untyped\n"))]

set_option maxRecDepth 100000 in
/-- The class in the rejected fragment is declared all the same. -/
theorem partitions_of_town : ∃ parsed errors,
    parseSources .unlimited townTexts = .ok (parsed, errors) ∧
    (mergeSources parsed).1.names.map TypeName.render =
      ["::Town", "::Town::House", "::Town::House::Room"] ∧
    ((mergeSources parsed).1.fragmentsOf (.topLevel "Town")).length = 2 ∧
    (mergeSources parsed).2.length = 3 ∧
    (∃ outcomes, Partitions parsed outcomes) ∧ (mergeSources parsed).1.Grouped := by
  obtain ⟨⟨parsed, errors⟩, hparse, hmerged⟩ := exists_ok_of_any
    (parseSources .unlimited townTexts)
    (fun p => (mergeSources p.1).1.names.map TypeName.render =
        ["::Town", "::Town::House", "::Town::House::Room"] &&
      ((mergeSources p.1).1.fragmentsOf (.topLevel "Town")).length = 2 &&
      (mergeSources p.1).2.length = 3) (by decide +kernel)
  simp only [Bool.and_eq_true, decide_eq_true_eq] at hmerged
  obtain ⟨⟨hnames, hfragments⟩, hconflicts⟩ := hmerged
  exact ⟨parsed, errors, hparse, hnames, hfragments, hconflicts,
    mergeSources_partitions (parseSources_read hparse)⟩

end RubySig
