import RubySig.Proofs.Environment.Gathered
import RubySig.Proofs.Parser.BodySites
import RubySig.Proofs.Token.Starts

/-!
# Where the references of environments are written

Every placed declaration gets into an environment at most once, and no two places of what is read
from texts are the same.  So no two references of an environment start at one place.

* `TypeExpr.sites_map_le`, `EntityDecl.ownSites_adopt_le`: reading names as type parameters adds no
  references.
* `Entry.sites`, `Environment.sites`: where names and references of entities and of whole
  environments start.
* `Environment.sites_mergeSources_le`: merging adds no places.
* `ParsedSources.nodup_sites`: what is read from texts starts at places of its own.
* `Environment.nodup_sites_of_read`: so do the names and references of the environment.
-/

namespace RubySig

/-! ## Types that are rebuilt -/

/-- Where a node itself starts, if it is a reference. -/
def TypeExpr.ownSite (t : TypeExpr) : Multiset Site := sitesOf t.reference?.toList

theorem TypeExpr.sites_eq (t : TypeExpr) :
    t.sites = t.ownSite + (t.children.map TypeExpr.sites).sum := by
  rw [sites, references_eq, sitesOf_append, sitesOf_flatMap]
  rfl

theorem TypeExpr.ownSite_mapChildren (g : TypeExpr → TypeExpr) (t : TypeExpr) :
    (t.mapChildren g).ownSite = t.ownSite := by
  cases t <;> rfl

section Rebuilt

variable {f : TypeExpr → TypeExpr} (hf : ∀ t, (f t).sites ≤ t.sites)

include hf

/-- A type whose nodes are replaced by ones without further references gets none. -/
theorem TypeExpr.sites_map_le (t : TypeExpr) : (t.map f).sites ≤ t.sites := by
  induction t using TypeExpr.inductionOnChildren with
  | step t ih =>
    rw [TypeExpr.map_eq]
    refine (hf _).trans ?_
    rw [sites_eq, ownSite_mapChildren, children_mapChildren, sites_eq t, List.map_map]
    exact add_le_add_right (List.sum_le_sum fun c hc => ih c hc) _

theorem sum_sites_map_le (types : List TypeExpr) :
    ((types.map (TypeExpr.map f)).map TypeExpr.sites).sum ≤ (types.map TypeExpr.sites).sum := by
  rw [List.map_map]
  exact List.sum_le_sum fun t _ => TypeExpr.sites_map_le hf t

theorem NamedType.sites_mapArgs_le (t : NamedType) : (t.mapArgs f).sites ≤ t.sites := by
  have hspan : (t.mapArgs f).span = t.span := by
    obtain ⟨name, args, span⟩ := t
    rfl
  rw [sites_eq, sites_eq t, hspan, args_mapArgs]
  exact add_le_add_right (sum_sites_map_le hf _) _

theorem MethodType.sites_map_le (m : MethodType) : (m.map f).sites ≤ m.sites := by
  have htypes : ∀ m : MethodType, m.sites = (m.types.map TypeExpr.sites).sum := fun m => by
    rw [sites, references_eq, sitesOf_flatMap]
    rfl
  rw [htypes, htypes m, types_map]
  exact sum_sites_map_le hf _

theorem Member.sites_mapTypes_le (m : Member) :
    sitesOf (m.mapTypes f).references ≤ sitesOf m.references := by
  cases m with
  | method m =>
    show sitesOf ((m.overloads.map (MethodType.map f)).flatMap MethodType.references) ≤
      sitesOf (m.overloads.flatMap MethodType.references)
    rw [sitesOf_flatMap, sitesOf_flatMap, List.map_map]
    exact List.sum_le_sum fun o _ => MethodType.sites_map_le hf o
  | attr a => exact TypeExpr.sites_map_le hf a.type
  | typedVar v => exact TypeExpr.sites_map_le hf v.type
  | mixin m => exact NamedType.sites_mapArgs_le hf m.target
  | methodAlias _ | marker _ | nested _ => exact le_refl _

theorem sites_mapTypes_members_le (members : List Member) :
    sitesOf ((members.map (Member.mapTypes f)).flatMap Member.references) ≤
      sitesOf (members.flatMap Member.references) := by
  rw [sitesOf_flatMap, sitesOf_flatMap, List.map_map]
  exact List.sum_le_sum fun m _ => Member.sites_mapTypes_le hf m

end Rebuilt

/-! ## Names that are read as type parameters -/

theorem sites_adoptNode_le (params : List String) (t : TypeExpr) :
    (adoptNode params t).sites ≤ t.sites := by
  cases t with
  | named target =>
    obtain ⟨name, args, span⟩ := target
    rw [adoptNode]
    split
    · exact Multiset.zero_le _
    · exact le_refl _
  | _ => exact le_refl _

theorem EntityDecl.ownSites_adopt_le (params : List String) (d : EntityDecl) :
    (adoptDecl params d).ownSites ≤ d.ownSites := by
  have hnode := sites_adoptNode_le params
  cases d with
  | klass d =>
    rw [adoptDecl]
    split
    · have hsuper : sitesOf (((d.superClass.map (·.mapArgs (adoptNode params))).map
          NamedType.references).getD []) ≤
            sitesOf ((d.superClass.map NamedType.references).getD []) := by
        cases d.superClass with
        | none => exact le_refl _
        | some s => exact NamedType.sites_mapArgs_le hnode s
      rw [ownSites, ownSites, headerReferences, headerReferences, sitesOf_append, sitesOf_append]
      exact add_le_add (add_le_add_right (add_le_add_right hsuper _) _)
        (sites_mapTypes_members_le hnode d.members)
    · exact le_refl _
  | module d =>
    rw [adoptDecl]
    split
    · have hself : sitesOf ((d.selfTypes.map (·.mapArgs (adoptNode params))).flatMap
          NamedType.references) ≤ sitesOf (d.selfTypes.flatMap NamedType.references) := by
        rw [sitesOf_flatMap, sitesOf_flatMap, List.map_map]
        exact List.sum_le_sum fun t _ => NamedType.sites_mapArgs_le hnode t
      rw [ownSites, ownSites, headerReferences, headerReferences, sitesOf_append, sitesOf_append]
      exact add_le_add (add_le_add_right (add_le_add_right hself _) _)
        (sites_mapTypes_members_le hnode d.members)
    · exact le_refl _
  | interface _ | typeAlias _ | constant _ => exact le_refl _

/-! ## Environments -/

/-- Where the names and references of an entity start. -/
def Entry.sites (e : Entry) : Multiset Site := (e.fragments.map (·.decl.ownSites)).sum

/-- Where the names and references of all entities and global variables start. -/
def Environment.sites (env : Environment) : Multiset Site :=
  (env.entities.map Entry.sites).sum + (env.globals.values.map (·.decl.type.sites)).sum

/-- Where the names and references of declarations read from sources start. -/
def ParsedSources.sites (parsed : ParsedSources) : Multiset Site :=
  (parsed.map fun s => sitesOfAll (placements s.1 s.2)).sum

theorem ParsedSources.sites_eq (parsed : ParsedSources) :
    parsed.sites = sitesOfAll (parsed.flatMap fun s => placements s.1 s.2) := by
  induction parsed with
  | nil => rfl
  | cons s rest ih => rw [List.flatMap_cons, sitesOfAll_append, ← ih]; rfl

theorem Placement.gather_sites :
    Placement.gather EntityDecl.ownSites (·.type.sites) = Placement.sites := by
  funext p
  cases p <;> rfl

theorem Environment.sites_mergeSources_le (parsed : ParsedSources) :
    (mergeSources parsed).1.sites ≤ parsed.sites := by
  have hmerged := Environment.gather_mergeSources_le (·.type.sites) EntityDecl.ownSites_adopt_le
    parsed
  simp only [gatherAll, Placement.gather_sites] at hmerged
  exact hmerged

/-! ## Texts -/

/-- The lexemes of a text start at places of their own in its source. -/
theorem nodup_sites_start (source : SourceId) (text : String) (fuel : Option Nat) :
    (Cursor.start source text fuel).sites.Nodup := by
  refine Multiset.coe_nodup.2 (List.pairwise_map.2 ?_)
  exact (List.pairwise_map.1 (Lexeme.starts_ofText text)).imp fun hless heq =>
    absurd (Prod.mk.inj heq).2 (Nat.ne_of_lt hless)

theorem source_of_mem_sites {c : Cursor} {x : Site} (h : x ∈ c.sites) : x.1 = c.source := by
  obtain ⟨l, -, rfl⟩ := List.mem_map.1 (Multiset.mem_coe.1 h)
  rfl

/-- The names and references of a text start at lexemes of its own. -/
theorem sites_of_parseSource {limits : Limits} {source : SourceId} {text : String}
    {declarations : List Declaration} {errors : List Diagnostic}
    (h : parseSource limits source text = .ok (declarations, errors)) :
    sitesOfAll (placements source declarations) ≤
      (Cursor.start source text limits.execFuel).sites := by
  rcases runFile_of_parseSource h with rfl | ⟨c, hrun⟩
  · exact Multiset.zero_le _
  · obtain ⟨-, hle⟩ := Parser.file_takes _ _ _ _ rfl hrun
    rw [zero_add] at hle
    exact (Multiset.le_add_right _ _).trans hle

/-- The places of several sources are in these sources, and no two of them are the same if no source
is listed twice. -/
theorem ParsedSources.nodup_sites {parsed : ParsedSources} (hread : parsed.Read)
    (hids : (parsed.map (·.1)).Nodup) :
    parsed.sites.Nodup ∧ ∀ x ∈ parsed.sites, x.1 ∈ parsed.map (·.1) := by
  induction parsed with
  | nil => exact ⟨Multiset.nodup_zero, fun _ hx => absurd hx (Multiset.notMem_zero _)⟩
  | cons s rest ih =>
    obtain ⟨hs, hrest⟩ := List.forall_mem_cons.1 hread
    obtain ⟨limits, text, errors, hparse⟩ := hs
    rw [List.map_cons, List.nodup_cons] at hids
    obtain ⟨hnodup, hin⟩ := ih hrest hids.2
    have hsites := sites_of_parseSource hparse
    have hown : ∀ x ∈ sitesOfAll (placements s.1 s.2), x.1 = s.1 := fun x hx =>
      source_of_mem_sites (Multiset.mem_of_le hsites hx)
    have hsum : ParsedSources.sites (s :: rest) =
        sitesOfAll (placements s.1 s.2) + ParsedSources.sites rest := List.sum_cons
    rw [hsum]
    refine ⟨Multiset.nodup_add.2 ⟨Multiset.nodup_of_le hsites (nodup_sites_start _ _ _), hnodup,
      Multiset.disjoint_left.2 fun hx hx' => hids.1 (hown _ hx ▸ hin _ hx')⟩, fun x hx => ?_⟩
    rcases Multiset.mem_add.1 hx with hx | hx
    · rw [hown x hx]
      exact List.mem_cons_self
    · exact List.mem_cons_of_mem _ (hin x hx)

/-- No two names or references of an environment that is merged from texts start at one place. -/
theorem Environment.nodup_sites_of_read {parsed : ParsedSources} (hread : parsed.Read)
    (hids : (parsed.map (·.1)).Nodup) : (mergeSources parsed).1.sites.Nodup :=
  Multiset.nodup_of_le (sites_mergeSources_le parsed) (ParsedSources.nodup_sites hread hids).1

/-! ## Sessions -/

/-- Sources that are read one after the other keep their numbers. -/
theorem ids_of_parseSources {limits : Limits} {sources : List (SourceId × Source)}
    {parsed : ParsedSources} {errors : List Diagnostic}
    (h : parseSources limits sources = .ok (parsed, errors)) :
    parsed.map (·.1) = sources.map (·.1) := by
  induction sources generalizing parsed errors with
  | nil =>
    obtain ⟨rfl, -⟩ := Prod.mk.inj (Except.ok.inj h)
    rfl
  | cons s rest ih =>
    obtain ⟨declarations, own, others, -, hothers, rfl⟩ := exists_of_parseSources_cons h
    exact congrArg (s.1 :: ·) (ih hothers)

/-- No two sources of a session have one number. -/
theorem SourceMap.nodup_numbered (m : SourceMap) : (m.numbered.map (·.1)).Nodup := by
  have hnumbers : m.numbered.map (·.1) = m.sources.zipIdx.map (·.2) := by
    rw [numbered, List.map_map]
    rfl
  rw [hnumbers, List.zipIdx_map_snd]
  exact List.nodup_range'

end RubySig
