import RubySig.Proofs.Environment.LoadOrder
import RubySig.Proofs.Validation.Batches

/-!
# Singleton methods of interfaces

That an interface declares a singleton method is found twice: source by source, going down through
the declarations as they are written, and in the environment, where all declarations are stored
under their absolute names.  If no declarations conflict, both find the same.

* `Placement.singletons`: the singleton methods in a placed interface.
* `EntityDecl.Flat.mem_interfaceSingletons_iff`: a declaration, down through all levels of nesting.
* `mem_fileSingletons_iff`: what is found in one file.
* `ParsedSources.mem_interface_members_iff`: the interfaces of the environment are those placed.
* `SessionSetup.checkSources_agrees`: both find the same.
-/

namespace RubySig

/-! ## Interfaces in a file -/

/-- The singleton methods in a placed interface. -/
def Placement.singletons : Placement → List Diagnostic
  | .entity name f =>
    if f.decl.kind = .interface then f.decl.members.flatMap (singletonMethodFindings name) else []
  | .global _ => []

/-- The singleton methods in a body are those of the interface whose body it is, and those of the
declarations nested in it. -/
theorem mem_memberSingletons_iff {owner : TypeName} {isInterface : Bool} {members : List Member}
    {d : Diagnostic} :
    d ∈ memberSingletons owner isInterface members ↔
      (isInterface ∧ d ∈ members.flatMap (singletonMethodFindings owner)) ∨
        d ∈ (members.filterMap Member.nested?).flatMap (interfaceSingletons owner.toNamespace) := by
  induction members with
  | nil => simp [memberSingletons]
  | cons m rest ih =>
    cases m with
    | nested e =>
      have hnested : (Member.nested e :: rest).filterMap Member.nested? =
          e :: rest.filterMap Member.nested? := rfl
      have hown : singletonMethodFindings owner (.nested e) = [] := rfl
      rw [memberSingletons, List.mem_append, ih, hnested, List.flatMap_cons,
        hown, List.nil_append, List.flatMap_cons, List.mem_append, or_left_comm]
    | method m =>
      rw [memberSingletons, List.mem_append, ih, List.flatMap_cons, List.mem_append]
      cases isInterface <;> simp [Member.nested?, or_assoc]
    | attr _ | methodAlias _ | mixin _ | marker _ | typedVar _ =>
      rw [memberSingletons, ih]
      simp [Member.nested?, singletonMethodFindings]

/-- The singleton methods of a declaration are its own, if it is an interface, and those of the
declarations nested in it. -/
theorem mem_interfaceSingletons_iff {ns : Namespace} {decl : EntityDecl} {d : Diagnostic} :
    d ∈ interfaceSingletons ns decl ↔
      (decl.kind = .interface ∧
        d ∈ decl.members.flatMap (singletonMethodFindings (decl.name.placedIn ns))) ∨
      d ∈ decl.inner.flatMap (interfaceSingletons (decl.name.placedIn ns).toNamespace) := by
  cases decl with
  | klass k =>
    obtain ⟨⟩ := k
    rw [interfaceSingletons, classSingletons, mem_memberSingletons_iff]
    simp [EntityDecl.kind, EntityDecl.inner, EntityDecl.members, EntityDecl.name]
  | module k =>
    obtain ⟨⟩ := k
    rw [interfaceSingletons, moduleSingletons, mem_memberSingletons_iff]
    simp [EntityDecl.kind, EntityDecl.inner, EntityDecl.members, EntityDecl.name]
  | interface k =>
    obtain ⟨⟩ := k
    rw [interfaceSingletons, interfaceOwnSingletons, mem_memberSingletons_iff]
    simp [EntityDecl.kind, EntityDecl.inner, EntityDecl.members, EntityDecl.name]
  | typeAlias _ | constant _ =>
    simp [interfaceSingletons, EntityDecl.kind, EntityDecl.inner, EntityDecl.members]

/-- Going down through a declaration finds what is found in the interfaces placed for it. -/
theorem EntityDecl.Flat.mem_interfaceSingletons_iff {decl : EntityDecl} (h : decl.Flat)
    (source : SourceId) (nesting : Nesting) {d : Diagnostic} :
    d ∈ interfaceSingletons nesting.innermost decl ↔
      d ∈ (placeEntity source nesting decl).flatMap Placement.singletons := by
  induction h generalizing nesting with
  | @node decl body inner ih =>
    rw [RubySig.mem_interfaceSingletons_iff, RubySig.placeEntity_eq body, List.flatMap_cons,
      List.mem_append, Placement.singletons, List.flatMap_assoc]
    refine or_congr ?_ ?_
    · split <;> simp [*]
    · rw [List.mem_flatMap, List.mem_flatMap]
      refine exists_congr fun e => and_congr_right fun he => ?_
      exact ih e he (nesting.enter (decl.name.placedIn nesting.innermost).toNamespace)

theorem mem_fileSingletons_iff {declarations : List Declaration} (h : ∀ d ∈ declarations, d.Flat)
    (source : SourceId) {d : Diagnostic} :
    d ∈ fileSingletons declarations ↔
      d ∈ (placements source declarations).flatMap Placement.singletons := by
  rw [fileSingletons, placements, List.flatMap_assoc, List.mem_flatMap, List.mem_flatMap]
  refine exists_congr fun decl => and_congr_right fun hdecl => ?_
  cases decl with
  | entity e => exact EntityDecl.Flat.mem_interfaceSingletons_iff (h _ hdecl) source .topLevel
  | global _ => simp [Placement.singletons]

theorem ParsedSources.Read.mem_fileSingletons_iff {parsed : ParsedSources} (hread : parsed.Read)
    {d : Diagnostic} : d ∈ (parsed.flatMap fun s => fileSingletons s.2) ↔
      ∃ name m, (∃ f, .entity name f ∈ parsed.flatMap (fun s => placements s.1 s.2) ∧
        f.decl.kind = .interface ∧ m ∈ f.decl.members) ∧ d ∈ singletonMethodFindings name m := by
  have hplaced : d ∈ (parsed.flatMap fun s => fileSingletons s.2) ↔
      d ∈ (parsed.flatMap fun s => placements s.1 s.2).flatMap Placement.singletons := by
    rw [List.flatMap_assoc, List.mem_flatMap, List.mem_flatMap]
    refine exists_congr fun s => and_congr_right fun hs => ?_
    obtain ⟨limits, text, errors, hparse⟩ := hread s hs
    exact RubySig.mem_fileSingletons_iff (flat_of_parseSource hparse) s.1
  rw [hplaced, List.mem_flatMap]
  constructor
  · rintro ⟨p, hp, hd⟩
    cases p with
    | entity name f =>
      rw [Placement.singletons] at hd
      split at hd
      · rename_i hkind
        obtain ⟨m, hm, hd⟩ := List.mem_flatMap.1 hd
        exact ⟨name, m, ⟨f, hp, hkind, hm⟩, hd⟩
      · cases hd
    | global _ => cases hd
  · rintro ⟨name, m, ⟨f, hp, hkind, hm⟩, hd⟩
    refine ⟨.entity name f, hp, ?_⟩
    rw [Placement.singletons, if_pos hkind]
    exact List.mem_flatMap.2 ⟨m, hm, hd⟩

/-! ## Interfaces in the environment -/

theorem adoptDecl_interface {params : List String} {d : EntityDecl} (h : d.kind = .interface) :
    adoptDecl params d = d := by
  cases d with
  | interface _ => rfl
  | klass _ | module _ | typeAlias _ | constant _ => cases h

/-- If no declarations conflict, the members of the interfaces in the environment are those of the
interfaces that are placed. -/
theorem ParsedSources.mem_interface_members_iff {parsed : ParsedSources}
    (hconflicts : (mergeSources parsed).2 = []) {name : TypeName} {m : Member} :
    (∃ e ∈ (mergeSources parsed).1.entities, e.name = name ∧ e.kind = .interface ∧ m ∈ e.members) ↔
      ∃ f, .entity name f ∈ parsed.flatMap (fun s => placements s.1 s.2) ∧
        f.decl.kind = .interface ∧ m ∈ f.decl.members := by
  have hstores : (insertSources parsed).Stores (parsed.flatMap fun s => placements s.1 s.2) :=
    (Merge.stores_empty.insertAll .nil rfl _).2 (List.append_eq_nil_iff.1 hconflicts).1
  have hadopted := Environment.fragmentsOf_adoptTypeParams (insertSources parsed).env name
  constructor
  · rintro ⟨e, he, rfl, hkind, hm⟩
    obtain ⟨b, hb, hm⟩ := List.mem_flatMap.1 hm
    have hbodies : e.hasBodies = true := by rw [Entry.hasBodies, hkind]
    rw [Entry.bodies, if_pos hbodies] at hb
    obtain ⟨f, hf, rfl⟩ := List.mem_map.1 hb
    have hfkind : f.decl.kind = .interface := (mergeSources_uniform he f hf).trans hkind
    rw [← Environment.fragmentsOf_of_get? (Environment.get?_of_mem_entities he)] at hf
    change f ∈ (adoptTypeParams (insertSources parsed).env).fragmentsOf e.name at hf
    rw [hadopted] at hf
    obtain ⟨g, hg, rfl⟩ := List.mem_map.1 hf
    have hgkind : g.decl.kind = .interface := (kind_adoptDecl _ _).symm.trans hfkind
    refine ⟨g, hstores.mem_fragmentsOf.1 hg, hgkind, ?_⟩
    change m ∈ (adoptDecl _ g.decl).members at hm
    rwa [adoptDecl_interface hgkind] at hm
  · rintro ⟨f, hf, hkind, hm⟩
    have hstored := List.mem_map_of_mem (f := adoptFragment (typeParamNames
      ((adoptTypeParams (insertSources parsed).env).paramsOf name))) (hstores.mem_fragmentsOf.2 hf)
    rw [← hadopted] at hstored
    obtain ⟨e, hget, hfe⟩ := Environment.mem_fragmentsOf hstored
    have he := Environment.mem_entities_of_get? hget
    have huniform := mergeSources_uniform he _ hfe
    have hekind : e.kind = .interface := by
      rw [← huniform]
      exact (kind_adoptDecl _ _).trans hkind
    refine ⟨e, he, (mergeSources_anchored parsed name e hget).named, hekind, ?_⟩
    have hbodies : e.hasBodies = true := by rw [Entry.hasBodies, hekind]
    rw [Entry.members, Entry.bodies, if_pos hbodies, List.flatMap_map]
    refine List.mem_flatMap.2 ⟨_, hfe, ?_⟩
    show m ∈ (adoptDecl _ f.decl).members
    rwa [adoptDecl_interface hkind]

/-! ## Sessions -/

/-- A member of an interface is found to be a singleton method at its own place, once. -/
theorem span_of_mem_singletonMethodFindings {name : TypeName} {m : Member} {d : Diagnostic}
    (h : d ∈ singletonMethodFindings name m) : d.span = m.span ∧ m.isPlain := by
  cases m with
  | method m =>
    rw [singletonMethodFindings] at h
    split at h
    · rw [List.mem_singleton.1 h]
      exact ⟨rfl, rfl⟩
    · cases h
  | attr _ | methodAlias _ | mixin _ | marker _ | typedVar _ | nested _ => cases h

theorem eq_of_mem_singletonMethodFindings {name : TypeName} {m : Member} {d d' : Diagnostic}
    (h : d ∈ singletonMethodFindings name m) (h' : d' ∈ singletonMethodFindings name m) :
    d = d' := by
  cases m with
  | method m =>
    rw [singletonMethodFindings] at h h'
    split at h
    · rename_i hside
      rw [if_pos hside] at h'
      rw [List.mem_singleton.1 h, List.mem_singleton.1 h']
    · cases h
  | attr _ | methodAlias _ | mixin _ | marker _ | typedVar _ | nested _ => cases h

/-- Every singleton method in an interface of a session is reported. -/
theorem Session.mem_validate_interface_iff {setup : SessionSetup} {s : Session}
    (hbuild : setup.build = .ok s) {d : Diagnostic} (hd : d.kind = .interfaceSingletonMethod) :
    d ∈ s.validate ↔ ∃ e ∈ s.env.entities, e.kind = .interface ∧
      ∃ m ∈ e.members, d ∈ singletonMethodFindings e.name m := by
  have hkeyed := SessionSetup.get?_of_mem_entities hbuild
  have hraw : ∀ {d : Diagnostic}, d.kind = .interfaceSingletonMethod →
      (d ∈ s.env.rawFindings ↔ _) := fun hd =>
    Environment.mem_rawFindings_interface hkeyed hd
  rw [mem_validate_iff hbuild (by rw [hd]; decide), ← hraw hd]
  refine ⟨Diagnostic.mem_of_mem_dedupe, fun h => Diagnostic.mem_dedupe_of_unique h ?_⟩
  intro d' h' hkind hspan
  obtain ⟨e, he, -, m, hm, h⟩ := (hraw hd).1 h
  obtain ⟨e', he', -, m', hm', h'⟩ := (hraw (hkind.trans hd)).1 h'
  obtain ⟨hplace, hplain⟩ := span_of_mem_singletonMethodFindings h
  obtain ⟨hplace', hplain'⟩ := span_of_mem_singletonMethodFindings h'
  -- the member at the place is the only one
  obtain ⟨rfl, rfl⟩ := SessionSetup.member_eq_of_span hbuild (Environment.mem_members.2 ⟨he, hm⟩)
    (Environment.mem_members.2 ⟨he', hm'⟩) hplain hplain'
    (hplace.symm.trans (hspan.symm.trans hplace'))
  exact eq_of_mem_singletonMethodFindings h' h

/-- If the declarations of a session do not conflict, checking its sources one by one finds the same
singleton methods in interfaces as validating the session. -/
theorem SessionSetup.checkSources_agrees {setup : SessionSetup} {s : Session}
    (hbuild : setup.build = .ok s) (hconflicts : s.conflicts = []) :
    ∃ found, setup.checkSources = .ok (s.sources, found) ∧
      ∀ d : Diagnostic, d.kind = .interfaceSingletonMethod → (d ∈ found ↔ d ∈ s.validate) := by
  obtain ⟨hsources, hparsed, henv, hsorted⟩ := loaded_of_build hbuild
  refine ⟨Diagnostic.sort s.sources (s.declarations.flatMap fun p => fileSingletons p.2), ?_, ?_⟩
  · simp only [checkSources, hsources, hparsed, bind, Except.bind, List.nil_append]
    rfl
  · intro d hd
    have hnone : (mergeSources s.declarations).2 = [] :=
      Diagnostic.eq_nil_of_sort_eq_nil (hsorted.symm.trans hconflicts)
    rw [Diagnostic.mem_sort, (parseSources_read hparsed).mem_fileSingletons_iff,
      Session.mem_validate_interface_iff hbuild hd, henv]
    simp only [← ParsedSources.mem_interface_members_iff hnone]
    constructor
    · rintro ⟨-, m, ⟨e, he, rfl, hkind, hm⟩, hfound⟩
      exact ⟨e, he, hkind, m, hm, hfound⟩
    · rintro ⟨e, he, hkind, m, hm, hfound⟩
      exact ⟨e.name, m, ⟨e, he, rfl, hkind, hm⟩, hfound⟩

/-- Interfaces with singleton methods, one nested, one with a compound name and one with an absolute
name in a module. -/
def sidedSetup : SessionSetup :=
  .ofFile "a.rbs" ("module Outer\n  interface _Inner\n    def self.make: () -> void\n  end\n" ++
    "  interface ::_Top\n    def self?.both: () -> void\n  end\nend\n\n" ++
    "interface Outer::_Flat\n  def self.cut: () -> void\n  def plain: () -> void\nend\n")

/-- What is wrong with them. -/
def sidedIssues : List Issue :=
  [.interfaceSingletonMethod ⟨⟨["Outer"], true⟩, "_Inner"⟩ "make",
    .interfaceSingletonMethod (.topLevel "_Top") "both",
    .interfaceSingletonMethod ⟨⟨["Outer"], true⟩, "_Flat"⟩ "cut"]

set_option maxRecDepth 100000 in
/-- Checking the file alone finds all three. -/
theorem sided_agrees : ∃ s found, sidedSetup.build = .ok s ∧ s.conflicts = [] ∧
    sidedSetup.checkSources = .ok (s.sources, found) ∧
    ∀ issue ∈ sidedIssues, ∃ d ∈ found, d ∈ s.validate ∧ d.issue = issue := by
  obtain ⟨s, hbuild, hs⟩ := exists_ok_of_any sidedSetup.build
    (fun s => s.conflicts.isEmpty && decide (s.env.findings.map (·.issue) = sidedIssues))
    (by decide +kernel)
  rw [Bool.and_eq_true, List.isEmpty_iff, decide_eq_true_eq] at hs
  obtain ⟨hconflicts, hissues⟩ := hs
  obtain ⟨found, hfound, hagrees⟩ := SessionSetup.checkSources_agrees hbuild hconflicts
  refine ⟨s, found, hbuild, hconflicts, hfound, ?_⟩
  intro issue hissue
  have hkind : issue.kind = .interfaceSingletonMethod := by
    revert issue
    decide
  rw [← hissues] at hissue
  obtain ⟨d, hd, rfl⟩ := List.mem_map.1 hissue
  have hvalidate : d ∈ s.validate := Diagnostic.mem_sort.2 (List.mem_append_right _ hd)
  exact ⟨d, (hagrees d hkind).2 hvalidate, hvalidate, rfl⟩

end RubySig
