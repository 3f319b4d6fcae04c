import RubySig.Proofs.Environment.LoadOrder
import RubySig.Proofs.Validation.Soundness

/-!
# Superclasses of reopened classes

A class inherits from the superclass that its fragments write first; the later ones are only
compared with it. In a valid session they mean the same class, and each gives it the right number of
arguments. But the arguments are not compared.

* `Environment.denotedSuper?`: what the superclass of a fragment means.
* `Environment.SuperAgrees`: every fragment that writes a superclass means the one that counts.
* `cage_disagrees`: it may be otherwise in a valid session.
* `SessionSetup.superAgrees_iff`: in a valid session the fragments can disagree about nothing but
  the arguments.
-/

namespace RubySig

/-- Two lists of types differ only in where they are written. -/
def SameTypes (ts us : List TypeExpr) : Prop :=
  ts.map (TypeExpr.mapSpans Span.forget) = us.map (TypeExpr.mapSpans Span.forget)

instance : Std.Symm fun p q : TypeName × List TypeExpr => SameTypes p.2 q.2 := ⟨fun _ _ => Eq.symm⟩

/-- The variables among the types are the same. -/
theorem SameTypes.map_varName? {ts us : List TypeExpr} (h : SameTypes ts us) :
    ts.map TypeExpr.varName? = us.map TypeExpr.varName? := by
  have hspans : ∀ ts : List TypeExpr, (ts.map (TypeExpr.mapSpans Span.forget)).map
      TypeExpr.varName? = ts.map TypeExpr.varName? := by
    intro ts
    rw [List.map_map]
    refine List.map_congr_left fun t _ => ?_
    rw [Function.comp, TypeExpr.mapSpans_eq, TypeExpr.varName?_spanNode,
      TypeExpr.varName?_mapChildren]
  rw [← hspans ts, h, hspans]

/-! ## What fragments mean -/

namespace Environment

variable {env : Environment} {e : Entry} {f : Fragment EntityDecl}

/-- The superclass that a fragment writes: what it resolves to, and its arguments in terms of the
entity's own type parameters. -/
def denotedSuper? (env : Environment) (e : Entry) (f : Fragment EntityDecl) :
    Option (TypeName × List TypeExpr) :=
  f.decl.superClass?.bind fun t => (env.resolve? t.name f.nesting .asType).map fun name =>
    (name, env.siteArgs e f.decl.typeParams f.nesting t.args)

/-- Every fragment that writes a superclass means the class that the chains of the entity inherit
from, with the same arguments. -/
def SuperAgrees (env : Environment) (e : Entry) : Prop :=
  ∀ f ∈ e.fragments, f.decl.superClass?.isSome → ∃ name args used,
    env.denotedSuper? e f = some (name, args) ∧ env.superClass? e = some (name, used) ∧
      SameTypes args used

/-- A fragment that writes a superclass is preceded by the one that counts, or is it. -/
theorem exists_superClass?_of_written (hf : f ∈ e.fragments)
    (hwritten : f.decl.superClass?.isSome) :
    ∃ t g, e.superClass? = some (t, g) ∧ g ∈ e.fragments ∧ g.decl.superClass?.isSome := by
  obtain ⟨t, ht⟩ := Option.isSome_iff_exists.1 hwritten
  have hsome : e.superClass?.isSome := by
    rw [Entry.superClass?, List.findSome?_isSome_iff]
    exact ⟨f, hf, by rw [ht]; rfl⟩
  obtain ⟨⟨t, g⟩, hfirst⟩ := Option.isSome_iff_exists.1 hsome
  obtain ⟨hg, hsuper⟩ := superClass?_written hfirst
  exact ⟨t, g, hfirst, hg, Option.isSome_iff_exists.2 ⟨t, hsuper⟩⟩

theorem map_fst_denotedSuper? (env : Environment) (e : Entry) (f : Fragment EntityDecl) :
    (env.denotedSuper? e f).map (·.1) = env.resolvedSuper? f := by
  rw [denotedSuper?, resolvedSuper?]
  cases f.decl.superClass? with
  | none => rfl
  | some t => rw [Option.bind_some, Option.bind_some, Option.map_map]; exact Option.map_id' 

theorem denotedSuper?_eq_some {t : NamedType} {name : TypeName} {args : List TypeExpr}
    (ht : f.decl.superClass? = some t) (h : env.denotedSuper? e f = some (name, args)) :
    env.resolve? t.name f.nesting .asType = some name ∧
      args = env.siteArgs e f.decl.typeParams f.nesting t.args := by
  rw [denotedSuper?, ht, Option.bind_some, Option.map_eq_some_iff] at h
  obtain ⟨found, hresolve, hpair⟩ := h
  obtain ⟨rfl, rfl⟩ := Prod.mk.inj hpair
  exact ⟨hresolve, rfl⟩

/-- What the first superclass means counts, if it is a class. -/
theorem superClass?_of_denotedSuper? {t : NamedType} {name : TypeName} {args : List TypeExpr}
    (hfirst : e.superClass? = some (t, f)) (hdenoted : env.denotedSuper? e f = some (name, args))
    (hclass : env.isClass name) : env.superClass? e = some (name, args) := by
  obtain ⟨hresolve, rfl⟩ := denotedSuper?_eq_some (superClass?_written hfirst).2 hdenoted
  simp only [superClass?, writtenSuperClass?, hfirst, hresolve, hclass, if_true, Option.or]

/-- Where nothing is found a superclass is a class with the right number of arguments. -/
theorem Silent.denotedSuper? (h : env.Silent) (he : e ∈ env.entities) (hf : f ∈ e.fragments)
    (hwritten : f.decl.superClass?.isSome) :
    ∃ name args, env.denotedSuper? e f = some (name, args) ∧ env.isClass name ∧
      args.length = (env.paramsOf name).length := by
  obtain ⟨t, ht⟩ := Option.isSome_iff_exists.1 hwritten
  have hheader := h.header he hf
  obtain ⟨decl, nesting, source⟩ := f
  cases decl with
  | klass d =>
    have hd : d.superClass = some t := ht
    simp only [headerFindings, hd, Option.map_some, Option.getD_some, superClassFindings,
      List.append_eq_nil_iff] at hheader
    have hsuper := hheader.2.1
    cases hresolve : env.resolve t.name nesting .asType with
    | error missing =>
      rw [hresolve] at hsuper
      cases hsuper
    | ok name =>
      simp only [hresolve] at hsuper
      split at hsuper
      · rename_i hclass
        refine ⟨name, env.siteArgs e d.typeParams nesting t.args, ?_, hclass, ?_⟩
        · rw [Environment.denotedSuper?, ht, Option.bind_some, resolve?_eq_some_iff.2 hresolve]
          rfl
        · rw [arityFindings] at hsuper
          split at hsuper
          · rename_i hlength
            rw [siteArgs, List.length_map]
            exact hlength.symm
          · cases hsuper
      · cases hsuper
  | module _ | interface _ | typeAlias _ | constant _ => cases ht

end Environment

/-! ## Conflicts -/

theorem superClass?_name_adoptDecl (params : List String) (d : EntityDecl) :
    (adoptDecl params d).superClass?.map (·.name) = d.superClass?.map (·.name) := by
  cases d with
  | klass d =>
    rw [adoptDecl]
    split
    · show (d.superClass.map (NamedType.mapArgs (adoptNode params))).map (·.name) = _
      rw [Option.map_map]
      exact congrArg (Option.map · d.superClass) (funext fun t => by cases t; rfl)
    · rfl
  | module d => rw [adoptDecl]; split <;> rfl
  | interface _ | typeAlias _ | constant _ => rfl

namespace Environment

theorem resolvedSuper?_eq (env : Environment) (f : Fragment EntityDecl) :
    env.resolvedSuper? f =
      (f.decl.superClass?.map (·.name)).bind fun name => env.resolve? name f.nesting .asType := by
  rw [resolvedSuper?, Option.bind_map]
  rfl

/-- Letting fragments see the type parameters of their entities changes no class that is written as
a superclass. -/
theorem resolvedSuper?_adopt (env : Environment) (params : List String) :
    (adoptTypeParams env).resolvedSuper? ∘ adoptFragment params = env.resolvedSuper? := by
  funext f
  rw [Function.comp, resolvedSuper?_eq, resolvedSuper?_eq]
  show ((adoptDecl params f.decl).superClass?.map (·.name)).bind _ = _
  rw [superClass?_name_adoptDecl]
  exact congrArg _ (funext fun name => resolve?_congr (kind?_adoptTypeParams env) name _ _)

end Environment

/-- If sources merge without a conflict, all fragments of a class write the same superclass. -/
theorem pairwise_resolvedSuper_of_mergeSources {sources : List (SourceId × List Declaration)}
    (hnone : (mergeSources sources).2 = []) {name : TypeName} {e : Entry}
    (he : (mergeSources sources).1.get? name = some e) (hclass : e.kind = .klass) :
    (e.fragments.filterMap (mergeSources sources).1.resolvedSuper?).Pairwise (· = ·) := by
  have hsuper := ((mergeSources_eq_nil_iff sources).1 hnone).2
  have hnodup : (insertSources sources).env.names.Nodup :=
    Merge.nodup_keys_insertAll (m := Merge.empty) List.nodup_nil _
  have hmerged : (mergeSources sources).1 = adoptTypeParams (insertSources sources).env := rfl
  have hkind : (insertSources sources).env.kind? name = some .klass := by
    rw [← Environment.kind?_adoptTypeParams, ← hmerged]
    exact Environment.kind?_eq_some_iff.2 ⟨e, he, hclass⟩
  have hsame := (allSuperClassConflicts_eq_nil_iff hnodup).1 hsuper name hkind
  rw [← Environment.fragmentsOf_of_get? he, hmerged, Environment.fragmentsOf_adoptTypeParams,
    List.filterMap_map, Environment.resolvedSuper?_adopt]
  exact hsame

/-- What the fragments of a class agree in, they agree in with the one that counts. -/
theorem Environment.SuperAgrees.pairwise {env : Environment} {e : Entry} (h : env.SuperAgrees e) :
    (e.fragments.filterMap (env.denotedSuper? e)).Pairwise fun p q => SameTypes p.2 q.2 := by
  have hlike : ∀ p ∈ e.fragments.filterMap (env.denotedSuper? e), ∃ used,
      (env.superClass? e).map (·.2) = some used ∧ SameTypes p.2 used := by
    intro p hp
    obtain ⟨f, hf, hfp⟩ := List.mem_filterMap.1 hp
    have hwritten : f.decl.superClass?.isSome := by
      cases hsuper : f.decl.superClass? with
      | none => rw [Environment.denotedSuper?, hsuper] at hfp; cases hfp
      | some _ => rfl
    obtain ⟨super, args, used, hargs, hused, halike⟩ := h f hf hwritten
    obtain rfl := Option.some.inj (hfp.symm.trans hargs)
    exact ⟨used, by rw [hused]; rfl, halike⟩
  refine List.pairwise_of_forall_mem_list fun p hp q hq => ?_
  obtain ⟨used, hused, hp⟩ := hlike p hp
  obtain ⟨used', hused', hq⟩ := hlike q hq
  obtain rfl := Option.some.inj (hused.symm.trans hused')
  exact Eq.trans hp (Eq.symm hq)

/-- If all fragments mean one class as the superclass, the chains inherit from that class, with the
arguments of the fragment that counts. -/
theorem Environment.Silent.exists_used {env : Environment} {e : Entry} (h : env.Silent)
    (he : e ∈ env.entities) (hsame : (e.fragments.filterMap env.resolvedSuper?).Pairwise (· = ·))
    {f : Fragment EntityDecl} (hf : f ∈ e.fragments) (hwritten : f.decl.superClass?.isSome) :
    ∃ super args used g, env.denotedSuper? e f = some (super, args) ∧
      env.superClass? e = some (super, used) ∧ g ∈ e.fragments ∧
      env.denotedSuper? e g = some (super, used) ∧
      args.length = (env.paramsOf super).length ∧ used.length = (env.paramsOf super).length := by
  obtain ⟨t, g, hfirst, hg, hgwritten⟩ := exists_superClass?_of_written hf hwritten
  obtain ⟨super, args, hargs, -, hlength⟩ := h.denotedSuper? he hf hwritten
  obtain ⟨first, used, hused, hfirstClass, hfirstLength⟩ := h.denotedSuper? he hg hgwritten
  have hmem : ∀ {f : Fragment EntityDecl} {p : TypeName × List TypeExpr}, f ∈ e.fragments →
      env.denotedSuper? e f = some p → p.1 ∈ e.fragments.filterMap env.resolvedSuper? :=
    fun hf hp => List.mem_filterMap.2 ⟨_, hf, by rw [← map_fst_denotedSuper? _ e, hp]; rfl⟩
  obtain rfl : super = first :=
    hsame.forall_of_forall (fun _ _ => rfl) (hmem hf hargs) (hmem hg hused)
  exact ⟨super, args, used, g, hargs, superClass?_of_denotedSuper? hfirst hused hfirstClass, hg,
    hused, hlength, hfirstLength⟩

/-! ## Sessions -/

/-- In a valid session all fragments of a class mean one class as the superclass. -/
theorem SessionSetup.pairwise_resolvedSuper {setup : SessionSetup} {s : Session}
    (hbuild : setup.build = .ok s) (hvalid : s.validate = []) {name : TypeName} {e : Entry}
    (he : s.env.get? name = some e) (hclass : e.kind = .klass) :
    (e.fragments.filterMap s.env.resolvedSuper?).Pairwise (· = ·) := by
  obtain ⟨-, -, henv, hconflicts⟩ := parsed_of_build hbuild
  rw [henv] at he ⊢
  refine pairwise_resolvedSuper_of_mergeSources ?_ he hclass
  have hnone := (List.append_eq_nil_iff.1 (Diagnostic.eq_nil_of_sort_eq_nil hvalid)).1
  rw [hconflicts] at hnone
  exact Diagnostic.eq_nil_of_sort_eq_nil hnone

/-- In a valid session all fragments of a class that write a superclass mean the class that the
chains inherit from, with as many arguments as it has type parameters.  They also mean the same
arguments exactly if no two of them write different ones, and always if the superclass has no type
parameters. -/
theorem SessionSetup.superAgrees_iff {setup : SessionSetup} {s : Session}
    (hbuild : setup.build = .ok s) (hvalid : s.validate = []) {name : TypeName} {e : Entry}
    (he : s.env.get? name = some e) (hclass : e.kind = .klass) :
    (∀ f ∈ e.fragments, f.decl.superClass?.isSome → ∃ super args used,
      s.env.denotedSuper? e f = some (super, args) ∧ s.env.superClass? e = some (super, used) ∧
        args.length = (s.env.paramsOf super).length ∧
        used.length = (s.env.paramsOf super).length) ∧
    (s.env.SuperAgrees e ↔ (e.fragments.filterMap (s.env.denotedSuper? e)).Pairwise
      fun p q => SameTypes p.2 q.2) ∧
    ∀ super used, s.env.superClass? e = some (super, used) → s.env.paramsOf super = [] →
      s.env.SuperAgrees e := by
  have hentity := Environment.mem_entities_of_get? he
  have hsame := pairwise_resolvedSuper hbuild hvalid he hclass
  have hall := fun {f} (hf : f ∈ e.fragments) (hwritten : f.decl.superClass?.isSome) =>
    (Session.silent_of_validate hvalid).exists_used hentity hsame hf hwritten
  refine ⟨fun f hf hwritten => ?_,
    ⟨Environment.SuperAgrees.pairwise, fun hpairs f hf hwritten => ?_⟩,
    fun super used hsuper hplain f hf hwritten => ?_⟩
  · obtain ⟨super, args, used, g, hargs, hsuper, -, -, hlengths⟩ := hall hf hwritten
    exact ⟨super, args, used, hargs, hsuper, hlengths⟩
  · obtain ⟨super, args, used, g, hargs, hsuper, hg, hused, -⟩ := hall hf hwritten
    refine ⟨super, args, used, hargs, hsuper, ?_⟩
    have hreflexive : ∀ p ∈ e.fragments.filterMap (s.env.denotedSuper? e), SameTypes p.2 p.2 :=
      fun _ _ => rfl
    exact hpairs.forall_of_forall hreflexive (List.mem_filterMap.2 ⟨f, hf, hargs⟩)
      (List.mem_filterMap.2 ⟨g, hg, hused⟩)
  · obtain ⟨super', args, used', g, hargs, hsuper', -, -, hlength, hlength'⟩ := hall hf hwritten
    obtain ⟨rfl, rfl⟩ := Prod.mk.inj (Option.some.inj (hsuper.symm.trans hsuper'))
    rw [hplain] at hlength hlength'
    obtain rfl := List.eq_nil_of_length_eq_zero hlength
    obtain rfl := List.eq_nil_of_length_eq_zero hlength'
    exact ⟨super, [], [], hargs, hsuper', rfl⟩

/-- A generic class that is reopened with its superclass, for which the two given arguments are
written. -/
def cageSetup (first second : String) : SessionSetup :=
  .ofFile "a.rbs" ("class Box[T]\nend\n\nclass Cage[A, B] < Box[" ++ first ++
    "]\nend\n\nclass Cage[A, B] < Box[" ++ second ++ "]\nend\n")

set_option maxRecDepth 100000 in
/-- Nothing is found in `cageSetup "A" "B"`, but the reopening means another argument than the one
that counts. -/
theorem cage_disagrees : ∃ s e, (cageSetup "A" "B").build = .ok s ∧ s.validate = [] ∧
    s.env.get? (.topLevel "Cage") = some e ∧ e.kind = .klass ∧ ¬ s.env.SuperAgrees e := by
  obtain ⟨s, hbuild, hs⟩ := exists_ok_of_any (cageSetup "A" "B").build
    (fun s => s.validate.isEmpty && (s.env.get? (.topLevel "Cage")).any fun e => e.kind = .klass &&
      e.fragments.any fun f => f.decl.superClass?.isSome &&
        (s.env.denotedSuper? e f).map (·.2.map TypeExpr.varName?) ≠
          (s.env.superClass? e).map (·.2.map TypeExpr.varName?)) (by decide +kernel)
  simp only [Bool.and_eq_true, List.isEmpty_iff, Option.any_eq_true, List.any_eq_true,
    decide_eq_true_eq] at hs
  obtain ⟨hvalid, e, he, hclass, f, hf, hwritten, hother⟩ := hs
  refine ⟨s, e, hbuild, hvalid, he, hclass, fun hagrees => hother ?_⟩
  obtain ⟨name, args, used, hargs, hused, hsame⟩ := hagrees f hf hwritten
  rw [hargs, hused]
  exact congrArg some hsame.map_varName?

set_option maxRecDepth 100000 in
/-- In `cageSetup "A" "A"` both fragments mean the same. -/
theorem cage_agrees : ∃ s e, (cageSetup "A" "A").build = .ok s ∧ s.validate = [] ∧
    s.env.get? (.topLevel "Cage") = some e ∧ e.kind = .klass ∧ s.env.SuperAgrees e := by
  obtain ⟨s, hbuild, hs⟩ := exists_ok_of_any (cageSetup "A" "A").build
    (fun s => s.validate.isEmpty && (s.env.get? (.topLevel "Cage")).any fun e => e.kind = .klass &&
      (e.fragments.filterMap (s.env.denotedSuper? e)).all fun p =>
        p.2.map TypeExpr.varName? = [some "A"]) (by decide +kernel)
  simp only [Bool.and_eq_true, List.isEmpty_iff, Option.any_eq_true, List.all_eq_true,
    decide_eq_true_eq] at hs
  obtain ⟨hvalid, e, he, hclass, hargs⟩ := hs
  have hvars : ∀ p ∈ e.fragments.filterMap (s.env.denotedSuper? e), p.2 = [.var "A"] := by
    intro p hp
    obtain ⟨t, hpt, ht⟩ := List.map_eq_singleton_iff.1 (hargs p hp)
    rw [hpt, TypeExpr.eq_var_of_varName? ht]
  refine ⟨s, e, hbuild, hvalid, he, hclass, ?_⟩
  refine (SessionSetup.superAgrees_iff hbuild hvalid he hclass).2.1.2 ?_
  refine List.pairwise_of_forall_mem_list fun p hp q hq => ?_
  rw [hvars p hp, hvars q hq]
  rfl

end RubySig
