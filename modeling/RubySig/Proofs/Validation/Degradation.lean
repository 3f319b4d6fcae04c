import RubySig.Proofs.Validation.Exact
import RubySig.Proofs.Validation.Soundness

/-!
# Ancestry does not degrade silently

A chain is built from whatever makes sense of what is written: a directive whose target does not
resolve or is of the wrong kind is left out, a superclass that is no class gives way to `::Object`,
and a wrong number of arguments is made right. The checks of headers and members look at the same
places for reasons of their own. They agree: wherever a chain falls short of what is written, there
is a diagnostic at the place.

* `Substitution.Adjusts`: binding parameters to arguments fills some in or drops some.
* `Environment.TakesIn`, `Environment.InheritsFrom`: what is written becomes part of the chains.
* `Environment.Degrades`: where the chains of an entity fall short of what is written, and which
  issues account for it.
* `SessionSetup.reports_of_degrades`: one of these issues is reported.
-/

namespace RubySig

/-! ## Arguments -/

/-- Binding parameters to arguments fills in an argument or drops one. -/
def Substitution.Adjusts (params : List String) (args : List TypeExpr) : Prop :=
  (pairArgs params args).map (·.2) ≠ args

theorem Substitution.adjusts_iff {params : List String} {args : List TypeExpr} :
    Adjusts params args ↔ args.length ≠ params.length := by
  rw [Adjusts, not_iff_not]
  constructor
  · intro h
    -- there is a pair for each parameter
    have hlength := congrArg List.length (map_fst_pairArgs params args)
    rw [← h, ← hlength, List.length_map, List.length_map]
  · exact map_snd_pairArgs

namespace Environment

variable {env : Environment} {e : Entry}

theorem adjusts_siteArgs_iff {target : TypeName} {params : List TypeParam} {nesting : Nesting}
    {args : List TypeExpr} :
    Substitution.Adjusts (typeParamNames (env.paramsOf target))
        (env.siteArgs e params nesting args) ↔
      args.length ≠ (env.paramsOf target).length := by
  rw [Substitution.adjusts_iff, siteArgs, List.length_map, typeParamNames, List.length_map]

/-! ## What is made of what is written -/

/-- A directive in a body of an entity gives a splice that is part of one of its chains. -/
def TakesIn (env : Environment) (e : Entry) (b : Body) (m : Mixin) : Prop :=
  ∃ blueprint splice, env.entryBlueprint e m.kind.side = .ok blueprint ∧
    splice ∈ blueprint.splices ∧ env.mixinSplice? e b m = some splice

/-- The chains of an entity go on with those of the class that a name stands for. -/
def InheritsFrom (env : Environment) (e : Entry) (name : TypeName) (nesting : Nesting) : Prop :=
  ∃ found, env.resolve? name nesting .asType = some found ∧
    ∀ context blueprint, env.entryBlueprint e context = .ok blueprint →
      blueprint.tail.map (·.key) = [⟨found, context⟩]

/-- The chains of an entity fall short of what is written at some place. Each case comes with the
issues that account for it. A class that writes no superclass inherits from `::Object` without
arguments, but there is no place where this is written. -/
inductive Degrades (env : Environment) (e : Entry) : List IssueKind → Span → Prop
  /-- A directive is left out. -/
  | leftOut {b : Body} {m : Mixin} (hb : b ∈ e.bodies) (hm : Member.mixin m ∈ b.members)
      (hskipped : ¬ env.TakesIn e b m) :
      Degrades env e [.noTypeFound, .invalidMixinTarget] m.target.span
  /-- The superclass that is written first is not the one that counts. -/
  | replaced {t : NamedType} {f : Fragment EntityDecl} (hwritten : e.superClass? = some (t, f))
      (hother : ¬ env.InheritsFrom e t.name f.nesting) :
      Degrades env e [.noTypeFound, .invalidSuperclass] t.span
  /-- The arguments of a directive's target are filled up or cut off. -/
  | mixinArgs {b : Body} {m : Mixin} {splice : Splice} (hb : b ∈ e.bodies)
      (hm : Member.mixin m ∈ b.members) (hsplice : env.mixinSplice? e b m = some splice)
      (hadjusts : Substitution.Adjusts (typeParamNames (env.paramsOf splice.key.name))
        (env.siteArgs e b.typeParams b.nesting m.target.args)) :
      Degrades env e [.arityMismatch] m.target.span
  /-- The arguments of the superclass are filled up or cut off. -/
  | superArgs {t : NamedType} {f : Fragment EntityDecl} {name : TypeName} {args : List TypeExpr}
      (hwritten : e.superClass? = some (t, f))
      (hsuper : env.writtenSuperClass? e = some (name, args))
      (hadjusts : Substitution.Adjusts (typeParamNames (env.paramsOf name)) args) :
      Degrades env e [.arityMismatch] t.span

/-- Every directive that makes a splice is taken in. -/
theorem takesIn_of_mixinSplice? {b : Body} {m : Mixin} {splice : Splice} (hb : b ∈ e.bodies)
    (hm : Member.mixin m ∈ b.members) (h : env.mixinSplice? e b m = some splice) :
    env.TakesIn e b m := by
  obtain ⟨target, kind, -, -, hallowed, -⟩ := mixinSplice?_eq_some h
  have hbodies : e.hasBodies := by
    by_contra hnone
    rw [Entry.bodies, if_neg hnone] at hb
    cases hb
  have hside : m.kind.side ∈ sides e.kind := by
    revert hallowed hbodies
    rw [Entry.hasBodies]
    cases e.kind <;> cases m.kind <;> cases kind <;> decide
  obtain ⟨blueprint, hblueprint⟩ : ∃ blueprint, env.entryBlueprint e m.kind.side = .ok blueprint :=
    exists_entryBlueprint hside
  have hmem : splice ∈ env.mixinSplices e m.kind :=
    List.mem_flatMap.2 ⟨b, hb, List.mem_filterMap.2 ⟨m, mem_mixins_iff.2 ⟨hm, rfl⟩, h⟩⟩
  exact ⟨blueprint, splice, hblueprint,
    ((pieces_of_entryBlueprint hblueprint).splices splice).2 (.mixin rfl hmem), h⟩

/-- A superclass that resolves to a class is the one that counts. -/
theorem inheritsFrom_of_isClass {t : NamedType} {f : Fragment EntityDecl} {name : TypeName}
    (hkind : e.kind = .klass) (hwritten : e.superClass? = some (t, f))
    (hresolve : env.resolve? t.name f.nesting .asType = some name) (hclass : env.isClass name) :
    env.InheritsFrom e t.name f.nesting := by
  have hsuper : env.superClass? e =
      some (name, env.siteArgs e f.decl.typeParams f.nesting t.args) := by
    simp only [superClass?, writtenSuperClass?, hwritten, hresolve, hclass, if_true, Option.or]
  exact ⟨name, hresolve, fun _ _ => keys_tail_of_superClass hkind hsuper⟩

/-! ## What is found there -/

/-- What is found first at a name that is unfit for its place. -/
theorem exists_mem_cons_append {d : Diagnostic} {rest : List Diagnostic} {kinds : List IssueKind}
    (h : d.kind ∈ kinds) : ∃ d' ∈ [d] ++ rest, d'.kind ∈ kinds ∧ d'.span = d.span :=
  ⟨d, List.mem_append_left _ (List.mem_singleton_self d), h, rfl⟩

/-- What is found at a directive's target if the target is left out. -/
theorem exists_finding_of_leftOut {b : Body} {m : Mixin} (h : env.mixinSplice? e b m = none) :
    ∃ d ∈ env.mixinFindings e b.nesting m,
      d.kind ∈ [IssueKind.noTypeFound, .invalidMixinTarget] ∧ d.span = m.target.span := by
  rw [mixinSplice?, resolve?] at h
  unfold mixinFindings
  cases hresolve : env.resolve m.target.name b.nesting .asType with
  | error missing =>
    exact exists_mem_cons_append List.mem_cons_self
  | ok target =>
    obtain ⟨kind, hkind⟩ := exists_kind_of_resolve hresolve
    simp only [hresolve, Except.toOption, hkind, ite_eq_right_iff, reduceCtorEq, imp_false] at h
    simp only [hkind, Option.map_some, Option.getD_some, if_neg h]
    exact exists_mem_cons_append (List.mem_cons_of_mem _ List.mem_cons_self)

/-- What is found at a superclass that is not a class. -/
theorem exists_finding_of_replaced {name : TypeName} {nesting : Nesting} {t : NamedType}
    (h : ∀ found, env.resolve? t.name nesting .asType = some found → ¬ env.isClass found) :
    ∃ d ∈ env.superClassFindings name nesting t,
      d.kind ∈ [IssueKind.noTypeFound, .invalidSuperclass] ∧ d.span = t.span := by
  unfold superClassFindings
  cases hresolve : env.resolve t.name nesting .asType with
  | error missing =>
    exact exists_mem_cons_append List.mem_cons_self
  | ok found =>
    have hclass := h found (resolve?_eq_some_iff.2 hresolve)
    simp only [if_neg hclass]
    exact exists_mem_cons_append (List.mem_cons_of_mem _ List.mem_cons_self)

/-- A wrong number of arguments is found where it is written. -/
theorem exists_finding_of_length_ne {resolved : TypeName} {t : NamedType}
    (h : t.args.length ≠ (env.paramsOf resolved).length) :
    ∃ d ∈ env.arityFindings resolved t, d.kind = .arityMismatch ∧ d.span = t.span := by
  rw [arityFindings, if_neg (Ne.symm h)]
  exact ⟨_, List.mem_singleton_self _, rfl, rfl⟩

theorem arityFindings_subset_superClassFindings {found : TypeName} {nesting : Nesting}
    {t : NamedType} (name : TypeName) (hresolve : env.resolve? t.name nesting .asType = some found)
    (hclass : env.isClass found) :
    env.arityFindings found t ⊆ env.superClassFindings name nesting t := by
  unfold superClassFindings
  simp only [resolve?_eq_some_iff.1 hresolve, if_pos hclass]
  exact List.subset_append_left _ _

theorem arityFindings_subset_mixinFindings {b : Body} {m : Mixin} {splice : Splice}
    (h : env.mixinSplice? e b m = some splice) :
    env.arityFindings splice.key.name m.target ⊆ env.mixinFindings e b.nesting m := by
  obtain ⟨target, kind, hresolve, hkind, hallowed, rfl⟩ := mixinSplice?_eq_some h
  unfold mixinFindings
  simp only [hresolve, hkind, Option.map_some, Option.getD_some, if_pos hallowed]
  exact List.subset_append_left _ _

/-! ## Where it is found -/

theorem mem_rawFindings_of_entry (he : e ∈ env.entities) {d : Diagnostic}
    (h : d ∈ e.fragments.flatMap (env.headerFindings e) ∨ d ∈ env.bodyFindings e) :
    d ∈ env.rawFindings := by
  refine List.mem_append_left _ (List.mem_flatMap.2 ⟨e, he, ?_⟩)
  simp only [entryFindings, List.mem_append]
  tauto

theorem mem_rawFindings_of_mixin (he : e ∈ env.entities) {b : Body} (hb : b ∈ e.bodies) {m : Mixin}
    (hm : Member.mixin m ∈ b.members) {d : Diagnostic} (h : d ∈ env.mixinFindings e b.nesting m) :
    d ∈ env.rawFindings := by
  refine mem_rawFindings_of_entry he (Or.inr (List.mem_flatMap.2 ⟨b, hb, ?_⟩))
  exact List.mem_flatMap.2 ⟨_, hm, List.mem_append_right _ h⟩

theorem mem_rawFindings_of_superClass (he : e ∈ env.entities) {t : NamedType}
    {f : Fragment EntityDecl} (hwritten : e.superClass? = some (t, f)) {d : Diagnostic}
    (h : d ∈ env.superClassFindings e.name f.nesting t) : d ∈ env.rawFindings := by
  obtain ⟨hf, hsuper⟩ := superClass?_written hwritten
  refine mem_rawFindings_of_entry he (Or.inl (List.mem_flatMap.2 ⟨f, hf, ?_⟩))
  obtain ⟨decl, nesting, source⟩ := f
  cases decl with
  | klass k =>
    have hk : k.superClass = some t := hsuper
    simp only [headerFindings, hk, Option.map_some, Option.getD_some]
    exact List.mem_append_right _ h
  | module _ | interface _ | typeAlias _ | constant _ => cases hsuper

end Environment

/-! ## Sessions -/

/-- Whatever is found in the environment of a session is reported, perhaps as another diagnostic of
the same kind at the same place. -/
theorem Session.reports_of_mem_rawFindings {s : Session} {d : Diagnostic}
    (h : d ∈ s.env.rawFindings) : s.Reports d.kind d.span := by
  obtain ⟨d', hd', hissue⟩ := Diagnostic.exists_mem_dedupe_iff.2 ⟨d, h, rfl, rfl⟩
  exact ⟨d', Diagnostic.mem_sort.2 (List.mem_append_right _ hd'), hissue⟩

/-- Wherever the chains of an entity fall short of what is written, one of the issues that account
for it is reported at the place. -/
theorem SessionSetup.reports_of_degrades {setup : SessionSetup} {s : Session}
    (hbuild : setup.build = .ok s) {name : TypeName} {e : Entry} (he : s.env.get? name = some e)
    {kinds : List IssueKind} {span : Span} (h : s.env.Degrades e kinds span) :
    ∃ kind ∈ kinds, s.Reports kind span := by
  have hentity := Environment.mem_entities_of_get? he
  have hreport : ∀ d ∈ s.env.rawFindings, d.kind ∈ kinds → d.span = span →
      ∃ kind ∈ kinds, s.Reports kind span := fun d hd hkind hspan =>
    ⟨d.kind, hkind, hspan ▸ Session.reports_of_mem_rawFindings hd⟩
  cases h with
  | @leftOut b m hb hm hskipped =>
    have hnone : s.env.mixinSplice? e b m = none := by
      refine Option.eq_none_iff_forall_ne_some.2 fun splice hsplice => hskipped ?_
      exact Environment.takesIn_of_mixinSplice? hb hm hsplice
    obtain ⟨d, hd, hkind, hspan⟩ := Environment.exists_finding_of_leftOut hnone
    exact hreport d (Environment.mem_rawFindings_of_mixin hentity hb hm hd) hkind hspan
  | @replaced t f hwritten hother =>
    obtain ⟨hf, hsuper⟩ := Environment.superClass?_written hwritten
    have hclass : e.kind = .klass := by
      obtain ⟨parsed, henv⟩ := env_of_build hbuild
      rw [henv] at hentity
      rw [← mergeSources_uniform hentity f hf]
      obtain ⟨decl, nesting, source⟩ := f
      cases decl with
      | klass _ => rfl
      | module _ | interface _ | typeAlias _ | constant _ => cases hsuper
    have hnone : ∀ found, s.env.resolve? t.name f.nesting .asType = some found →
        ¬ s.env.isClass found := fun found hresolve hfound =>
      hother (Environment.inheritsFrom_of_isClass hclass hwritten hresolve hfound)
    obtain ⟨d, hd, hkind, hspan⟩ := Environment.exists_finding_of_replaced hnone
    exact hreport d (Environment.mem_rawFindings_of_superClass hentity hwritten hd) hkind hspan
  | @mixinArgs b m splice hb hm hsplice hadjusts =>
    have hlength := Environment.adjusts_siteArgs_iff.1 hadjusts
    obtain ⟨d, hd, hkind, hspan⟩ := Environment.exists_finding_of_length_ne hlength
    have hfound := Environment.arityFindings_subset_mixinFindings hsplice hd
    exact hreport d (Environment.mem_rawFindings_of_mixin hentity hb hm hfound)
      (List.mem_singleton.2 hkind) hspan
  | @superArgs t f super args hwritten hsuper hadjusts =>
    obtain ⟨t', f', hwritten', hresolve, hclass, rfl⟩ :=
      Environment.writtenSuperClass?_eq_some hsuper
    obtain ⟨rfl, rfl⟩ := Prod.mk.inj (Option.some.inj (hwritten.symm.trans hwritten'))
    have hlength := Environment.adjusts_siteArgs_iff.1 hadjusts
    obtain ⟨d, hd, hkind, hspan⟩ := Environment.exists_finding_of_length_ne hlength
    have hfound := Environment.arityFindings_subset_superClassFindings e.name hresolve hclass hd
    exact hreport d (Environment.mem_rawFindings_of_superClass hentity hwritten hfound)
      (List.mem_singleton.2 hkind) hspan

/-- A class whose superclass is not declared, which includes a class, and includes a generic module
without an argument, and a class that inherits without an argument. -/
def strayedSetup : SessionSetup :=
  .ofFile "a.rbs" ("module Plain[T]\nend\n\nclass Bag[T]\nend\n\n" ++
    "class Odd < Gone\n  include Bag\n  include Plain\nend\n\nclass Short < Bag\nend\n")

set_option maxRecDepth 100000 in
/-- All four are reported. -/
theorem strayed_reports : ∃ s odd short, strayedSetup.build = .ok s ∧
    s.env.get? (.topLevel "Odd") = some odd ∧ s.env.get? (.topLevel "Short") = some short ∧
    (∃ t f, odd.superClass? = some (t, f) ∧ ¬ s.env.InheritsFrom odd t.name f.nesting ∧
      ∃ kind ∈ [IssueKind.noTypeFound, .invalidSuperclass], s.Reports kind t.span) ∧
    (∃ b ∈ odd.bodies, ∃ m, Member.mixin m ∈ b.members ∧ ¬ s.env.TakesIn odd b m ∧
      ∃ kind ∈ [IssueKind.noTypeFound, .invalidMixinTarget], s.Reports kind m.target.span) ∧
    (∃ b ∈ odd.bodies, ∃ m, Member.mixin m ∈ b.members ∧ s.env.TakesIn odd b m ∧
      ∃ kind ∈ [IssueKind.arityMismatch], s.Reports kind m.target.span) ∧
    ∃ t f, short.superClass? = some (t, f) ∧ s.env.InheritsFrom short t.name f.nesting ∧
      ∃ kind ∈ [IssueKind.arityMismatch], s.Reports kind t.span := by
  obtain ⟨s, hbuild, hs⟩ := exists_ok_of_any strayedSetup.build
    (fun s => ((s.env.get? (.topLevel "Odd")).any fun e =>
        (e.superClass?.any fun p => (s.env.resolve? p.1.name p.2.nesting .asType).isNone) &&
        (e.bodies.any fun b => (b.mixins .included).any fun m =>
          (s.env.mixinSplice? e b m).isNone) &&
        e.bodies.any fun b => (b.mixins .included).any fun m =>
          (s.env.mixinSplice? e b m).any fun splice =>
            m.target.args.length ≠ (s.env.paramsOf splice.key.name).length) &&
      (s.env.get? (.topLevel "Short")).any fun e => e.kind = .klass &&
        (s.env.writtenSuperClass? e).any fun p => p.2.length ≠ (s.env.paramsOf p.1).length)
    (by decide +kernel)
  simp only [Bool.and_eq_true, Option.any_eq_true, List.any_eq_true, mem_mixins_iff,
    Option.isNone_iff_eq_none, decide_eq_true_eq, Prod.exists] at hs
  obtain ⟨⟨odd, hodd, ⟨⟨t, f, htf, hgone⟩, b, hb, m, ⟨hm, -⟩, hout⟩,
    b', hb', m', ⟨hm', -⟩, splice, hsplice, hargs⟩, short, hshort, hkind, name, args, hsuper,
    hshortArgs⟩ := hs
  obtain ⟨t', f', hwritten, hresolve, hclass, -⟩ := Environment.writtenSuperClass?_eq_some hsuper
  have hother : ¬ s.env.InheritsFrom odd t.name f.nesting := by
    rintro ⟨found, hfound, -⟩
    rw [hgone] at hfound
    cases hfound
  have hskipped : ¬ s.env.TakesIn odd b m := by
    rintro ⟨-, splice, -, -, hsplice⟩
    rw [hout] at hsplice
    cases hsplice
  have hshortAdjusts : Substitution.Adjusts (typeParamNames (s.env.paramsOf name)) args := by
    rw [Substitution.adjusts_iff, typeParamNames, List.length_map]
    exact hshortArgs
  refine ⟨s, odd, short, hbuild, hodd, hshort, ⟨t, f, htf, hother, ?_⟩,
    ⟨b, hb, m, hm, hskipped, ?_⟩,
    ⟨b', hb', m', hm', Environment.takesIn_of_mixinSplice? hb' hm' hsplice, ?_⟩,
    t', f', hwritten, Environment.inheritsFrom_of_isClass hkind hwritten hresolve hclass, ?_⟩
  · exact SessionSetup.reports_of_degrades hbuild hodd (.replaced htf hother)
  · exact SessionSetup.reports_of_degrades hbuild hodd (.leftOut hb hm hskipped)
  · exact SessionSetup.reports_of_degrades hbuild hodd
      (.mixinArgs hb' hm' hsplice (Environment.adjusts_siteArgs_iff.2 hargs))
  · exact SessionSetup.reports_of_degrades hbuild hshort
      (.superArgs hwritten hsuper hshortAdjusts)

end RubySig
