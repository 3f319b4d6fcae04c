import RubySig.Proofs.Environment.Merge
import RubySig.Proofs.Parser.BodyScope
import RubySig.Proofs.TypeExpr.Adoption
import RubySig.Session

/-!
# Variables in merged environments

A fragment of an entity sees the type parameters of its own list, or those of the entity if it has
no list.  In an environment that is merged from declarations read from texts every variable in a
fragment is one of these, and every list is as long as that of the entity.

* `Entry.scopeOf`, `Entry.Scoped`, `Environment.Scoped`: the property.
* `Entry.SameArity`, `mergeSources_sameArity`: the part of it that holds whatever is merged.
* `adoptDecl_scoped`: a declaration without a list gets to see the parameters of its entity.
* `Environment.OfTexts`, `Environment.OfTexts.scoped`: the property holds of what is merged from
  texts.
-/

namespace RubySig

/-! ## Scopes of fragments -/

/-- The type parameters that a fragment of an entity sees. -/
def Entry.scopeOf (e : Entry) (f : Fragment EntityDecl) : List String :=
  if f.decl.typeParams.isEmpty then e.paramNames else typeParamNames f.decl.typeParams

/-- The variables of each fragment are in its scope, and its parameter list, if there is one, is as
long as that of the entity. -/
structure Entry.Scoped (e : Entry) : Prop where
  closed : ∀ f ∈ e.fragments, f.decl.ScopedIn (e.scopeOf f)
  arity : ∀ f ∈ e.fragments,
    f.decl.typeParams = [] ∨ f.decl.typeParams.length = e.typeParams.length

/-- Each parameter list of a fragment, if there is one, is as long as that of the entity. -/
def Entry.SameArity (e : Entry) : Prop :=
  ∀ f ∈ e.fragments, f.decl.typeParams = [] ∨ f.decl.typeParams.length = e.typeParams.length

/-- All entities are scoped. -/
def Environment.Scoped (env : Environment) : Prop :=
  ∀ name e, env.get? name = some e → e.Scoped

/-! ## Parameter lists of reopened entities -/

theorem firstDeclared_append (xss : List (List TypeParam)) (xs : List TypeParam) :
    firstDeclared (xss ++ [xs]) = if firstDeclared xss = [] then xs else firstDeclared xss := by
  rw [firstDeclared, firstDeclared, List.find?_append]
  cases hfind : xss.find? fun ps => !ps.isEmpty with
  | none => cases xs <;> rfl
  | some ys =>
    have hys := List.find?_some hfind
    cases ys with
    | nil => cases hys
    | cons _ _ => rfl

theorem firstDeclared_append_of_ne {xss yss yss' : List (List TypeParam)}
    (h : ∃ xs ∈ xss, xs ≠ []) : firstDeclared (xss ++ yss) = firstDeclared (xss ++ yss') := by
  obtain ⟨xs, hxs, hne⟩ := h
  have hfound : ((xss.find? fun ps => !ps.isEmpty)).isSome := by
    rw [List.find?_isSome]
    exact ⟨xs, hxs, by rwa [Bool.not_eq_true', List.isEmpty_eq_false_iff]⟩
  obtain ⟨ys, hys⟩ := Option.isSome_iff_exists.1 hfound
  rw [firstDeclared, firstDeclared, List.find?_append, List.find?_append, hys]
  rfl

/-- The type parameters of an entity are those of one of its fragments, or there are none. -/
theorem Entry.exists_fragment_of_typeParams (e : Entry) :
    e.typeParams = [] ∨ ∃ f ∈ e.fragments, e.typeParams = f.decl.typeParams := by
  rw [Entry.typeParams, firstDeclared]
  cases hfind : (e.fragments.map (·.decl.typeParams)).find? fun ps => !ps.isEmpty with
  | none => exact Or.inl rfl
  | some ps =>
    obtain ⟨f, hf, rfl⟩ := List.mem_map.1 (List.mem_of_find?_eq_some hfind)
    exact Or.inr ⟨f, hf, rfl⟩

/-- An entity has no type parameters if none of its fragments declares any. -/
theorem Entry.typeParams_eq_nil_iff {e : Entry} :
    e.typeParams = [] ↔ ∀ f ∈ e.fragments, f.decl.typeParams = [] := by
  refine ⟨fun h f hf => ?_, fun h => ?_⟩
  · rw [Entry.typeParams, firstDeclared] at h
    cases hfind : (e.fragments.map (·.decl.typeParams)).find? fun ps => !ps.isEmpty with
    | none =>
      have hempty := List.find?_eq_none.1 hfind _ (List.mem_map_of_mem hf)
      rwa [Bool.not_eq_true, Bool.not_eq_false', List.isEmpty_iff] at hempty
    | some ps =>
      have hlist := List.find?_some hfind
      rw [hfind] at h
      obtain rfl : ps = [] := h
      cases hlist
  · rcases e.exists_fragment_of_typeParams with hnone | ⟨f, hf, hlist⟩
    · exact hnone
    · rw [hlist, h f hf]

/-- The type parameters of an entity with one more fragment. -/
theorem Entry.typeParams_reopen (e : Entry) (f : Fragment EntityDecl) :
    Entry.typeParams { e with reopenings := e.reopenings ++ [f] } =
      if e.typeParams = [] then f.decl.typeParams else e.typeParams := by
  show firstDeclared ((e.fragments ++ [f]).map (·.decl.typeParams)) = _
  rw [List.map_append]
  exact firstDeclared_append _ _

/-- A fragment that fits has no parameter list, or one that is as long as those before it. -/
theorem Merge.length_of_clash?_eq_none {e : Entry} {d : EntityDecl} (h : clash? e d = none) :
    e.typeParams = [] ∨ d.typeParams = [] ∨ d.typeParams.length = e.typeParams.length := by
  rw [clash?] at h
  split at h
  · cases h
  · split at h
    · cases h
    · rename_i hlength
      split at h
      · rename_i hreopen
        rw [arityOf, if_pos hreopen] at hlength
        by_cases he : e.typeParams = []
        · exact Or.inl he
        by_cases hd : d.typeParams = []
        · exact Or.inr (Or.inl hd)
        have hbefore := List.length_pos_iff.2 he
        have hhere := List.length_pos_iff.2 hd
        simp only [Bool.and_eq_true, decide_eq_true_eq, bne_iff_ne, not_and, not_not] at hlength
        exact Or.inr (Or.inr (hlength ⟨hbefore, hhere⟩).symm)
      · cases h

/-- A fragment that fits leaves all lists as long as that of the entity. -/
theorem Entry.SameArity.reopen {e : Entry} {f : Fragment EntityDecl} (h : e.SameArity)
    (hfits : Merge.clash? e f.decl = none) :
    Entry.SameArity { e with reopenings := e.reopenings ++ [f] } := by
  rw [SameArity, typeParams_reopen]
  show ∀ g ∈ e.fragments ++ [f], _
  refine List.forall_mem_append.2 ⟨fun g hg => ?_, List.forall_mem_singleton.2 ?_⟩
  · split
    · rename_i hnone
      have hlength := h g hg
      rw [hnone, List.length_nil, List.length_eq_zero_iff, or_self] at hlength
      exact Or.inl hlength
    · exact h g hg
  · split
    · exact Or.inr rfl
    · exact (Merge.length_of_clash?_eq_none hfits).resolve_left ‹_›

theorem Placement.keeps_sameArity (p : Placement) : p.Keeps Entry.SameArity := by
  cases p with
  | entity name f =>
    refine ⟨List.forall_mem_singleton.2 (Or.inr ?_), fun e _ he hfits => he.reopen hfits⟩
    exact congrArg List.length (firstDeclared_append [] f.decl.typeParams).symm
  | global f => trivial

/-- A placed fragment in the scope of its own list keeps all fragments of its entity in theirs. -/
theorem Placement.Scoped.keeps {p : Placement} (h : p.Scoped) :
    p.Keeps fun e => ∀ f ∈ e.fragments, f.decl.ScopedIn (typeParamNames f.decl.typeParams) := by
  cases p with
  | entity name f =>
    exact ⟨List.forall_mem_singleton.2 h, fun e _ he _ =>
      List.forall_mem_append.2 ⟨he, List.forall_mem_singleton.2 h⟩⟩
  | global f => trivial

/-! ## Fragments without a parameter list -/

theorem typeParams_adoptDecl (params : List String) (d : EntityDecl) :
    (adoptDecl params d).typeParams = d.typeParams := by
  cases d with
  | klass d | module d => rw [adoptDecl]; split <;> rfl
  | interface _ | typeAlias _ | constant _ => rfl

/-- Only type parameters of the entity are read as variables. -/
theorem scopedIn_adoptNode {params scope : List String} (hsub : params ⊆ scope) {t : TypeExpr}
    (h : t.ScopedIn scope) : (adoptNode params t).ScopedIn scope := by
  cases t with
  | named target =>
    obtain ⟨name, args, span⟩ := target
    rw [adoptNode]
    split
    · rename_i hparam
      rw [Bool.and_eq_true, List.contains_iff_mem] at hparam
      exact TypeExpr.scopedIn_var.2 (hsub hparam.2)
    · exact h
  | _ => exact h

theorem scopedIn_args_adopt {params : List String} {t : NamedType}
    (h : ∀ a ∈ t.args, a.ScopedIn params) :
    ∀ a ∈ (t.mapArgs (adoptNode params)).args, a.ScopedIn params := by
  rw [NamedType.args_mapArgs]
  exact List.forall_mem_map.2 fun a ha =>
    (h a ha).map fun _ ht => scopedIn_adoptNode (List.Subset.refl _) ht

/-- A declaration in the scope of its own list gets to see the parameters of the entity if it has
no list. -/
theorem adoptDecl_scoped (params : List String) {d : EntityDecl}
    (h : d.ScopedIn (typeParamNames d.typeParams)) :
    (adoptDecl params d).ScopedIn
      (if d.typeParams.isEmpty then params else typeParamNames d.typeParams) := by
  -- without a list there are no variables, so the parameters of the entity are all there can be
  have hnone : d.typeParams.isEmpty → d.ScopedIn params := fun hempty => by
    rw [List.isEmpty_iff.1 hempty] at h
    exact h.mono (List.nil_subset _)
  have hmembers : d.typeParams.isEmpty →
      ∀ m ∈ d.members.map (·.mapTypes (adoptNode params)), m.ScopedIn params :=
    fun hempty => List.forall_mem_map.2 fun m hm =>
      ((hnone hempty).members m hm).mapTypes fun _ hsub _ ht => scopedIn_adoptNode hsub ht
  split
  · rename_i hempty
    cases d with
    | klass d =>
      rw [adoptDecl, if_pos (show d.typeParams.isEmpty from hempty)]
      refine ⟨hmembers hempty, fun s hs => ?_⟩
      obtain ⟨t, ht, rfl⟩ := Option.map_eq_some_iff.1 hs
      exact scopedIn_args_adopt ((hnone hempty).superClass t ht)
    | module d =>
      rw [adoptDecl, if_pos (show d.typeParams.isEmpty from hempty)]
      exact ⟨hmembers hempty, fun _ hs => by cases hs⟩
    | interface _ | typeAlias _ | constant _ => exact hnone hempty
  · rename_i hlist
    cases d with
    | klass d | module d => rwa [adoptDecl, if_neg (show ¬ d.typeParams.isEmpty from hlist)]
    | interface _ | typeAlias _ | constant _ => exact h

theorem fragments_adoptEntry (e : Entry) :
    (adoptEntry e).fragments =
      if e.paramNames.isEmpty then e.fragments
      else e.fragments.map (adoptFragment e.paramNames) := by
  rw [adoptEntry]
  split <;> rfl

/-- Without parameters of the entity there is nothing to see. -/
theorem fragments_adoptEntry_eq_map (e : Entry) :
    (adoptEntry e).fragments = e.fragments.map (adoptFragment e.paramNames) := by
  rw [fragments_adoptEntry]
  split
  · rename_i hnone
    have hsame : adoptFragment [] = id := funext fun f => by
      rw [adoptFragment, adoptDecl_nil]
      rfl
    rw [List.isEmpty_iff.1 hnone, hsame, List.map_id]
  · rfl

theorem typeParams_adoptEntry (e : Entry) : (adoptEntry e).typeParams = e.typeParams := by
  rw [Entry.typeParams, fragments_adoptEntry, Entry.typeParams]
  split
  · rfl
  · rw [List.map_map]
    refine congrArg firstDeclared (List.map_congr_left fun f _ => ?_)
    exact typeParams_adoptDecl _ _

theorem Environment.get?_adoptTypeParams (env : Environment) (name : TypeName) :
    (adoptTypeParams env).get? name = (env.get? name).map adoptEntry :=
  OrderedMap.get?_mapValues _ _ _

theorem Entry.SameArity.adopt {e : Entry} (h : e.SameArity) : (adoptEntry e).SameArity := by
  rw [SameArity, fragments_adoptEntry_eq_map, typeParams_adoptEntry]
  refine List.forall_mem_map.2 fun g hg => ?_
  rw [adoptFragment, typeParams_adoptDecl]
  exact h g hg

/-- In the environment of any sources all parameter lists of an entity have one length. -/
theorem mergeSources_sameArity {sources : List (SourceId × List Declaration)} {name : TypeName}
    {e : Entry} (h : (mergeSources sources).1.get? name = some e) : e.SameArity := by
  obtain ⟨original, -, horiginal, rfl⟩ := exists_original_of_mergeSources
    (fun _ _ p _ => p.keeps_sameArity) h
  exact horiginal.adopt

/-- Fragments in the scopes of their own lists are in the scopes that they have in the entity, once
each fragment sees the parameters of the entity. -/
theorem closed_adoptEntry {e : Entry}
    (hown : ∀ f ∈ e.fragments, f.decl.ScopedIn (typeParamNames f.decl.typeParams)) :
    ∀ f ∈ (adoptEntry e).fragments, f.decl.ScopedIn ((adoptEntry e).scopeOf f) := by
  have hparams : (adoptEntry e).paramNames = e.paramNames := by
    rw [Entry.paramNames, typeParams_adoptEntry, Entry.paramNames]
  rw [fragments_adoptEntry_eq_map]
  refine List.forall_mem_map.2 fun g hg => ?_
  rw [Entry.scopeOf, hparams, adoptFragment, typeParams_adoptDecl]
  exact adoptDecl_scoped e.paramNames (hown g hg)

/-! ## Environments of texts -/

/-- Each list of declarations was read from a text. -/
def ParsedSources.Read (parsed : ParsedSources) : Prop :=
  ∀ p ∈ parsed, ∃ limits text errors, parseSource limits p.1 text = .ok (p.2, errors)

theorem ParsedSources.Read.scoped_placements {parsed : ParsedSources} (h : parsed.Read) :
    ∀ s ∈ parsed, ∀ p ∈ placements s.1 s.2, p.Scoped := by
  intro s hs p hp
  obtain ⟨limits, text, errors, hparse⟩ := h s hs
  obtain ⟨d, hd, hp⟩ := List.mem_flatMap.1 hp
  have hscoped := scoped_of_parseSource hparse d hd
  cases d with
  | entity d => exact hscoped _ _ p hp
  | global d => rw [List.mem_singleton.1 hp]; trivial

namespace Environment

/-- The environment of declarations that were read from texts. -/
def OfTexts (env : Environment) : Prop :=
  ∃ parsed : ParsedSources, parsed.Read ∧ env = (mergeSources parsed).1

variable {env : Environment}

theorem OfTexts.anchored (h : env.OfTexts) : env.Anchored := by
  obtain ⟨parsed, -, rfl⟩ := h
  exact mergeSources_anchored parsed

/-- In the environment of declarations that were read from texts every variable of a fragment is a
type parameter that the fragment sees, and all lists of an entity have one length. -/
theorem OfTexts.scoped (h : env.OfTexts) : env.Scoped := by
  obtain ⟨parsed, hread, rfl⟩ := h
  intro name e hget
  have harity := mergeSources_sameArity hget
  obtain ⟨original, -, hown, rfl⟩ := exists_original_of_mergeSources
    (fun s hs p hp => (hread.scoped_placements s hs p hp).keeps) hget
  exact ⟨closed_adoptEntry hown, harity⟩

end Environment

/-- Each source is read on its own. -/
theorem exists_of_parseSources_cons {limits : Limits} {id : SourceId} {source : Source}
    {rest : List (SourceId × Source)} {parsed : ParsedSources} {errors : List Diagnostic}
    (h : parseSources limits ((id, source) :: rest) = .ok (parsed, errors)) :
    ∃ declarations own others, parseSource limits id source.content = .ok (declarations, own) ∧
      parseSources limits rest = .ok others ∧ parsed = (id, declarations) :: others.1 := by
  rw [parseSources] at h
  cases hparse : parseSource limits id source.content with
  | error _ => rw [hparse] at h; cases h
  | ok read =>
    rw [hparse] at h
    dsimp only at h
    cases hothers : parseSources limits rest with
    | error _ => rw [hothers] at h; cases h
    | ok others =>
      rw [hothers] at h
      obtain ⟨rfl, -⟩ := Prod.mk.inj (Except.ok.inj h)
      exact ⟨read.1, read.2, others, rfl, rfl, rfl⟩

theorem parseSources_read {limits : Limits} {sources : List (SourceId × Source)}
    {parsed : ParsedSources} {errors : List Diagnostic}
    (h : parseSources limits sources = .ok (parsed, errors)) : parsed.Read := by
  induction sources generalizing parsed errors with
  | nil =>
    obtain ⟨rfl, -⟩ := Prod.mk.inj (Except.ok.inj h)
    exact fun _ hp => absurd hp List.not_mem_nil
  | cons s rest ih =>
    obtain ⟨declarations, own, others, hparse, hothers, rfl⟩ := exists_of_parseSources_cons h
    exact List.forall_mem_cons.2 ⟨⟨limits, s.2.content, own, hparse⟩, ih hothers⟩

end RubySig
