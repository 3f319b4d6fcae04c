import RubySig.Proofs.Resolution.Specification
import RubySig.Proofs.Substitution.Composition

/-!
# Types with their names resolved

Resolving the names in a type changes its names alone, node by node.  So it can be done before or
after a substitution, and a name that was resolved is never looked up in other scopes again.

* `Environment.absolutizeNode_mapChildren`: a node with other children.
* `Mention`, `Environment.lookUp`: the names in a type, and what becomes of one.
* `Environment.mentions_absolutize`: what becomes of all names in a type.
* `Environment.absolutize_absolutize`: in the same scopes nothing is left to resolve.
* `Substitution.absolutized`, `Environment.absolutize_apply`, `Environment.absolutizeMethod_apply`:
  resolving after a substitution.
* `Environment.absolutize_stable_and_commutes`: these laws in the environment of any sources.
-/

namespace RubySig

/-! ## Names at nodes -/

/-- A name in a type, and what it is used as. -/
structure Mention where
  /-- The name. -/
  name : TypeName
  /-- What it is used as. -/
  usage : Usage
  deriving Repr, Inhabited, DecidableEq

/-- The name of a reference. -/
def Reference.mention : Reference → Mention
  | .named target => ⟨target.name, .asType⟩
  | .singleton target => ⟨target.name, .asNamespace⟩

/-- The names in a type, in the order in which they are written. -/
def TypeExpr.mentions (t : TypeExpr) : List Mention := t.references.map Reference.mention

theorem TypeExpr.mentions_eq (t : TypeExpr) :
    t.mentions = (t.reference?.map Reference.mention).toList ++
      t.children.flatMap TypeExpr.mentions := by
  rw [mentions, references_eq, List.map_append, List.map_flatMap]
  cases t.reference? <;> rfl

theorem TypeExpr.mention_mapChildren (g : TypeExpr → TypeExpr) (t : TypeExpr) :
    (t.mapChildren g).reference?.map Reference.mention = t.reference?.map Reference.mention := by
  cases t <;> rfl

namespace Environment

variable (env : Environment)

/-- What becomes of a name in some scopes: it is resolved, or kept if it denotes nothing. -/
def lookUp (nesting : Nesting) (m : Mention) : Mention :=
  ⟨(env.resolve? m.name nesting m.usage).getD m.name, m.usage⟩

/-- The name denotes something in some scopes. -/
def Finds (nesting : Nesting) (m : Mention) : Prop :=
  (env.resolve? m.name nesting m.usage).isSome

instance (nesting : Nesting) (m : Mention) : Decidable (env.Finds nesting m) :=
  inferInstanceAs (Decidable ((env.resolve? m.name nesting m.usage).isSome = true))

variable {env} {nesting : Nesting}

theorem children_absolutizeNode (nesting : Nesting) (t : TypeExpr) :
    (env.absolutizeNode nesting t).children = t.children := by
  cases t with
  | named target => cases target; rfl
  | singleton target => cases target; rfl
  | _ => rfl

theorem absolutizeNode_mapChildren (nesting : Nesting) (g : TypeExpr → TypeExpr) (t : TypeExpr) :
    env.absolutizeNode nesting (t.mapChildren g) =
      (env.absolutizeNode nesting t).mapChildren g := by
  cases t with
  | named target => cases target; rfl
  | singleton target => cases target; rfl
  | _ => rfl

theorem varName?_absolutizeNode (nesting : Nesting) (t : TypeExpr) :
    (env.absolutizeNode nesting t).varName? = t.varName? := by
  cases t with
  | named target => cases target; rfl
  | singleton target => cases target; rfl
  | _ => rfl

theorem mention_absolutizeNode (nesting : Nesting) (t : TypeExpr) :
    (env.absolutizeNode nesting t).reference?.map Reference.mention =
      (t.reference?.map Reference.mention).map (env.lookUp nesting) := by
  cases t with
  | named target => cases target; rfl
  | singleton target => cases target; rfl
  | _ => rfl

theorem absolutize_eq (nesting : Nesting) (t : TypeExpr) :
    env.absolutize nesting t =
      (env.absolutizeNode nesting t).mapChildren (env.absolutize nesting) := by
  rw [absolutize, TypeExpr.map_eq, absolutizeNode_mapChildren]
  rfl

/-- Every name in a type is looked up where it stands. -/
theorem mentions_absolutize (nesting : Nesting) (t : TypeExpr) :
    (env.absolutize nesting t).mentions = t.mentions.map (env.lookUp nesting) := by
  induction t using TypeExpr.inductionOnChildren with
  | step t ih =>
    rw [absolutize_eq, TypeExpr.mentions_eq, TypeExpr.mention_mapChildren, mention_absolutizeNode,
      TypeExpr.children_mapChildren, children_absolutizeNode, TypeExpr.mentions_eq t,
      List.map_append, List.flatMap_map, List.map_flatMap, List.flatMap_congr ih]
    cases t.reference? <;> rfl

/-! ## Looking up twice -/

/-- A name that was resolved is not looked up again, in whatever scopes. -/
theorem lookUp_of_finds (henv : env.Anchored) {m : Mention} (h : env.Finds nesting m)
    (other : Nesting) : env.lookUp other (env.lookUp nesting m) = env.lookUp nesting m := by
  obtain ⟨found, hfound⟩ := Option.isSome_iff_exists.1 h
  have hagain := resolve_resolved henv (resolve?_eq_some_iff.1 hfound) other
  rw [lookUp, lookUp, hfound, Option.getD_some, resolve?_eq_some_iff.2 hagain, Option.getD_some]

/-- A name that denotes nothing is kept. -/
theorem lookUp_of_not_finds {m : Mention} (h : ¬ env.Finds nesting m) :
    env.lookUp nesting m = m := by
  rw [lookUp, Option.not_isSome_iff_eq_none.1 h, Option.getD_none]

/-- In other scopes only what was not found is looked up. -/
theorem lookUp_lookUp_other (henv : env.Anchored) (other : Nesting) (m : Mention) :
    env.lookUp other (env.lookUp nesting m) =
      if env.Finds nesting m then env.lookUp nesting m else env.lookUp other m := by
  by_cases h : env.Finds nesting m
  · rw [if_pos h, lookUp_of_finds henv h other]
  · rw [if_neg h, lookUp_of_not_finds h]

theorem lookUp_lookUp (henv : env.Anchored) (m : Mention) :
    env.lookUp nesting (env.lookUp nesting m) = env.lookUp nesting m := by
  by_cases h : env.Finds nesting m
  · exact lookUp_of_finds henv h nesting
  · rw [lookUp_of_not_finds h, lookUp_of_not_finds h]

/-- A node is what it is, apart from its name. -/
theorem absolutizeNode_absolutizeNode {t : TypeExpr} {other : Nesting}
    (h : ∀ m ∈ t.reference?.map Reference.mention, env.lookUp other (env.lookUp nesting m) =
      env.lookUp nesting m) :
    env.absolutizeNode other (env.absolutizeNode nesting t) = env.absolutizeNode nesting t := by
  cases t with
  | named target =>
    obtain ⟨name, args, span⟩ := target
    have hname := congrArg Mention.name (h ⟨name, .asType⟩ rfl)
    exact congrArg (fun name => TypeExpr.named ⟨name, args, span⟩) hname
  | singleton target =>
    obtain ⟨name, span⟩ := target
    have hname := congrArg Mention.name (h ⟨name, .asNamespace⟩ rfl)
    exact congrArg (fun name => TypeExpr.singleton ⟨name, span⟩) hname
  | _ => rfl

/-- A type is left as it is where each of its names is. -/
theorem absolutize_absolutize_of_lookUp {t : TypeExpr} {other : Nesting}
    (h : ∀ m ∈ t.mentions, env.lookUp other (env.lookUp nesting m) = env.lookUp nesting m) :
    env.absolutize other (env.absolutize nesting t) = env.absolutize nesting t := by
  induction t using TypeExpr.inductionOnChildren with
  | step t ih =>
    rw [TypeExpr.mentions_eq] at h
    have hnode : env.absolutizeNode other (env.absolutizeNode nesting t) =
        env.absolutizeNode nesting t :=
      absolutizeNode_absolutizeNode fun m hm =>
        h m (List.mem_append_left _ (Option.mem_toList.2 hm))
    rw [absolutize_eq nesting t, absolutize_eq other, absolutizeNode_mapChildren, hnode,
      TypeExpr.mapChildren_mapChildren]
    refine TypeExpr.mapChildren_congr fun c hc => ?_
    rw [children_absolutizeNode] at hc
    exact ih c hc fun m hm => h m (List.mem_append_right _ (List.mem_flatMap.2 ⟨c, hc, hm⟩))

theorem absolutize_absolutize (henv : env.Anchored) (t : TypeExpr) :
    env.absolutize nesting (env.absolutize nesting t) = env.absolutize nesting t :=
  absolutize_absolutize_of_lookUp fun m _ => lookUp_lookUp henv m

end Environment

/-! ## Resolving after a substitution -/

/-- The substitution with the names in its values resolved. -/
def Substitution.absolutized (env : Environment) (nesting : Nesting) (s : Substitution) :
    Substitution :=
  ⟨s.bindings.mapValues (env.absolutize nesting)⟩

namespace Environment

variable {env : Environment} {nesting : Nesting}

theorem image_absolutized (s : Substitution) (v : String) :
    (s.absolutized env nesting).image v = env.absolutize nesting (s.image v) := by
  rw [Substitution.image, Substitution.get?, Substitution.absolutized, OrderedMap.get?_mapValues,
    Substitution.image, Substitution.get?]
  cases s.bindings.get? v <;> rfl

/-- Variables have no names to resolve, and the names in what is put in their place are resolved in
its stead. -/
theorem absolutize_apply (s : Substitution) (t : TypeExpr) :
    env.absolutize nesting (s.apply t) =
      (s.absolutized env nesting).apply (env.absolutize nesting t) := by
  induction t using TypeExpr.inductionOnChildren with
  | step t ih =>
    cases ht : t.varName? with
    | some v =>
      have hvar : env.absolutize nesting (.var v) = .var v := rfl
      rw [TypeExpr.eq_var_of_varName? ht, hvar, Substitution.apply_var, Substitution.apply_var,
        image_absolutized]
    | none =>
      have hnode : ((env.absolutizeNode nesting t).mapChildren
          (env.absolutize nesting)).varName? = none := by
        rw [TypeExpr.varName?_mapChildren, varName?_absolutizeNode, ht]
      rw [s.apply_of_varName?_eq_none ht, absolutize_eq, absolutizeNode_mapChildren,
        absolutize_eq nesting t, Substitution.apply_of_varName?_eq_none _ hnode,
        TypeExpr.mapChildren_mapChildren, TypeExpr.mapChildren_mapChildren]
      refine TypeExpr.mapChildren_congr fun c hc => ih c ?_
      rwa [children_absolutizeNode] at hc

theorem without_absolutized (s : Substitution) (names : List String) :
    (s.absolutized env nesting).without names = (s.without names).absolutized env nesting := by
  obtain ⟨⟨pairs⟩⟩ := s
  show Substitution.mk ⟨(pairs.map _).filter _⟩ = Substitution.mk ⟨(pairs.filter _).map _⟩
  rw [List.filter_map]
  rfl

/-- The same in an overload, whose own type parameters are never replaced. -/
theorem absolutizeMethod_applyMethod (s : Substitution) (m : MethodType) :
    env.absolutizeMethod nesting (s.applyMethod m) =
      (s.absolutized env nesting).applyMethod (env.absolutizeMethod nesting m) := by
  have hown : typeParamNames (env.absolutizeMethod nesting m).typeParams =
      typeParamNames m.typeParams := MethodType.typeParamNames_map _ m
  rw [Substitution.applyMethod_eq, Substitution.applyMethod_eq, hown, without_absolutized]
  refine MethodType.map_map_congr fun t _ => ?_
  have hcommutes := @absolutize_apply env nesting (s.without (typeParamNames m.typeParams)) t
  rwa [Substitution.apply_eq, Substitution.apply_eq] at hcommutes

theorem absolutizeMethod_absolutizeMethod (henv : env.Anchored) (m : MethodType) :
    env.absolutizeMethod nesting (env.absolutizeMethod nesting m) =
      env.absolutizeMethod nesting m :=
  MethodType.map_map fun t _ => absolutize_absolutize henv t

/-- Values without names to resolve are kept. -/
theorem absolutized_eq_self {s : Substitution} (h : ∀ t ∈ s.values, env.absolutize nesting t = t) :
    s.absolutized env nesting = s := by
  obtain ⟨⟨pairs⟩⟩ := s
  have hpairs : ∀ p ∈ pairs, (p.1, env.absolutize nesting p.2) = id p := fun p hp => by
    rw [h p.2 (List.mem_map_of_mem hp)]
    rfl
  exact congrArg (fun ps => Substitution.mk ⟨ps⟩) ((List.map_congr_left hpairs).trans pairs.map_id)

/-- The laws of resolving the names in types, in the environment of any sources.  Nothing is left to
resolve in the same scopes; in other scopes only those names are looked up that were not found
before; and with the values of a substitution resolved too, it can be done before or after the
resolving. -/
theorem absolutize_stable_and_commutes (sources : List (SourceId × List Declaration))
    (nesting : Nesting) :
    let env := (mergeSources sources).1
    ((∀ t, env.absolutize nesting (env.absolutize nesting t) = env.absolutize nesting t) ∧
      ∀ m, env.absolutizeMethod nesting (env.absolutizeMethod nesting m) =
        env.absolutizeMethod nesting m) ∧
    (∀ t, (env.absolutize nesting t).mentions = t.mentions.map (env.lookUp nesting) ∧
      ∀ other, ((env.absolutize other (env.absolutize nesting t)).mentions = t.mentions.map
          fun m => if env.Finds nesting m then env.lookUp nesting m else env.lookUp other m) ∧
        ((∀ m ∈ t.mentions, env.Finds nesting m) →
          env.absolutize other (env.absolutize nesting t) = env.absolutize nesting t)) ∧
    (∀ (s : Substitution) (t : TypeExpr), env.absolutize nesting (s.apply t) =
      (s.absolutized env nesting).apply (env.absolutize nesting t)) ∧
    (∀ (s : Substitution) (m : MethodType), env.absolutizeMethod nesting (s.applyMethod m) =
      (s.absolutized env nesting).applyMethod (env.absolutizeMethod nesting m)) ∧
    ∀ s : Substitution, (∀ t ∈ s.values, env.absolutize nesting t = t) →
      (∀ t, env.absolutize nesting (s.apply t) = s.apply (env.absolutize nesting t)) ∧
      ∀ m, env.absolutizeMethod nesting (s.applyMethod m) =
        s.applyMethod (env.absolutizeMethod nesting m) := by
  intro env
  have henv : env.Anchored := mergeSources_anchored sources
  refine ⟨⟨absolutize_absolutize henv, absolutizeMethod_absolutizeMethod henv⟩,
    fun t => ⟨mentions_absolutize nesting t, fun other => ⟨?_, fun hfinds => ?_⟩⟩, absolutize_apply,
    absolutizeMethod_applyMethod, fun s hs => ⟨fun t => ?_, fun m => ?_⟩⟩
  · rw [mentions_absolutize, mentions_absolutize, List.map_map]
    refine List.map_congr_left fun m _ => ?_
    exact lookUp_lookUp_other henv other m
  · exact absolutize_absolutize_of_lookUp fun m hm => lookUp_of_finds henv (hfinds m hm) other
  · rw [absolutize_apply, absolutized_eq_self hs]
  · rw [absolutizeMethod_applyMethod, absolutized_eq_self hs]

end Environment

end RubySig
