import Mathlib.Data.List.Basic
import RubySig.Proofs.Resolution

/-!
# What it means to resolve a name

A name resolves to the first of its candidates that denotes something.  If none does, the name is
blamed on one candidate, and of that the shortest part is missing that is not what it has to be.

* `TypeName.Encloses`: a name and those in front of its last segments.
* `Usage.Fits`: the kinds of entities that a name of a spelling can be used for.
* `Environment.Opens`, `Environment.Denoted`: what is declared under a name.
* `Environment.Blamed`: the candidate on which a name that denotes nothing is blamed.
* `Environment.Resolves`: the outcome of resolving a name.
* `Environment.resolve_meets_spec`: the outcome is that of `Environment.resolve`.
-/

namespace RubySig

/-! ## Enclosing names -/

/-- The segments of `p` are the first ones of `n`: `p` is `n` itself or the name of a scope around
it. -/
structure TypeName.Encloses (p n : TypeName) : Prop where
  anchor : p.isAbsolute = n.isAbsolute
  segments : p.segments <+: n.segments

namespace TypeName

variable {p q n : TypeName}

theorem encloses_refl (n : TypeName) : n.Encloses n := ⟨rfl, List.prefix_rfl⟩

theorem Encloses.trans (hpq : p.Encloses q) (hqn : q.Encloses n) : p.Encloses n :=
  ⟨hpq.anchor.trans hqn.anchor, hpq.segments.trans hqn.segments⟩

theorem ext_segments (hanchor : p.isAbsolute = n.isAbsolute) (h : p.segments = n.segments) :
    p = n := by
  obtain ⟨⟨path, absolute⟩, name⟩ := p
  obtain ⟨⟨path', absolute'⟩, name'⟩ := n
  obtain ⟨hpath, hname⟩ := List.append_inj' h rfl
  obtain rfl : path = path' := hpath
  obtain rfl : absolute = absolute' := hanchor
  obtain rfl : name = name' := (List.cons.inj hname).1
  rfl

/-- Of two names around a third one, the one with fewer segments is around the other. -/
theorem Encloses.of_length_le (hp : p.Encloses n) (hq : q.Encloses n)
    (hlength : p.segments.length ≤ q.segments.length) : p.Encloses q :=
  ⟨hp.anchor.trans hq.anchor.symm, List.prefix_of_prefix_length_le hp.segments hq.segments hlength⟩

theorem Encloses.length_lt (h : p.Encloses n) (hne : p ≠ n) :
    p.segments.length < n.segments.length :=
  Nat.lt_of_le_of_ne h.segments.length_le fun heq =>
    hne (ext_segments h.anchor (h.segments.eq_of_length heq))

theorem toTypeName?_eq_some_iff {ns : Namespace} :
    ns.toTypeName? = some p ↔ p.segments = ns.path ∧ p.isAbsolute = ns.absolute := by
  obtain ⟨path, absolute⟩ := ns
  rw [Namespace.toTypeName?, Option.map_eq_some_iff]
  constructor
  · rintro ⟨last, hlast, rfl⟩
    obtain ⟨front, hfront⟩ := List.getLast?_eq_some_iff.1 hlast
    refine ⟨?_, rfl⟩
    rw [segments, hfront, List.dropLast_concat]
  · rintro ⟨rfl, rfl⟩
    refine ⟨p.name, List.getLast?_concat, ?_⟩
    rw [segments, List.dropLast_concat]
    rfl

/-- The enclosing names are those around the name, without the name itself. -/
theorem mem_enclosing_iff : p ∈ n.enclosing ↔ p.Encloses n ∧ p ≠ n := by
  rw [enclosing, List.mem_filterMap]
  simp only [List.mem_range, toTypeName?_eq_some_iff]
  constructor
  · rintro ⟨i, hi, hsegments, hanchor⟩
    have hlength : p.segments.length = i + 1 := by
      rw [hsegments, List.length_take, Nat.min_eq_left hi]
    refine ⟨⟨hanchor, ?_⟩, ?_⟩
    · rw [hsegments]
      exact (List.take_prefix _ _).trans (List.prefix_append _ _)
    · rintro rfl
      rw [segments, List.length_append, List.length_singleton] at hlength
      omega
  · rintro ⟨h, hne⟩
    have hlength := h.length_lt hne
    simp only [segments, List.length_append, List.length_singleton] at hlength
    refine ⟨p.scope.path.length, by omega, ?_, h.anchor⟩
    have hprefix := (List.prefix_concat_iff.1 h.segments).resolve_left
      fun heq => hne (ext_segments h.anchor heq)
    have htake := List.prefix_iff_eq_take.1 hprefix
    rw [segments, List.length_append, List.length_singleton] at htake
    exact htake

/-- The outermost enclosing name comes first. -/
theorem pairwise_enclosing (n : TypeName) :
    n.enclosing.Pairwise fun p q => p.segments.length < q.segments.length := by
  rw [enclosing, List.pairwise_filterMap]
  refine List.pairwise_lt_range.imp_of_mem fun {i j} hi hj hij p hp q hq => ?_
  rw [(toTypeName?_eq_some_iff.1 hp).1, (toTypeName?_eq_some_iff.1 hq).1]
  rw [List.length_take, List.length_take]
  have hi := List.mem_range.1 hi
  have hj := List.mem_range.1 hj
  omega

end TypeName

/-! ## What names can be used for -/

/-- The kinds of entities that a name of a spelling can denote where it is used. -/
inductive Usage.Fits : Usage → NameKind → EntityKind → Prop
  | typeClass : Fits .asType .classLike .klass
  | typeModule : Fits .asType .classLike .module
  | typeInterface : Fits .asType .interface .interface
  | typeAlias : Fits .asType .typeAlias .typeAlias
  | constantClass : Fits .asConstant .classLike .klass
  | constantModule : Fits .asConstant .classLike .module
  | constantConstant : Fits .asConstant .classLike .constant
  | namespaceClass {spelling : NameKind} : Fits .asNamespace spelling .klass
  | namespaceModule {spelling : NameKind} : Fits .asNamespace spelling .module

theorem Usage.accepts_iff {usage : Usage} {name : TypeName} {kind : EntityKind} :
    usage.accepts name kind ↔ usage.Fits name.kind kind := by
  unfold accepts
  generalize name.kind = spelling
  constructor
  · intro h
    cases usage <;> cases spelling <;> cases kind <;> first | constructor | cases h
  · intro h
    cases h <;> rfl

namespace Environment

variable (env : Environment)

/-- A class or module is declared under the name. -/
def Opens (name : TypeName) : Prop :=
  ∃ e, env.get? name = some e ∧ (e.kind = .klass ∨ e.kind = .module)

/-- The name is declared with a kind that fits its use. -/
def Suits (usage : Usage) (name : TypeName) : Prop :=
  ∃ e, env.get? name = some e ∧ usage.Fits name.kind e.kind

/-- The name denotes something: it is declared with a kind that fits its use, and all names around
it are those of classes and modules. -/
structure Denoted (usage : Usage) (name : TypeName) : Prop where
  around : ∀ p : TypeName, p.Encloses name → p ≠ name → env.Opens p
  suits : env.Suits usage name

/-- The first segment of the name is declared in a scope. -/
def DeclaresHead (name : TypeName) (scope : Namespace) : Prop :=
  ∃ e, env.get? ((TypeName.bare name.head).placedIn scope) = some e

/-- The candidate on which a name is blamed that denotes nothing: an absolute name itself, and a
relative one in the innermost scope that declares its first segment, or at the top level if none
does. -/
inductive Blamed (name : TypeName) (nesting : Nesting) : TypeName → Prop
  | absolute (h : name.isAbsolute) : Blamed name nesting name
  | within {inner outer : List Namespace} {scope : Namespace} (hname : ¬ name.isAbsolute)
      (hscopes : nesting.scopes = inner ++ scope :: outer) (h : env.DeclaresHead name scope)
      (hinner : ∀ s ∈ inner, ¬ env.DeclaresHead name s) : Blamed name nesting (name.placedIn scope)
  | topLevel (hname : ¬ name.isAbsolute) (h : ∀ s ∈ nesting.scopes, ¬ env.DeclaresHead name s) :
      Blamed name nesting (name.placedIn .root)

/-- The outcome of resolving a name: the first candidate that denotes something, or the missing
part of the candidate on which the name is blamed. -/
inductive Resolves (name : TypeName) (nesting : Nesting) (usage : Usage) :
    Except TypeName TypeName → Prop
  | found {before after : List TypeName} {n : TypeName}
      (hcandidates : nesting.candidates name = before ++ n :: after)
      (hbefore : ∀ c ∈ before, ¬ env.Denoted usage c) (h : env.Denoted usage n) :
      Resolves name nesting usage (.ok n)
  | missing {closest m : TypeName} (hnone : ∀ c ∈ nesting.candidates name, ¬ env.Denoted usage c)
      (hclosest : env.Blamed name nesting closest) (hm : m.Encloses closest)
      (haround : ∀ p : TypeName, p.Encloses m → p ≠ m → env.Opens p)
      (hpart : m ≠ closest → ¬ env.Opens m) (hwhole : m = closest → ¬ env.Suits usage m) :
      Resolves name nesting usage (.error m)

variable {env} {name found missing closest : TypeName} {nesting : Nesting} {usage : Usage}

theorem isNamespace_iff : env.isNamespace name ↔ env.Opens name := by
  rw [isNamespace, Opens, kind?]
  cases env.get? name with
  | none => simp
  | some e => cases hkind : e.kind <;> simp [EntityKind.isNamespace, hkind]

theorem denotes_iff_denoted : env.denotes usage name ↔ env.Denoted usage name := by
  rw [denotes_iff, hasNamespaces, List.all_eq_true]
  simp only [TypeName.mem_enclosing_iff, isNamespace_iff, Usage.accepts_iff, and_imp]
  exact ⟨fun h => ⟨h.1, h.2⟩, fun h => ⟨h.around, h.suits⟩⟩

theorem contains_iff_declaresHead {scope : Namespace} :
    env.contains ((TypeName.bare name.head).placedIn scope) ↔ env.DeclaresHead name scope :=
  Option.isSome_iff_exists

/-! ## The missing part -/

/-- The missing part of a name is around it, all names around that part are those of classes and
modules, and it is not such a name itself, unless it is the whole name. -/
theorem missingPart_spec (n : TypeName) : (env.missingPart n).Encloses n ∧
    (∀ p : TypeName, p.Encloses (env.missingPart n) → p ≠ env.missingPart n → env.Opens p) ∧
    (env.missingPart n ≠ n → ¬ env.Opens (env.missingPart n)) := by
  rw [missingPart]
  cases hfind : n.enclosing.find? fun p => !env.isNamespace p with
  | none =>
    rw [Option.getD_none]
    have hall := List.find?_eq_none.1 hfind
    refine ⟨n.encloses_refl, fun p hp hne => ?_, fun hne => absurd rfl hne⟩
    have hopens := hall p (TypeName.mem_enclosing_iff.2 ⟨hp, hne⟩)
    simpa [isNamespace_iff] using hopens
  | some m =>
    rw [Option.getD_some]
    obtain ⟨hm, before, after, hsplit, hbefore⟩ := List.find?_eq_some_iff_append.1 hfind
    have hmem : ∀ p ∈ before ++ m :: after, p.Encloses n ∧ p ≠ n := fun p hp =>
      TypeName.mem_enclosing_iff.1 (hsplit ▸ hp)
    have hlengths := hsplit ▸ n.pairwise_enclosing
    have hmn := hmem m (List.mem_append_right _ List.mem_cons_self)
    refine ⟨hmn.1, fun p hp hne => ?_, fun _ => ?_⟩
    · -- what is around the missing part is shorter, so it stands in front of it
      have hlength := hp.length_lt hne
      have hpn : p ∈ before ++ m :: after := hsplit ▸ TypeName.mem_enclosing_iff.2
        ⟨hp.trans hmn.1, fun heq => by
          have hshort := hmn.1.length_lt hmn.2
          rw [heq] at hlength
          omega⟩
      rcases List.mem_append.1 hpn with hp | hp
      · simpa [isNamespace_iff] using hbefore p hp
      · rcases List.mem_cons.1 hp with rfl | hp
        · exact absurd rfl hne
        · have hbehind := List.rel_of_pairwise_cons (List.pairwise_append.1 hlengths).2.1 hp
          omega
    · rw [← isNamespace_iff]
      simpa using hm

/-- No other name than the missing part has these properties. -/
theorem eq_missingPart {n m : TypeName} (hm : m.Encloses n)
    (haround : ∀ p : TypeName, p.Encloses m → p ≠ m → env.Opens p)
    (hpart : m ≠ n → ¬ env.Opens m) : m = env.missingPart n := by
  obtain ⟨hn, haround', hpart'⟩ := env.missingPart_spec n
  by_contra hne
  rcases Nat.le_total m.segments.length (env.missingPart n).segments.length with hle | hle
  · have hinner := hm.of_length_le hn hle
    refine hpart (fun heq => hne ?_) (haround' m hinner hne)
    refine TypeName.ext_segments hinner.anchor (hinner.segments.eq_of_length_le ?_)
    rw [heq]
    exact hn.segments.length_le
  · have hinner := hn.of_length_le hm hle
    refine hpart' (fun heq => hne ?_) (haround _ hinner (Ne.symm hne))
    refine (TypeName.ext_segments hinner.anchor (hinner.segments.eq_of_length_le ?_)).symm
    rw [heq]
    exact hm.segments.length_le

/-! ## The candidate that is blamed -/

theorem blamed_closest (env : Environment) (name : TypeName) (nesting : Nesting) :
    env.Blamed name nesting (env.closest name nesting) := by
  rw [closest]
  split
  · exact .absolute ‹_›
  · rename_i hname
    rw [headScope]
    cases hfind : nesting.scopes.find? fun scope =>
        env.contains ((TypeName.bare name.head).placedIn scope) with
    | none =>
      refine .topLevel hname fun s hs hhead => ?_
      exact List.find?_eq_none.1 hfind s hs (contains_iff_declaresHead.2 hhead)
    | some scope =>
      obtain ⟨hscope, inner, outer, hscopes, hinner⟩ := List.find?_eq_some_iff_append.1 hfind
      refine .within hname hscopes (contains_iff_declaresHead.1 hscope) fun s hs hhead => ?_
      have hnot := hinner s hs
      rw [contains_iff_declaresHead.2 hhead] at hnot
      cases hnot

theorem Blamed.eq_closest (h : env.Blamed name nesting closest) :
    closest = env.closest name nesting := by
  rw [Environment.closest]
  cases h with
  | absolute h => rw [if_pos h]
  | @within inner outer scope hname hscopes hhead hinner =>
    have hfind : nesting.scopes.find? (fun scope =>
        env.contains ((TypeName.bare name.head).placedIn scope)) = some scope := by
      refine List.find?_eq_some_iff_append.2
        ⟨contains_iff_declaresHead.2 hhead, inner, outer, hscopes, fun s hs => ?_⟩
      rw [Bool.not_eq_true', ← Bool.not_eq_true, contains_iff_declaresHead]
      exact hinner s hs
    rw [if_neg hname, headScope, hfind, Option.getD_some]
  | topLevel hname hnone =>
    rw [if_neg hname, headScope, List.find?_eq_none.2 fun s hs hcontains =>
      hnone s hs (contains_iff_declaresHead.1 hcontains), Option.getD_none]

/-- A name is blamed on one of its candidates, for the top level is one of the scopes. -/
theorem closest_mem_candidates (env : Environment) (name : TypeName) (nesting : Nesting) :
    env.closest name nesting ∈ nesting.candidates name := by
  rw [closest, Nesting.candidates]
  split
  · exact List.mem_singleton_self name
  · refine List.mem_map_of_mem ?_
    rw [headScope]
    cases hfind : nesting.scopes.find? fun scope =>
        env.contains ((TypeName.bare name.head).placedIn scope) with
    | none => exact List.mem_append_right _ (List.mem_singleton_self _)
    | some scope => exact List.mem_of_find?_eq_some hfind

/-! ## Resolving -/

theorem find?_candidates_eq_none_iff :
    (nesting.candidates name).find? (env.denotes usage) = none ↔
      ∀ c ∈ nesting.candidates name, ¬ env.Denoted usage c := by
  rw [List.find?_eq_none]
  simp only [denotes_iff_denoted]

theorem resolves_resolve (env : Environment) (name : TypeName) (nesting : Nesting) (usage : Usage) :
    env.Resolves name nesting usage (env.resolve name nesting usage) := by
  rw [resolve]
  cases hfind : (nesting.candidates name).find? (env.denotes usage) with
  | some found =>
    obtain ⟨hfound, before, after, hcandidates, hbefore⟩ := List.find?_eq_some_iff_append.1 hfind
    refine .found hcandidates (fun c hc hdenoted => ?_) (denotes_iff_denoted.1 hfound)
    have hnot := hbefore c hc
    rw [denotes_iff_denoted.2 hdenoted] at hnot
    cases hnot
  | none =>
    have hnone := find?_candidates_eq_none_iff.1 hfind
    obtain ⟨hm, haround, hpart⟩ := env.missingPart_spec (env.closest name nesting)
    refine .missing hnone (env.blamed_closest name nesting) hm haround hpart fun hwhole hsuits => ?_
    rw [hwhole] at haround hsuits
    exact hnone _ (env.closest_mem_candidates name nesting) ⟨haround, hsuits⟩

theorem Resolves.eq_resolve {r : Except TypeName TypeName}
    (h : env.Resolves name nesting usage r) : env.resolve name nesting usage = r := by
  cases h with
  | found hcandidates hbefore hn =>
    refine resolve_eq_ok_iff.2 (List.find?_eq_some_iff_append.2
      ⟨denotes_iff_denoted.2 hn, _, _, hcandidates, fun c hc => ?_⟩)
    rw [Bool.not_eq_true', ← Bool.not_eq_true, denotes_iff_denoted]
    exact hbefore c hc
  | missing hnone hclosest hm haround hpart _ =>
    rw [resolve, find?_candidates_eq_none_iff.2 hnone, ← hclosest.eq_closest,
      eq_missingPart hm haround hpart]

/-- An absolute name that denotes something denotes it everywhere. -/
theorem resolve_of_denotes (habsolute : name.isAbsolute) (h : env.denotes usage name)
    (nesting : Nesting) : env.resolve name nesting usage = .ok name := by
  rw [resolve_eq_ok_iff, Nesting.candidates, if_pos habsolute, List.find?_cons_of_pos h]

/-- In an environment whose names are absolute a name resolves to one that resolves to itself from
everywhere. -/
theorem resolve_resolved (henv : env.Anchored) (h : env.resolve name nesting usage = .ok found)
    (other : Nesting) : env.resolve found other usage = .ok found := by
  obtain ⟨e, he, -⟩ := declared_of_resolve h
  exact resolve_of_denotes (henv found e he).absolute
    (List.find?_some (resolve_eq_ok_iff.1 h)) other

/-- In the environment of any sources a name resolves, in any scopes, to the first candidate that
denotes something, and that resolves to itself in all other scopes.  If no candidate denotes
anything, the shortest part is missing that is not what it has to be, of the candidate in the
innermost scope that declares the first segment. -/
theorem resolve_meets_spec (sources : List (SourceId × List Declaration)) (name : TypeName)
    (nesting : Nesting) (usage : Usage) :
    (∀ r, (mergeSources sources).1.resolve name nesting usage = r ↔
      (mergeSources sources).1.Resolves name nesting usage r) ∧
    ∀ found, (mergeSources sources).1.resolve name nesting usage = .ok found →
      ∀ other, (mergeSources sources).1.resolve found other usage = .ok found := by
  refine ⟨fun r => ⟨?_, Resolves.eq_resolve⟩, fun found h other => ?_⟩
  · rintro rfl
    exact resolves_resolve _ name nesting usage
  · exact resolve_resolved (mergeSources_anchored sources) h other

end Environment

end RubySig
