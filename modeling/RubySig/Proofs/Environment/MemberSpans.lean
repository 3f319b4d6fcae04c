import RubySig.Proofs.Environment.Partition
import RubySig.Proofs.Parser.FileSpans

/-!
# Where the members of environments are written

Members of one body stand one behind the other, and a declaration nested in a body holds all that is
declared inside of it.  So no two members of what is read from texts have one span, and no two
members of the environment that is merged from it, be they members of one entity or of two.

* `EntityDecl.memberSpans`, `memberSpansOf`: the spans of members, without nested declarations.
* `nodup_memberSpansOf_placeEntity`: a declaration with all that is nested in it.
* `ParsedSources.nodup_memberSpans`: the declarations of several sources.
* `Entry.members`, `Environment.members`: the members of an environment.
* `SessionSetup.nodup_spans_members`: those of a session have spans of their own.
-/

namespace RubySig

/-! ## Members of declarations -/

/-- Whether a member is none of the declarations nested in a body. -/
def Member.isPlain (m : Member) : Bool := m.nested?.isNone

/-- Where the members of a declaration are written, nested declarations aside. -/
def EntityDecl.memberSpans (d : EntityDecl) : Multiset Span :=
  ((d.members.filter Member.isPlain).map Member.span : List Span)

/-- Where the members of placed declarations are written. -/
def memberSpansOf (placed : List Placement) : Multiset Span :=
  gatherAll EntityDecl.memberSpans (fun _ => 0) placed

/-- Where a member is written, or the members of the declaration that it is. -/
def Member.spansIn (source : SourceId) (nesting : Nesting) (m : Member) : Multiset Span :=
  match m.nested? with
  | some d => memberSpansOf (placeEntity source nesting d)
  | none => {m.span}

section Texts

variable {source : SourceId} {text : String}

/-- The members of a body and those of the declarations in it, one member after the other. -/
theorem sum_spansIn (nesting : Nesting) (members : List Member) :
    (members.map (Member.spansIn source nesting)).sum =
      ((members.filter Member.isPlain).map Member.span : List Span) +
        memberSpansOf ((members.filterMap Member.nested?).flatMap
          (placeEntity source nesting)) := by
  induction members with
  | nil => rfl
  | cons m rest ih =>
    rw [List.map_cons, List.sum_cons, ih]
    cases hm : m.nested? with
    | some d =>
      have hplain : m.isPlain = false := by simp [Member.isPlain, hm]
      rw [List.filter_cons_of_neg (by simp [hplain]), List.filterMap_cons_some hm,
        List.flatMap_cons, memberSpansOf, memberSpansOf, gatherAll_append, Member.spansIn, hm]
      exact add_left_comm _ _ _
    | none =>
      have hplain : m.isPlain = true := by simp [Member.isPlain, hm]
      rw [List.filter_cons_of_pos hplain, List.filterMap_cons_none hm, Member.spansIn, hm,
        ← add_assoc]
      rfl

/-- A declaration has no members but those of its body and of the declarations in it. -/
theorem memberSpansOf_placeEntity_le (source : SourceId) (nesting : Nesting) (d : EntityDecl) :
    ∃ inside, memberSpansOf (placeEntity source nesting d) ≤
      (d.members.map (Member.spansIn source inside)).sum := by
  by_cases hkind : d.kind = .interface
  · refine ⟨nesting, ?_⟩
    rw [sum_spansIn]
    cases d with
    | interface d =>
      rw [placeEntity, memberSpansOf, gatherAll, List.map_singleton, List.sum_singleton]
      exact Multiset.le_add_right _ _
    | klass _ | module _ | typeAlias _ | constant _ => cases hkind
  · refine ⟨nesting.enter (d.name.placedIn nesting.innermost).toNamespace, ?_⟩
    rw [sum_spansIn, placeEntity_eq fun h => absurd h hkind]
    exact le_refl _

/-- A span of a source that is not empty and lies in another one. -/
structure Span.Inside (source : SourceId) (s outer : Span) : Prop where
  source : s.source = source
  within : s.Within outer
  proper : s.range.start < s.range.stop

/-- What lies in spans one behind the other is not the same. -/
theorem Span.Inside.ne {outer outer' s s' : Span} (h : s.Inside source outer)
    (h' : s'.Inside source outer') (hbehind : outer.Precedes outer') : s ≠ s' := by
  rintro rfl
  have hstop := h.within.stop
  have hstart := h'.within.start
  have hproper := h.proper
  rw [Span.Precedes] at hbehind
  omega

/-- The members in a declaration and in those nested in it lie inside of it and have spans of their
own. -/
theorem nodup_memberSpansOf_placeEntity {d : EntityDecl} (h : d.WellNested source text)
    (nesting : Nesting) :
    (memberSpansOf (placeEntity source nesting d)).Nodup ∧
      ∀ s ∈ memberSpansOf (placeEntity source nesting d), s.Inside source d.span := by
  induction h generalizing nesting with
  | @node d own nested ih =>
    obtain ⟨inside, hle⟩ := memberSpansOf_placeEntity_le source nesting d
    have hparts : ∀ m ∈ d.members, (m.spansIn source inside).Nodup ∧
        ∀ s ∈ m.spansIn source inside, s.Inside source m.span := by
      intro m hm
      by_cases hnested : ∃ e, m = .nested e
      · obtain ⟨e, rfl⟩ := hnested
        exact ih e hm inside
      · have hspans : m.spansIn source inside = {m.span} := by
          cases m with
          | nested e => exact absurd ⟨e, rfl⟩ hnested
          | method _ | attr _ | methodAlias _ | mixin _ | marker _ | typedVar _ => rfl
        have hwritten := (own.members m hm).written
        rw [hspans]
        refine ⟨Multiset.nodup_singleton _, ?_⟩
        intro s hs
        rw [Multiset.mem_singleton.1 hs]
        exact ⟨hwritten.source, .refl _, hwritten.range.proper⟩
    refine ⟨Multiset.nodup_of_le hle (nodup_sum_map (fun m hm => (hparts m hm).1) ?_), ?_⟩
    · refine own.memberSiblings.inOrder.imp_of_mem ?_
      intro m m' hm hm' hbehind
      refine Multiset.disjoint_left.2 ?_
      intro s hs hs'
      exact ((hparts m hm).2 s hs).ne ((hparts m' hm').2 s hs') hbehind rfl
    · intro s hs
      obtain ⟨m, hm, hs⟩ := mem_sum_map_iff.1 (Multiset.mem_of_le hle hs)
      have hinside := (hparts m hm).2 s hs
      exact { hinside with within := hinside.within.trans (own.memberSiblings.within m hm) }

/-! ## Texts -/

/-- The members in a file lie in its source and have spans of their own. -/
theorem nodup_memberSpansOf_placements {declarations : List Declaration}
    (hnested : ∀ d ∈ declarations, d.WellNested source text)
    (hrow : declarations.Pairwise fun d e => d.span.Precedes e.span) :
    (memberSpansOf (placements source declarations)).Nodup ∧
      ∀ s ∈ memberSpansOf (placements source declarations), s.source = source := by
  have hparts : ∀ d ∈ declarations, (memberSpansOf (placements source [d])).Nodup ∧
      ∀ s ∈ memberSpansOf (placements source [d]), s.Inside source d.span := by
    intro d hd
    have hd := hnested d hd
    cases d with
    | entity d =>
      rw [placements, List.flatMap_singleton]
      exact nodup_memberSpansOf_placeEntity hd .topLevel
    | global d => exact ⟨Multiset.nodup_zero, fun s hs => absurd hs (Multiset.notMem_zero s)⟩
  have hsum : memberSpansOf (placements source declarations) =
      (declarations.map fun d => memberSpansOf (placements source [d])).sum := by
    rw [placements, memberSpansOf, gatherAll_flatMap]
    simp [memberSpansOf, placements]
  rw [hsum]
  refine ⟨nodup_sum_map (fun d hd => (hparts d hd).1) (hrow.imp_of_mem ?_), ?_⟩
  · intro d e hd he hbehind
    refine Multiset.disjoint_left.2 ?_
    intro s hs hs'
    exact ((hparts d hd).2 s hs).ne ((hparts e he).2 s hs') hbehind rfl
  · intro s hs
    obtain ⟨d, hd, hs⟩ := mem_sum_map_iff.1 hs
    exact ((hparts d hd).2 s hs).source

theorem memberSpans_of_parseSource {limits : Limits} {declarations : List Declaration}
    {errors : List Diagnostic}
    (h : parseSource limits source text = .ok (declarations, errors)) :
    (memberSpansOf (placements source declarations)).Nodup ∧
      ∀ s ∈ memberSpansOf (placements source declarations), s.source = source := by
  rcases runFile_of_parseSource h with rfl | ⟨c, hrun⟩
  · exact ⟨Multiset.nodup_zero, fun s hs => absurd hs (Multiset.notMem_zero s)⟩
  · obtain ⟨-, -, hrow⟩ := Parser.file_fills _ _ _ _ _ _ (stands_start limits.execFuel) rfl hrun
    exact nodup_memberSpansOf_placements (fun d hd => (hrow.each d hd).1)
      (hrow.inOrder.imp fun ⟨_, hd, he⟩ => hd.2.stop.trans he.2.start)

end Texts

/-- The members in several sources have spans of their own if no source is listed twice. -/
theorem ParsedSources.nodup_memberSpans {parsed : ParsedSources} (hread : parsed.Read)
    (hids : (parsed.map (·.1)).Nodup) :
    (parsed.map fun s => memberSpansOf (placements s.1 s.2)).sum.Nodup := by
  have hparts : ∀ s ∈ parsed, (memberSpansOf (placements s.1 s.2)).Nodup ∧
      ∀ span ∈ memberSpansOf (placements s.1 s.2), span.source = s.1 := by
    intro s hs
    obtain ⟨limits, text, errors, hparse⟩ := hread s hs
    exact memberSpans_of_parseSource hparse
  refine nodup_sum_map (fun s hs => (hparts s hs).1) ?_
  refine (List.pairwise_map.1 hids).imp_of_mem ?_
  intro s s' hs hs' hne
  refine Multiset.disjoint_left.2 ?_
  intro span hspan hspan'
  exact hne (((hparts s hs).2 span hspan).symm.trans ((hparts s' hs').2 span hspan'))

/-! ## Environments -/

/-- The members of all fragments of an entity. -/
def Entry.members (e : Entry) : List Member := e.bodies.flatMap Body.members

/-- The members of all entities. -/
def Environment.members (env : Environment) : List (Entry × Member) :=
  env.entities.flatMap fun e => e.members.map (e, ·)

theorem Environment.mem_members {env : Environment} {e : Entry} {m : Member} :
    (e, m) ∈ env.members ↔ e ∈ env.entities ∧ m ∈ e.members := by
  simp [members]

theorem mapTypes_isPlain (f : TypeExpr → TypeExpr) (m : Member) :
    (m.mapTypes f).isPlain = m.isPlain := by
  cases m <;> rfl

theorem mapTypes_span (f : TypeExpr → TypeExpr) (m : Member) : (m.mapTypes f).span = m.span := by
  cases m <;> rfl

theorem EntityDecl.memberSpans_adopt (params : List String) (d : EntityDecl) :
    (adoptDecl params d).memberSpans = d.memberSpans := by
  have hmap : ∀ (f : TypeExpr → TypeExpr) (members : List Member),
      ((members.map (Member.mapTypes f)).filter Member.isPlain).map Member.span =
        (members.filter Member.isPlain).map Member.span := by
    intro f members
    simp [List.filter_map, Function.comp_def, mapTypes_isPlain, mapTypes_span]
  cases d with
  | klass d | module d =>
    rw [adoptDecl]
    split
    · exact congrArg Multiset.ofList (hmap _ d.members)
    · rfl
  | interface _ | typeAlias _ | constant _ => rfl

theorem Entry.gather_memberSpans (e : Entry) :
    e.gather EntityDecl.memberSpans =
      (((e.fragments.flatMap (·.decl.members)).filter Member.isPlain).map Member.span :
        List Span) := by
  rw [gather]
  induction e.fragments with
  | nil => rfl
  | cons f rest ih =>
    rw [List.map_cons, List.sum_cons, ih, List.flatMap_cons, List.filter_append, List.map_append]
    rfl

/-- An entity has no members but those of its fragments. -/
theorem Entry.spans_members_le (e : Entry) :
    (((e.members.filter Member.isPlain).map Member.span : List Span) : Multiset Span) ≤
      e.gather EntityDecl.memberSpans := by
  rw [members, bodies, gather_memberSpans]
  split
  · rw [List.flatMap_map]
    exact le_refl _
  · exact Multiset.zero_le _

theorem Environment.spans_members_le (env : Environment) :
    (((env.members.filter (·.2.isPlain)).map (·.2.span) : List Span) : Multiset Span) ≤
      env.gather EntityDecl.memberSpans fun _ => 0 := by
  refine le_trans ?_ (Multiset.le_add_right _ _)
  rw [members]
  induction env.entities with
  | nil => exact le_refl _
  | cons e rest ih =>
    have hfirst := e.spans_members_le
    rw [List.flatMap_cons, List.filter_append, List.map_append, List.filter_map, List.map_map,
      List.map_cons, List.sum_cons]
    exact add_le_add hfirst ih

theorem Environment.nodup_spans_members {parsed : ParsedSources} (hread : parsed.Read)
    (hids : (parsed.map (·.1)).Nodup) :
    (((mergeSources parsed).1.members.filter (·.2.isPlain)).map (·.2.span)).Nodup := by
  refine Multiset.coe_nodup.1 (Multiset.nodup_of_le ?_ (ParsedSources.nodup_memberSpans hread hids))
  refine (spans_members_le _).trans (gather_mergeSources_le _ ?_ parsed)
  exact fun params d => (d.memberSpans_adopt params).le

/-- The members of a session have spans of their own. -/
theorem SessionSetup.nodup_spans_members {setup : SessionSetup} {s : Session}
    (h : setup.build = .ok s) :
    ((s.env.members.filter (·.2.isPlain)).map (·.2.span)).Nodup := by
  obtain ⟨errors, hparsed, henv, -⟩ := parsed_of_build h
  rw [henv]
  refine Environment.nodup_spans_members (parseSources_read hparsed) ?_
  rw [ids_of_parseSources hparsed]
  exact s.sources.nodup_numbered

/-- A member of a session is known by its span. -/
theorem SessionSetup.member_eq_of_span {setup : SessionSetup} {s : Session}
    (h : setup.build = .ok s) {e e' : Entry} {m m' : Member} (hm : (e, m) ∈ s.env.members)
    (hm' : (e', m') ∈ s.env.members) (hplain : m.isPlain) (hplain' : m'.isPlain)
    (hspan : m.span = m'.span) : e = e' ∧ m = m' := by
  have hsame := List.inj_on_of_nodup_map (nodup_spans_members h)
    (List.mem_filter.2 ⟨hm, hplain⟩) (List.mem_filter.2 ⟨hm', hplain'⟩) hspan
  exact Prod.mk.inj hsame

end RubySig
