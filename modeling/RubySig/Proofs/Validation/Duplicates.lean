import RubySig.Proofs.Definition.Nearest
import RubySig.Proofs.Validation.Batches

/-!
# Methods that are defined twice

All fragments of an entity share one table of method names for each side.  A member that defines a
name which a member in front of it defines on the same side is reported, in the order in which they
are written.  An accessor can redefine two names at one place, and then only the first is reported.

* `Member.Redefines`: a member defines a name that earlier members define on the same side.
* `splitsFrom`: each element of a list with those in front of it.
* `redefined`: the names that a member redefines, as they are found.
* `SessionSetup.duplicated_iff`: which redefinitions are reported.
-/

namespace RubySig

/-! ## Names that a member defines -/

/-- A member defines a method of a name on a side on which one of the members in front of it does,
too. -/
def Member.Redefines (before : List Member) (m : Member) (n : String) : Prop :=
  ∃ side, m.DeclaresMethod side n ∧ ∃ earlier ∈ before, earlier.DeclaresMethod side n

/-- A name is defined on a side. -/
def MethodSite.OnSide (site : MethodSite) : Context → Prop
  | .onInstance => site.onInstance
  | .onSingleton => site.onSingleton

namespace MethodSite

theorem collides_iff {a b : MethodSite} :
    a.collides b ↔ a.name = b.name ∧ ∃ side, a.OnSide side ∧ b.OnSide side := by
  have hside : (∃ side, a.OnSide side ∧ b.OnSide side) ↔
      (a.onInstance ∧ b.onInstance) ∨ (a.onSingleton ∧ b.onSingleton) := by
    constructor
    · rintro ⟨side, h⟩
      cases side with
      | onInstance => exact Or.inl h
      | onSingleton => exact Or.inr h
    · rintro (h | h)
      · exact ⟨.onInstance, h⟩
      · exact ⟨.onSingleton, h⟩
  rw [hside]
  simp [collides]

end MethodSite

theorem String.ne_append_mark (s : String) : s ≠ s ++ "=" := by
  intro h
  have hlength := congrArg String.length h
  simp at hlength

namespace Member

/-- The names that a member defines on a side are those at its sites on this side. -/
theorem declaresMethod_iff_site {m : Member} {side : Context} {n : String} :
    m.DeclaresMethod side n ↔ ∃ site ∈ m.methodSites, site.name = n ∧ site.OnSide side := by
  cases m with
  | method m =>
    rw [declaresMethod_method_iff]
    cases side <;> simp [methodSites, MethodKind.OnSide, MethodSite.OnSide, and_comm]
  | attr a =>
    rw [declaresMethod_attr_iff]
    cases side <;>
      simp [methodSites, MethodSite.OnSide, Context.isSingleton, and_comm]
  | methodAlias _ | mixin _ | marker _ | typedVar _ | nested _ =>
    refine iff_of_false (fun h => by cases h) ?_
    simp [methodSites]

/-- A member defines a method, two accessors of an attribute or nothing more than one name. -/
theorem methodSites_cases (m : Member) : (∃ site, m.methodSites ⊆ [site]) ∨
    ∃ a reader writer, m = .attr a ∧ m.methodSites = [reader, writer] ∧ reader.name = a.name ∧
      writer.name = a.writerName := by
  cases m with
  | method m => exact Or.inl ⟨_, fun _ h => h⟩
  | attr a =>
    cases hkind : a.kind with
    | reader | writer =>
      left
      simp only [methodSites, AttributeMember.accessors, hkind]
      exact ⟨_, fun _ h => h⟩
    | accessor =>
      right
      simp only [methodSites, AttributeMember.accessors, hkind]
      exact ⟨a, _, _, rfl, rfl, rfl, rfl⟩
  | methodAlias _ | mixin _ | marker _ | typedVar _ | nested _ =>
    exact Or.inl ⟨default, fun _ h => absurd h List.not_mem_nil⟩

theorem span_of_mem_methodSites {m : Member} {site : MethodSite} (h : site ∈ m.methodSites) :
    site.span = m.span := by
  cases m with
  | method m => rw [List.mem_singleton.1 h]; rfl
  | attr a =>
    obtain ⟨accessor, -, rfl⟩ := List.mem_map.1 h
    rfl
  | methodAlias _ | mixin _ | marker _ | typedVar _ | nested _ => cases h

/-- A member does not define one name twice. -/
theorem pairwise_methodSites (m : Member) :
    m.methodSites.Pairwise fun a b => ¬ b.collides a := by
  cases m with
  | method m => exact List.pairwise_singleton _ _
  | attr a =>
    cases hkind : a.kind with
    | reader | writer =>
      simp [methodSites, AttributeMember.accessors, hkind, AttributeKind.hasReader,
        AttributeKind.hasWriter]
    | accessor =>
      have hne := String.ne_append_mark a.name
      simp [methodSites, AttributeMember.accessors, hkind, AttributeKind.hasReader,
        AttributeKind.hasWriter, MethodSite.collides_iff, AttributeMember.writerName, Ne.symm hne]
  | methodAlias _ | mixin _ | marker _ | typedVar _ | nested _ => exact .nil

/-! ## Names that a member redefines -/

/-- The sites of a member that collide with those of the members in front of it. -/
def redefined (before : List Member) (m : Member) : List MethodSite :=
  m.methodSites.filter fun site => (before.flatMap methodSites).any site.collides

variable {before : List Member} {m : Member} {n : String}

theorem redefines_iff :
    m.Redefines before n ↔ ∃ site ∈ m.redefined before, site.name = n := by
  simp only [redefined, List.mem_filter, List.any_eq_true, List.mem_flatMap,
    MethodSite.collides_iff]
  constructor
  · rintro ⟨side, hm, earlier, hearlier, hbefore⟩
    obtain ⟨site, hsite, rfl, hside⟩ := declaresMethod_iff_site.1 hm
    obtain ⟨other, hother, hname, hside'⟩ := declaresMethod_iff_site.1 hbefore
    exact ⟨site, ⟨hsite, other, ⟨earlier, hearlier, hother⟩, hname.symm, side, hside, hside'⟩, rfl⟩
  · rintro ⟨site, ⟨hsite, other, ⟨earlier, hearlier, hother⟩, hname, side, hside, hside'⟩, rfl⟩
    exact ⟨side, declaresMethod_iff_site.2 ⟨site, hsite, rfl, hside⟩, earlier, hearlier,
      declaresMethod_iff_site.2 ⟨other, hother, hname.symm, hside'⟩⟩

/-- A name is the first that a member redefines: it is redefined, and if it is that of a writer then
the reader's is not. -/
def RedefinesFirst (before : List Member) (m : Member) (n : String) : Prop :=
  m.Redefines before n ∧ ∀ a, m = .attr a → n = a.writerName → ¬ m.Redefines before a.name

/-- With one redefined name there is no choice. -/
theorem redefinesFirst_iff_of_unique
    (hone : ∀ s ∈ m.redefined before, ∀ t ∈ m.redefined before, s = t) :
    m.RedefinesFirst before n ↔ ∃ site, (m.redefined before).head? = some site ∧ site.name = n := by
  rw [RedefinesFirst, redefines_iff]
  constructor
  · rintro ⟨⟨s, hs, hname⟩, -⟩
    obtain ⟨first, rest, hlist⟩ := List.exists_cons_of_ne_nil (List.ne_nil_of_mem hs)
    have hfirst : first ∈ m.redefined before := hlist ▸ List.mem_cons_self
    exact ⟨s, by rw [hlist, hone s hs first hfirst]; rfl, hname⟩
  · rintro ⟨s, hs, hname⟩
    have hmem := List.mem_of_mem_head? hs
    refine ⟨⟨s, hmem, hname⟩, ?_⟩
    intro a _ hn hother
    obtain ⟨s', hs', hname'⟩ := redefines_iff.1 hother
    rw [hone s hmem s' hs', hname', hn] at hname
    exact String.ne_append_mark a.name hname

/-- An attribute that redefines its reader does this first. -/
theorem redefinesFirst_attr_iff {a : AttributeMember} {reader writer : MethodSite}
    (hsites : (Member.attr a).methodSites = [reader, writer]) (hreader : reader.name = a.name)
    (hwriter : writer.name = a.writerName)
    (hredefined : reader ∈ (Member.attr a).redefined before) :
    (Member.attr a).RedefinesFirst before n ↔
      ∃ site, ((Member.attr a).redefined before).head? = some site ∧ site.name = n := by
  have hhead : ((Member.attr a).redefined before).head? = some reader := by
    rw [redefined, List.mem_filter] at hredefined
    rw [redefined, hsites, List.filter_cons, if_pos hredefined.2]
    rfl
  rw [RedefinesFirst, redefines_iff]
  simp only [hhead, Option.some.injEq, exists_eq_left', hreader]
  constructor
  · rintro ⟨⟨s, hs, rfl⟩, hfirst⟩
    have hcases : s = reader ∨ s = writer := by
      simpa [hsites] using (List.mem_filter.1 hs).1
    rcases hcases with rfl | rfl
    · exact hreader.symm
    · exact absurd (redefines_iff.2 ⟨reader, hredefined, hreader⟩) (hfirst a rfl hwriter)
  · rintro rfl
    refine ⟨⟨reader, hredefined, hreader⟩, ?_⟩
    intro a' hattr hn
    obtain rfl := Member.attr.inj hattr
    exact absurd hn (String.ne_append_mark a.name)

/-- The first name that a member redefines is that of its first redefined site. -/
theorem redefinesFirst_iff :
    m.RedefinesFirst before n ↔ ∃ site, (m.redefined before).head? = some site ∧ site.name = n := by
  have hsub : ∀ s ∈ m.redefined before, s ∈ m.methodSites := fun s hs => (List.mem_filter.1 hs).1
  rcases m.methodSites_cases with
    ⟨site, hsite⟩ | ⟨a, reader, writer, rfl, hsites, hreader, hwriter⟩
  · have hone : ∀ s ∈ m.redefined before, s = site := fun s hs =>
      List.mem_singleton.1 (hsite (hsub s hs))
    exact redefinesFirst_iff_of_unique fun s hs t ht => (hone s hs).trans (hone t ht).symm
  · by_cases hredefined : reader ∈ (Member.attr a).redefined before
    · exact redefinesFirst_attr_iff hsites hreader hwriter hredefined
    · have hone : ∀ s ∈ (Member.attr a).redefined before, s = writer := by
        intro s hs
        have hcases : s = reader ∨ s = writer := by
          simpa [hsites] using hsub s hs
        exact hcases.resolve_left fun h => hredefined (h ▸ hs)
      exact redefinesFirst_iff_of_unique fun s hs t ht => (hone s hs).trans (hone t ht).symm

end Member

/-! ## The members of an entity -/

/-- Each element of a list with those in front of it, some of which may stand in front of the
list. -/
def splitsFrom {α : Type} (before : List α) : List α → List (List α × α)
  | [] => []
  | x :: rest => (before, x) :: splitsFrom (before ++ [x]) rest

section Splits

variable {α : Type} {before xs front : List α} {x : α}

theorem map_snd_splitsFrom : (splitsFrom before xs).map (·.2) = xs := by
  induction xs generalizing before with
  | nil => rfl
  | cons x rest ih => rw [splitsFrom, List.map_cons, ih]

theorem mem_splitsFrom_iff :
    (front, x) ∈ splitsFrom before xs ↔
      ∃ inner after, xs = inner ++ x :: after ∧ front = before ++ inner := by
  induction xs generalizing before with
  | nil => simp [splitsFrom]
  | cons y rest ih =>
    rw [splitsFrom, List.mem_cons, ih, Prod.mk.injEq]
    constructor
    · rintro (⟨rfl, rfl⟩ | ⟨inner, after, rfl, rfl⟩)
      · exact ⟨[], rest, rfl, (List.append_nil _).symm⟩
      · exact ⟨y :: inner, after, rfl, by simp⟩
    · rintro ⟨inner, after, hxs, rfl⟩
      cases inner with
      | nil =>
        obtain ⟨rfl, rfl⟩ := List.cons.inj hxs
        exact Or.inl ⟨List.append_nil _, rfl⟩
      | cons z inner =>
        obtain ⟨rfl, rfl⟩ := List.cons.inj hxs
        exact Or.inr ⟨inner, after, rfl, by simp⟩

end Splits

/-- What is found at sites that do not collide with each other, and behind them. -/
theorem duplicatesFrom_append {seen sites : List MethodSite}
    (h : sites.Pairwise fun a b => ¬ b.collides a) (rest : List MethodSite) :
    duplicatesFrom seen (sites ++ rest) =
      sites.filter (fun site => seen.any site.collides) ++
        duplicatesFrom (sites.reverse ++ seen) rest := by
  induction h generalizing seen with
  | nil => rfl
  | @cons site sites hsite _ ih =>
    have hothers : sites.filter (fun s => (site :: seen).any s.collides) =
        sites.filter fun s => seen.any s.collides := by
      refine List.filter_congr ?_
      intro s hs
      simp [hsite s hs]
    rw [List.cons_append, duplicatesFrom, ih, hothers, List.reverse_cons, List.append_assoc]
    by_cases hold : seen.any site.collides
    · rw [if_pos hold, List.filter_cons, if_pos hold]
      rfl
    · rw [if_neg hold, List.filter_cons, if_neg hold]
      rfl

/-- What is found at members with others in front of them, member by member. -/
theorem duplicatesFrom_members (before members : List Member) :
    duplicatesFrom (before.flatMap Member.methodSites).reverse
        (members.flatMap Member.methodSites) =
      (splitsFrom before members).flatMap fun p => p.2.redefined p.1 := by
  induction members generalizing before with
  | nil => rfl
  | cons m rest ih =>
    have hseen : m.methodSites.reverse ++ (before.flatMap Member.methodSites).reverse =
        ((before ++ [m]).flatMap Member.methodSites).reverse := by simp
    rw [List.flatMap_cons, duplicatesFrom_append m.pairwise_methodSites, hseen, ih, splitsFrom,
      List.flatMap_cons, Member.redefined]
    simp only [List.any_reverse]

/-- The diagnostics for the names that a member of an entity redefines. -/
def Entry.redefinitions (e : Entry) (before : List Member) (m : Member) : List Diagnostic :=
  (m.redefined before).map fun site => ⟨.duplicatedMethodDefinition e.name site.name, site.span⟩

theorem duplicateFindings_eq (e : Entry) :
    duplicateFindings e =
      (splitsFrom [] e.members).flatMap fun p => e.redefinitions p.1 p.2 := by
  have hsites : e.methodSites = e.members.flatMap Member.methodSites := by
    rw [Entry.methodSites, Entry.members, List.flatMap_assoc]
  have hmembers := duplicatesFrom_members [] e.members
  rw [duplicateFindings, hsites]
  simp only [List.flatMap_nil, List.reverse_nil] at hmembers
  rw [hmembers, List.map_flatMap]
  rfl

theorem Entry.kind_of_mem_redefinitions {e : Entry} {before : List Member} {m : Member}
    {d : Diagnostic} (h : d ∈ e.redefinitions before m) :
    d.kind = .duplicatedMethodDefinition ∧ d.span = m.span := by
  obtain ⟨site, hsite, rfl⟩ := List.mem_map.1 h
  exact ⟨rfl, Member.span_of_mem_methodSites (List.mem_filter.1 hsite).1⟩

/-- Nested declarations define no methods. -/
theorem Entry.isPlain_of_redefinitions {e : Entry} {before : List Member} {m : Member}
    (h : e.redefinitions before m ≠ []) : m.isPlain := by
  cases m with
  | nested _ => exact absurd rfl h
  | method _ | attr _ | methodAlias _ | mixin _ | marker _ | typedVar _ => rfl

theorem Entry.head?_redefinitions {e : Entry} {before : List Member} {m : Member} {name : TypeName}
    {n : String} {span : Span} :
    (e.redefinitions before m).head? = some ⟨.duplicatedMethodDefinition name n, span⟩ ↔
      e.name = name ∧ m.span = span ∧ m.RedefinesFirst before n := by
  have hspan : ∀ site, (m.redefined before).head? = some site → site.span = m.span := fun site h =>
    Member.span_of_mem_methodSites (List.mem_filter.1 (List.mem_of_mem_head? h)).1
  rw [Member.redefinesFirst_iff, redefinitions, List.head?_map, Option.map_eq_some_iff]
  constructor
  · rintro ⟨site, hsite, heq⟩
    simp only [Diagnostic.mk.injEq, Issue.duplicatedMethodDefinition.injEq] at heq
    obtain ⟨⟨hname, hn⟩, hplace⟩ := heq
    exact ⟨hname, (hspan site hsite).symm.trans hplace, site, hsite, hn⟩
  · rintro ⟨rfl, rfl, site, hsite, rfl⟩
    exact ⟨site, hsite, by rw [hspan site hsite]⟩

/-! ## Sessions -/

/-- The members of all entities, each with those in front of it. -/
def Environment.splits (env : Environment) : List (Entry × List Member × Member) :=
  env.entities.flatMap fun e => (splitsFrom [] e.members).map (e, ·)

theorem Environment.mem_splits {env : Environment} {e : Entry} {before : List Member} {m : Member} :
    (e, before, m) ∈ env.splits ↔
      e ∈ env.entities ∧ ∃ after, e.members = before ++ m :: after := by
  simp [splits, mem_splitsFrom_iff]

theorem Environment.map_splits (env : Environment) :
    env.splits.map (fun p => (p.1, p.2.2)) = env.members := by
  rw [splits, members, List.map_flatMap]
  refine List.flatMap_congr ?_
  intro e _
  calc ((splitsFrom [] e.members).map (e, ·)).map (fun p => (p.1, p.2.2))
      = ((splitsFrom [] e.members).map (·.2)).map (e, ·) := by rw [List.map_map, List.map_map]; rfl
    _ = e.members.map (e, ·) := by rw [map_snd_splitsFrom]

/-- A redefinition is reported exactly if it is one of an entity of the session, at the place of the
member that redefines the name, unless the member is an accessor that redefines the name of its
reader, too, and the name is that of its writer. -/
theorem SessionSetup.duplicated_iff {setup : SessionSetup} {s : Session}
    (hbuild : setup.build = .ok s) {name : TypeName} {n : String} {span : Span} :
    ⟨.duplicatedMethodDefinition name n, span⟩ ∈ s.validate ↔
      ∃ e ∈ s.env.entities, e.name = name ∧ ∃ before m after,
        e.members = before ++ m :: after ∧ m.span = span ∧ m.Redefines before n ∧
          ∀ a, m = .attr a → n = a.writerName → ¬ m.Redefines before a.name := by
  have hkeyed := get?_of_mem_entities hbuild
  have hspans : s.env.splits.Pairwise fun p q =>
      p.1.redefinitions p.2.1 p.2.2 ≠ [] → q.1.redefinitions q.2.1 q.2.2 ≠ [] →
        p.2.2.span ≠ q.2.2.span := by
    have hmembers := List.pairwise_filter.1 (List.pairwise_map.1 (nodup_spans_members hbuild))
    rw [← Environment.map_splits] at hmembers
    refine (List.pairwise_map.1 hmembers).imp ?_
    intro p q hne hp hq
    exact hne (Entry.isPlain_of_redefinitions hp) (Entry.isPlain_of_redefinitions hq)
  have hgroups : s.env.entities.flatMap duplicateFindings =
      s.env.splits.flatMap fun p => p.1.redefinitions p.2.1 p.2.2 := by
    rw [Environment.splits, List.flatMap_assoc]
    refine List.flatMap_congr ?_
    intro e _
    rw [duplicateFindings_eq, List.flatMap_map]
  have hfound : ⟨.duplicatedMethodDefinition name n, span⟩ ∈ Diagnostic.dedupe s.env.rawFindings ↔
      ⟨.duplicatedMethodDefinition name n, span⟩ ∈
        s.env.splits.filterMap fun p => (p.1.redefinitions p.2.1 p.2.2).head? := by
    rw [← Diagnostic.dedupe_flatMap (fun p _ d hd => Entry.kind_of_mem_redefinitions hd) hspans,
      ← hgroups, ← Environment.filter_rawFindings_duplicated hkeyed, ← Diagnostic.filter_dedupe,
      List.mem_filter, and_iff_left (by simp [Diagnostic.kind, Issue.kind])]
  rw [Session.mem_validate_iff hbuild (by simp [Diagnostic.kind, Issue.kind]), hfound,
    List.mem_filterMap]
  simp only [Entry.head?_redefinitions, Prod.exists, Environment.mem_splits]
  constructor
  · rintro ⟨e, before, m, ⟨he, after, hmembers⟩, hname, hspan, hfirst⟩
    exact ⟨e, he, hname, before, m, after, hmembers, hspan, hfirst⟩
  · rintro ⟨e, he, hname, before, m, after, hmembers, hspan, hfirst⟩
    exact ⟨e, before, m, ⟨he, after, hmembers⟩, hname, hspan, hfirst⟩

/-- A class that writes an accessor twice. -/
def twiceSetup : SessionSetup :=
  .ofFile "a.rbs" "class Box\n  attr_accessor size: Box\n  attr_accessor size: Box\nend\n"

/-- The members of an entity, if they are two attributes. -/
def Entry.attributes? (e : Entry) : Option (AttributeMember × AttributeMember) :=
  match e.members with
  | [.attr a, .attr b] => some (a, b)
  | _ => none

theorem Entry.members_of_attributes? {e : Entry} {a b : AttributeMember}
    (h : e.attributes? = some (a, b)) : e.members = [.attr a] ++ [.attr b] := by
  rw [attributes?] at h
  split at h
  · rename_i hmembers
    obtain ⟨rfl, rfl⟩ := Prod.mk.inj (Option.some.inj h)
    exact hmembers
  · cases h

/-- An attribute of instances with both accessors. -/
structure AttributeMember.Accesses (a : AttributeMember) (n : String) : Prop where
  kind : a.kind = .accessor
  name : a.name = n
  side : a.singleton = false

instance (a : AttributeMember) (n : String) : Decidable (a.Accesses n) :=
  decidable_of_iff (a.kind = .accessor ∧ a.name = n ∧ a.singleton = false)
    ⟨fun ⟨hkind, hname, hside⟩ => ⟨hkind, hname, hside⟩,
      fun ⟨hkind, hname, hside⟩ => ⟨hkind, hname, hside⟩⟩

theorem AttributeMember.Accesses.redefines {a b : AttributeMember} {n : String} (ha : a.Accesses n)
    (hb : b.Accesses n) :
    (Member.attr b).Redefines [.attr a] n ∧ (Member.attr b).Redefines [.attr a] (n ++ "=") := by
  have hreader : ∀ {c : AttributeMember}, c.Accesses n →
      (Member.attr c).DeclaresMethod .onInstance n := fun hc =>
    .reader hc.side (by rw [hc.kind]; rfl) hc.name
  have hwriter : ∀ {c : AttributeMember}, c.Accesses n →
      (Member.attr c).DeclaresMethod .onInstance (n ++ "=") := fun hc =>
    .writer hc.side (by rw [hc.kind]; rfl) (by rw [hc.name])
  exact ⟨⟨_, hreader hb, _, List.mem_singleton_self _, hreader ha⟩,
    ⟨_, hwriter hb, _, List.mem_singleton_self _, hwriter ha⟩⟩

/-- Whether a redefinition of a writer behind one of its reader is not reported. -/
def Session.hidesWriter (s : Session) (n : String) (e : Entry) : Bool :=
  e.attributes?.any fun p => decide (p.1.Accesses n) && decide (p.2.Accesses n) &&
    decide (⟨.duplicatedMethodDefinition e.name (n ++ "="), p.2.span⟩ ∉ s.validate)

set_option maxRecDepth 100000 in
theorem exists_twice : ∃ s e a b, twiceSetup.build = .ok s ∧ e ∈ s.env.entities ∧
    e.members = [.attr a] ++ [.attr b] ∧ a.Accesses "size" ∧ b.Accesses "size" ∧
      ⟨.duplicatedMethodDefinition e.name "size=", b.span⟩ ∉ s.validate := by
  obtain ⟨s, hbuild, hs⟩ := exists_ok_of_any twiceSetup.build
    (fun s => s.env.entities.any (s.hidesWriter "size")) (by decide +kernel)
  obtain ⟨e, he, hhides⟩ := List.any_eq_true.1 hs
  simp only [Session.hidesWriter, Option.any_eq_true, Bool.and_eq_true, decide_eq_true_eq,
    Prod.exists] at hhides
  obtain ⟨a, b, hmembers, ⟨ha, hb⟩, hsilent⟩ := hhides
  exact ⟨s, e, a, b, hbuild, he, Entry.members_of_attributes? hmembers, ha, hb, hsilent⟩

/-- That the second accessor redefines the reader is reported. -/
theorem twice_reader_reported : ∃ s e m, twiceSetup.build = .ok s ∧ e ∈ s.env.entities ∧
    m ∈ e.members ∧ ⟨.duplicatedMethodDefinition e.name "size", m.span⟩ ∈ s.validate := by
  obtain ⟨s, e, a, b, hbuild, he, hmembers, ha, hb, -⟩ := exists_twice
  refine ⟨s, e, .attr b, hbuild, he, by simp [hmembers], ?_⟩
  refine (SessionSetup.duplicated_iff hbuild).2
    ⟨e, he, rfl, [.attr a], .attr b, [], hmembers, rfl, (ha.redefines hb).1, ?_⟩
  intro c hc hwriter
  obtain rfl := Member.attr.inj hc
  rw [AttributeMember.writerName, hb.name] at hwriter
  exact absurd hwriter (String.ne_append_mark _)

/-- That it redefines the writer, too, is not. -/
theorem twice_writer_unreported : ∃ s e before m, twiceSetup.build = .ok s ∧ e ∈ s.env.entities ∧
    e.members = before ++ [m] ∧ m.Redefines before "size=" ∧
      ⟨.duplicatedMethodDefinition e.name "size=", m.span⟩ ∉ s.validate := by
  obtain ⟨s, e, a, b, hbuild, he, hmembers, ha, hb, hsilent⟩ := exists_twice
  exact ⟨s, e, _, _, hbuild, he, hmembers, (ha.redefines hb).2, hsilent⟩

end RubySig
