import RubySig.Proofs.Definition.Nearest

/-!
# Where methods are implemented

Every method of a definition goes back to a method or an accessor that an ancestor declares: an
alias copies what it stands for out of the table that was read so far, and everything in that table
was declared at the alias's own ancestor or farther away.

* `Member.Declares`, `AncestorEntry.Declares`: a method or an accessor with its signature, as an
  ancestor declares it.
* `AncestorEntry.declares_of_mem_contributed`: what an ancestor contributes is declared.
* `MethodTable.Grounded`: every method of a table is implemented by one of some ancestors.
* `MethodTable.grounded_ofEntries`: the table of a chain is grounded in the chain.
* `IsNearest.isAlias`: a name that its owner gives by an alias.
* `Environment.implementation_declared`: the owner and the implementation of a method.
-/

namespace RubySig

/-! ## Declared methods -/

/-- The section that a member opens, if it is a marker. -/
def Member.opens? : Member → Option Visibility
  | .marker m => some m.visibility
  | _ => none

/-- The section in force behind some members of a body: that of the last marker, and the public one
where there is none. -/
def sectionBehind (members : List Member) : Visibility :=
  (members.filterMap Member.opens?).getLast?.getD .publicAccess

/-- In a section a member is a method on a side, or an attribute of that side with an accessor, and
this is its name, its accessibility, the overloads as they are written and the place. -/
inductive Member.Declares (side : Context) (sect : Visibility) :
    Member → String → Visibility → List MethodType → Span → Prop
  | method {m : MethodMember} {accessibility : Visibility}
      (h : m.accessibility? side sect = some accessibility) :
      Declares side sect (.method m) m.name accessibility m.overloads m.span
  | accessor {a : AttributeMember} {p : String × MethodType}
      (hside : a.singleton = side.isSingleton) (hp : p ∈ a.accessors) :
      Declares side sect (.attr a) p.1 (a.visibility.getD sect) [p.2] a.span

/-- One of the fragments of its entity has a method or an accessor on the ancestor's side, and this
is its name, its accessibility, the overloads as they are prepared for the chain and the place. -/
def AncestorEntry.Declares (env : Environment) (e : AncestorEntry) (name : String)
    (accessibility : Visibility) (overloads : List MethodType) (span : Span) : Prop :=
  ∃ declared, env.get? e.name = some declared ∧
    ∃ b ∈ declared.bodies, ∃ before m after, b.members = before ++ m :: after ∧
      ∃ written, m.Declares e.context (sectionBehind before) name accessibility written span ∧
        overloads = written.map (prepareOverload env e declared.paramNames b)

theorem sectionBehind_append_marker (before : List Member) (m : VisibilityMarker) :
    sectionBehind (before ++ [.marker m]) = m.visibility := by
  simp [sectionBehind, Member.opens?]

theorem sectionBehind_append_of_opens?_eq_none (before : List Member) {m : Member}
    (h : m.opens? = none) : sectionBehind (before ++ [m]) = sectionBehind before := by
  simp [sectionBehind, h]

/-- What a method or an accessor among some members contributes is declared by one of them.  The
members in front of them decide about the section. -/
theorem declares_of_mem_contributedFrom {e : AncestorEntry} {prepare : MethodType → MethodType}
    {front members : List Member} {d : MethodDefinition}
    (h : d ∈ contributedFrom e prepare (sectionBehind front) members) :
    (d.owner = e.name ∧ d.implementation = e.name) ∧
      ∃ before m after, front ++ members = before ++ m :: after ∧
        ∃ written,
          m.Declares e.context (sectionBehind before) d.name d.accessibility written d.span ∧
            d.overloads = written.map prepare := by
  induction members generalizing front with
  | nil => exact absurd h List.not_mem_nil
  | cons m rest ih =>
    -- a later member, whatever the first one is
    have hlater : d ∈ contributedFrom e prepare (sectionBehind (front ++ [m])) rest →
        (d.owner = e.name ∧ d.implementation = e.name) ∧
          ∃ before m' after, front ++ m :: rest = before ++ m' :: after ∧
            ∃ written, m'.Declares e.context (sectionBehind before) d.name d.accessibility written
              d.span ∧ d.overloads = written.map prepare := by
      intro hd
      have hrest := ih hd
      rwa [List.append_assoc, List.singleton_append] at hrest
    cases m with
    | marker m =>
      rw [sectionBehind_append_marker] at hlater
      exact hlater h
    | method m =>
      rw [sectionBehind_append_of_opens?_eq_none front rfl] at hlater
      rw [contributedFrom] at h
      split at h
      · exact hlater h
      · rename_i accessibility hsome
        rcases List.mem_cons.1 h with rfl | h
        · exact ⟨⟨rfl, rfl⟩, front, _, rest, rfl, m.overloads, .method hsome, rfl⟩
        · exact hlater h
    | attr a =>
      rw [sectionBehind_append_of_opens?_eq_none front rfl] at hlater
      rw [contributedFrom] at h
      rcases List.mem_append.1 h with h | h
      · split at h
        · rename_i hside
          obtain ⟨p, hp, rfl⟩ := List.mem_map.1 h
          exact ⟨⟨rfl, rfl⟩, front, _, rest, rfl, [p.2], .accessor hside hp, rfl⟩
        · exact absurd h List.not_mem_nil
      · exact hlater h
    | methodAlias _ | mixin _ | typedVar _ | nested _ =>
      rw [sectionBehind_append_of_opens?_eq_none front rfl] at hlater
      exact hlater h

theorem AncestorEntry.declares_of_mem_contributed {env : Environment} {e : AncestorEntry}
    {declared : Entry} (hget : env.get? e.name = some declared) {d : MethodDefinition}
    (h : d ∈ contributed env e declared) :
    (d.owner = e.name ∧ d.implementation = e.name) ∧
      e.Declares env d.name d.accessibility d.overloads d.span := by
  obtain ⟨b, hb, hd⟩ := List.mem_flatMap.1 h
  have hpublic : sectionBehind [] = .publicAccess := rfl
  rw [← hpublic] at hd
  obtain ⟨hnames, before, m, after, hmembers, written, hdeclares, hoverloads⟩ :=
    declares_of_mem_contributedFrom hd
  exact ⟨hnames, declared, hget, b, hb, before, m, after, hmembers, written, hdeclares, hoverloads⟩

/-! ## Grounded tables -/

/-- An ancestor implements a method: it declares a method or an accessor, of whatever name, with the
same accessibility and the same overloads. -/
def AncestorEntry.Implements (env : Environment) (i : AncestorEntry) (m : MethodDefinition) :
    Prop :=
  m.implementation = i.name ∧
    ∃ name span, i.Declares env name m.accessibility m.overloads span

namespace MethodTable

variable {env : Environment} {entries : List AncestorEntry} {t : MethodTable}

/-- Every method of a table is implemented by one of the given ancestors. -/
def Grounded (env : Environment) (entries : List AncestorEntry) (t : MethodTable) : Prop :=
  ∀ p ∈ t.methods.pairs, ∃ i ∈ entries, i.Implements env p.2

theorem Grounded.mono {more : List AncestorEntry} (h : t.Grounded env entries)
    (hmore : ∀ i ∈ entries, i ∈ more) : t.Grounded env more := by
  intro p hp
  obtain ⟨i, hi, himplements⟩ := h p hp
  exact ⟨i, hmore i hi, himplements⟩

theorem Grounded.define (h : t.Grounded env entries) {d : MethodDefinition}
    (hd : ∃ i ∈ entries, i.Implements env d) : (t.define d).Grounded env entries := by
  intro p hp
  rcases OrderedMap.mem_pairs_insert hp with rfl | hp
  · exact hd
  · exact h p hp

/-- An alias is implemented where the method is that it stands for. -/
theorem Grounded.addAlias (h : t.Grounded env entries) (owner : TypeName) (a : AliasMember) :
    (addAlias owner t a).Grounded env entries := by
  by_cases hold : t.Defines a.oldName
  · obtain ⟨target, htarget, hadd⟩ := addAlias_of_defines owner hold
    obtain ⟨i, hi, himplements⟩ := h _ (OrderedMap.mem_pairs_of_get? htarget)
    rw [hadd]
    exact h.define ⟨i, hi, himplements⟩
  · rw [addAlias_of_not_defines owner hold]
    exact h

theorem Grounded.foldl_define (h : t.Grounded env entries) {ds : List MethodDefinition}
    (hds : ∀ d ∈ ds, ∃ i ∈ entries, i.Implements env d) :
    (ds.foldl MethodTable.define t).Grounded env entries := by
  induction ds generalizing t with
  | nil => exact h
  | cons d rest ih =>
    obtain ⟨hd, hrest⟩ := List.forall_mem_cons.1 hds
    exact ih (h.define hd) hrest

theorem Grounded.foldl_addAlias (h : t.Grounded env entries) (owner : TypeName)
    (as : List AliasMember) : (as.foldl (MethodTable.addAlias owner) t).Grounded env entries := by
  induction as generalizing t with
  | nil => exact h
  | cons a rest ih => exact ih (h.addAlias owner a)

/-- One more ancestor grounds what it adds in itself, or in what stood behind it already. -/
theorem Grounded.overlay {rest : List AncestorEntry} {t : MethodTable} (h : t.Grounded env rest)
    (e : AncestorEntry) : (overlay env t e).Grounded env (e :: rest) := by
  have hrest : t.Grounded env (e :: rest) := h.mono fun _ => List.mem_cons_of_mem e
  unfold MethodTable.overlay
  split
  · exact hrest
  · rename_i declared hget
    refine (hrest.foldl_define fun d hd => ?_).foldl_addAlias e.name _
    obtain ⟨⟨-, himplementation⟩, hdeclares⟩ := AncestorEntry.declares_of_mem_contributed hget hd
    exact ⟨e, List.mem_cons_self, himplementation, d.name, d.span, hdeclares⟩

/-- The table of a chain is grounded in the chain. -/
theorem grounded_ofEntries (env : Environment) (entries : List AncestorEntry) :
    (ofEntries env entries).Grounded env entries := by
  induction entries with
  | nil => exact fun p hp => absurd hp List.not_mem_nil
  | cons e rest ih =>
    rw [ofEntries_cons]
    exact ih.overlay e

/-! ## Aliases -/

/-- If some alias of a list gives a name, the last such alias decides what the name stands for. -/
theorem exists_of_get?_foldl_addAlias {owner : TypeName} {n : String} {as : List AliasMember}
    {m : MethodDefinition}
    (hgives : ∃ before a after, as = before ++ a :: after ∧ a.newName = n ∧
      (before.foldl (MethodTable.addAlias owner) t).Defines a.oldName)
    (h : (as.foldl (MethodTable.addAlias owner) t).methods.get? n = some m) :
    ∃ before a after target, as = before ++ a :: after ∧
      (before.foldl (MethodTable.addAlias owner) t).methods.get? a.oldName = some target ∧
      m = ⟨a.newName, owner, target.implementation, target.accessibility, target.overloads,
        a.span⟩ := by
  induction as using List.reverseRecOn with
  | nil =>
    obtain ⟨before, a, after, hsplit, -⟩ := hgives
    simp at hsplit
  | append_singleton as b ih =>
    rw [List.foldl_append, List.foldl_cons, List.foldl_nil] at h
    by_cases hlast : b.newName = n ∧ (as.foldl (MethodTable.addAlias owner) t).Defines b.oldName
    · obtain ⟨rfl, hold⟩ := hlast
      obtain ⟨target, htarget, hadd⟩ := addAlias_of_defines owner hold
      rw [hadd, get?_define, if_pos rfl] at h
      exact ⟨as, b, [], target, rfl, htarget, (Option.some.inj h).symm⟩
    · rw [get?_addAlias_of_not fun hn hold => hlast ⟨hn, hold⟩] at h
      -- the last alias of the list does not give the name, so an earlier one does
      obtain ⟨before, a, after, hsplit, hn, hold⟩ := hgives
      rcases List.eq_nil_or_concat after with rfl | ⟨after, c, rfl⟩
      · obtain ⟨rfl, hba⟩ := List.append_inj' hsplit rfl
        obtain rfl := List.singleton_inj.1 hba
        exact absurd ⟨hn, hold⟩ hlast
      · rw [List.concat_eq_append, ← List.cons_append, ← List.append_assoc] at hsplit
        obtain ⟨rfl, -⟩ := List.append_inj' hsplit rfl
        obtain ⟨before', a', after', target, hsplit', htarget, rfl⟩ :=
          ih ⟨before, a, after, rfl, hn, hold⟩ h
        refine ⟨before', a', after' ++ [b], target, ?_, htarget, rfl⟩
        rw [hsplit', List.append_assoc, List.cons_append]

end MethodTable

/-- A method is an alias of an ancestor: while the chain is read, the method that the alias stands
for is found in the table, and the alias is that method under another name. -/
def MethodDefinition.IsAlias (env : Environment) (entries : List AncestorEntry) (e : AncestorEntry)
    (m : MethodDefinition) : Prop :=
  ∃ a t target, ReadsAlias env entries e a t ∧ t.methods.get? a.oldName = some target ∧
    m = ⟨a.newName, e.name, target.implementation, target.accessibility, target.overloads, a.span⟩

namespace IsNearest

variable {env : Environment} {n : String} {entries front rest : List AncestorEntry}
  {e : AncestorEntry} {m : MethodDefinition}

theorem isAlias (h : IsNearest env n entries front e rest) (halias : e.GivesAlias env rest n)
    (hm : (MethodTable.ofEntries env entries).methods.get? n = some m) :
    m.IsAlias env entries e := by
  obtain ⟨declared, before, a, after, hget, haliases, hnew, hold⟩ := halias
  rw [h.get?_eq, MethodTable.ofEntries_cons_of_get? hget] at hm
  obtain ⟨before', a', after', target, hsplit, htarget, rfl⟩ :=
    MethodTable.exists_of_get?_foldl_addAlias ⟨before, a, after, haliases, hnew, hold⟩ hm
  exact ⟨a', _, target, ⟨front, rest, declared, before', after', h.split, hget, hsplit, rfl⟩,
    htarget, rfl⟩

/-- A name that the owner gives by no alias is a method or an accessor that it declares. -/
theorem declares (h : IsNearest env n entries front e rest) (halias : ¬ e.GivesAlias env rest n)
    (hm : (MethodTable.ofEntries env entries).methods.get? n = some m) :
    (m.owner = e.name ∧ m.implementation = e.name) ∧
      e.Declares env m.name m.accessibility m.overloads m.span := by
  obtain ⟨declared, hget, hfind⟩ := h.get?_contributed halias
  rw [hm] at hfind
  exact AncestorEntry.declares_of_mem_contributed hget
    (List.mem_reverse.1 (List.mem_of_find?_eq_some hfind.symm))

end IsNearest

/-! ## Implementations -/

/-- The owner of a method of a definition is the nearest ancestor that gives its name.  At the owner
or behind it stands the ancestor that implements the method: on its side it declares a method or an
accessor with just this accessibility and these prepared overloads.  If the owner gives the name by
an alias, the method is that alias; if not, the owner declares the method under its name and
implements it. -/
theorem Environment.implementation_declared {env : Environment} {key : ChainKey} {d : Definition}
    (h : env.definition key = .ok d) {m : MethodDefinition} (hm : m ∈ d.methods) :
    ∃ front e rest, IsNearest env m.name d.ancestors.entries front e rest ∧ m.owner = e.name ∧
      (∃ i ∈ e :: rest, i.Implements env m) ∧
      (e.GivesAlias env rest m.name → m.IsAlias env d.ancestors.entries e) ∧
      (¬ e.GivesAlias env rest m.name → m.implementation = m.owner ∧
        e.Declares env m.name m.accessibility m.overloads m.span) := by
  obtain ⟨c, -, rfl⟩ := definition_eq_ok_iff.1 h
  obtain ⟨p, hp, rfl⟩ := List.mem_map.1 (mem_methods_definitionOf.1 hm)
  have hget : (MethodTable.ofEntries env c.entries).methods.get? p.2.name = some p.2 := by
    have hfound := OrderedMap.get?_of_mem_pairs (MethodTable.nodup_keys_ofEntries env _) hp
    rwa [MethodTable.name_of_get? hfound]
  obtain ⟨front, e, rest, hnearest⟩ := MethodTable.exists_nearest (OrderedMap.mem_keys_of_get? hget)
  have howner := hnearest.owner_eq hget
  refine ⟨front, e, rest, hnearest, howner, ?_, fun halias => hnearest.isAlias halias hget, ?_⟩
  · have hbehind := hnearest.get?_eq ▸ hget
    exact MethodTable.grounded_ofEntries env (e :: rest) (p.2.name, p.2)
      (OrderedMap.mem_pairs_of_get? hbehind)
  · intro halias
    obtain ⟨⟨-, himplementation⟩, hdeclares⟩ := hnearest.declares halias hget
    exact ⟨himplementation.trans howner.symm, hdeclares⟩

/-- A class whose aliases go back to an accessor of the superclass, one through the other. -/
def nicknamedSetup : SessionSetup :=
  .ofFile "a.rbs" ("class Base\n  private\n  attr_reader name: Symbol\nend\n\n" ++
    "class Child < Base\n  alias title name\n  alias nick title\nend\n")

set_option maxRecDepth 100000 in
/-- The alias of an alias belongs to the class and is implemented by the superclass, which declares
a private accessor. -/
theorem nick_implemented_by_base : ∃ s d m, nicknamedSetup.build = .ok s ∧
    s.env.definition (instanceSide "Child") = .ok d ∧ m ∈ d.methods ∧ m.name = "nick" ∧
    m.owner = .topLevel "Child" ∧ m.implementation = .topLevel "Base" ∧
    m.accessibility = .privateAccess ∧
    ∃ front e rest, IsNearest s.env m.name d.ancestors.entries front e rest ∧ m.owner = e.name ∧
      (∃ i ∈ e :: rest, i.Implements s.env m) ∧
      (e.GivesAlias s.env rest m.name → m.IsAlias s.env d.ancestors.entries e) ∧
      (¬ e.GivesAlias s.env rest m.name → m.implementation = m.owner ∧
        e.Declares s.env m.name m.accessibility m.overloads m.span) := by
  obtain ⟨s, hbuild, hs⟩ := exists_ok_of_any nicknamedSetup.build
    (fun s => (s.env.chain [] (instanceSide "Child")).toOption.any fun c =>
      ((MethodTable.ofEntries s.env c.entries).methods.get? "nick").any fun m =>
        m.owner = .topLevel "Child" && (m.implementation = .topLevel "Base" &&
          m.accessibility = .privateAccess))
    (by decide +kernel)
  obtain ⟨c, hc, hfound⟩ := exists_ok_of_any _ _ hs
  rw [Option.any_eq_true] at hfound
  obtain ⟨m, hget, hfacts⟩ := hfound
  simp only [Bool.and_eq_true, decide_eq_true_eq] at hfacts
  obtain ⟨howner, himplementation, haccess⟩ := hfacts
  have hd := Environment.definition_eq_ok_iff.2 ⟨c, hc, rfl⟩
  have hm := Environment.mem_methods_definitionOf.2 (OrderedMap.mem_values_of_get? hget)
  exact ⟨s, _, m, hbuild, hd, hm, MethodTable.name_of_get? hget, howner, himplementation, haccess,
    Environment.implementation_declared hd hm⟩

end RubySig
