import RubySig.Proofs.Ancestry.Memo
import RubySig.Proofs.Definition.Lookup
import RubySig.Proofs.Validation.Silence

/-!
# The nearest declaration wins

Which ancestor a method belongs to, told from the members that are declared.

* `Member.DeclaresMethod`, `Member.DeclaresAlias`: a member declares a name on a side.
* `AncestorEntry.declaresMethod_iff`, `AncestorEntry.declaresAlias_iff`: an ancestor contributes
  exactly what the members of its fragments declare.
* `IsNearest.eq_or_mem_of_declares`: the nearest ancestor that gives a name, compared to the nearest
  one that declares a method of the name.
* `Environment.nearest_wins`: the method belongs to the nearest ancestor that declares it, unless an
  alias of a nearer one has its name.
-/

namespace RubySig

/-! ## Declared names -/

/-- A method of a kind belongs to a side. -/
def MethodKind.OnSide (kind : MethodKind) : Context → Prop
  | .onInstance => kind.hasInstanceSide
  | .onSingleton => kind.hasSingletonSide

/-- A member is a method of a name on a side, or an attribute with an accessor of the name. -/
inductive Member.DeclaresMethod (side : Context) (n : String) : Member → Prop
  | method {m : MethodMember} (hside : m.kind.OnSide side) (hname : m.name = n) :
      DeclaresMethod side n (.method m)
  | reader {a : AttributeMember} (hside : a.singleton = side.isSingleton)
      (hreader : a.kind.hasReader) (hname : a.name = n) : DeclaresMethod side n (.attr a)
  | writer {a : AttributeMember} (hside : a.singleton = side.isSingleton)
      (hwriter : a.kind.hasWriter) (hname : a.name ++ "=" = n) : DeclaresMethod side n (.attr a)

/-- A member is an alias on a side that adds a name. -/
inductive Member.DeclaresAlias (side : Context) (n : String) : Member → Prop
  | intro {a : AliasMember} (hside : a.singleton = side.isSingleton) (hname : a.newName = n) :
      DeclaresAlias side n (.methodAlias a)

namespace AncestorEntry

/-- In one of the fragments of its entity an ancestor declares a method or accessor of a name on its
side. -/
def DeclaresMethod (env : Environment) (e : AncestorEntry) (n : String) : Prop :=
  ∃ declared, env.get? e.name = some declared ∧
    ∃ b ∈ declared.bodies, ∃ m ∈ b.members, m.DeclaresMethod e.context n

/-- In one of the fragments of its entity an ancestor declares an alias of a name on its side. -/
def DeclaresAlias (env : Environment) (e : AncestorEntry) (n : String) : Prop :=
  ∃ declared, env.get? e.name = some declared ∧
    ∃ b ∈ declared.bodies, ∃ m ∈ b.members, m.DeclaresAlias e.context n

end AncestorEntry

/-! ## What is contributed is declared -/

theorem MethodMember.accessibility?_eq_none_iff {m : MethodMember} {side : Context}
    {sect : Visibility} : m.accessibility? side sect = none ↔ ¬ m.kind.OnSide side := by
  unfold MethodMember.accessibility?
  cases m.kind <;> cases side <;>
    simp [MethodKind.OnSide, MethodKind.hasInstanceSide, MethodKind.hasSingletonSide]

theorem Member.declaresMethod_method_iff {side : Context} {n : String} {m : MethodMember} :
    (Member.method m).DeclaresMethod side n ↔ m.kind.OnSide side ∧ m.name = n :=
  ⟨fun | .method hside hname => ⟨hside, hname⟩, fun h => .method h.1 h.2⟩

theorem Member.declaresMethod_attr_iff {side : Context} {n : String} {a : AttributeMember} :
    (Member.attr a).DeclaresMethod side n ↔
      a.singleton = side.isSingleton ∧ ∃ p ∈ a.accessors, p.1 = n := by
  have haccessor : (∃ p ∈ a.accessors, p.1 = n) ↔
      a.kind.hasReader ∧ a.name = n ∨ a.kind.hasWriter ∧ a.name ++ "=" = n := by
    rw [AttributeMember.accessors]
    cases a.kind <;>
      simp [AttributeKind.hasReader, AttributeKind.hasWriter, AttributeMember.writerName]
  rw [haccessor]
  constructor
  · rintro (_ | ⟨hside, hreader, hname⟩ | ⟨hside, hwriter, hname⟩)
    · exact ⟨hside, Or.inl ⟨hreader, hname⟩⟩
    · exact ⟨hside, Or.inr ⟨hwriter, hname⟩⟩
  · rintro ⟨hside, ⟨hreader, hname⟩ | ⟨hwriter, hname⟩⟩
    · exact .reader hside hreader hname
    · exact .writer hside hwriter hname

/-- The names that some members contribute are those that they declare on the ancestor's side. -/
theorem exists_contributedFrom_iff {e : AncestorEntry} {prepare : MethodType → MethodType}
    {sect : Visibility} {members : List Member} {n : String} :
    (∃ d ∈ contributedFrom e prepare sect members, d.name = n) ↔
      ∃ m ∈ members, m.DeclaresMethod e.context n := by
  induction members generalizing sect with
  | nil => simp [contributedFrom]
  | cons m rest ih =>
    rw [List.exists_mem_cons_iff]
    cases m with
    | method m =>
      rw [contributedFrom, Member.declaresMethod_method_iff]
      split
      · rename_i hnone
        rw [ih]
        exact (or_iff_right fun h =>
          MethodMember.accessibility?_eq_none_iff.1 hnone h.1).symm
      · rename_i accessibility hsome
        have hside : m.kind.OnSide e.context := by
          by_contra hno
          rw [MethodMember.accessibility?_eq_none_iff.2 hno] at hsome
          cases hsome
        rw [List.exists_mem_cons_iff, ih]
        exact or_congr_left ⟨fun hname => ⟨hside, hname⟩, fun h => h.2⟩
    | attr a =>
      rw [contributedFrom, Member.declaresMethod_attr_iff]
      simp only [List.mem_append, or_and_right, exists_or, ih]
      refine or_congr_left ?_
      split
      · rename_i hside
        simp [hside]
      · rename_i hside
        simp [hside]
    | marker _ | methodAlias _ | mixin _ | typedVar _ | nested _ =>
      rw [contributedFrom, ih]
      exact (or_iff_right fun h => by cases h).symm

namespace AncestorEntry

variable {env : Environment} {e : AncestorEntry} {n : String}

theorem declaresMethod_iff : e.DeclaresMethod env n ↔ e.WritesMethod env n := by
  refine exists_congr fun declared => and_congr_right fun _ => ?_
  rw [contributed]
  simp only [List.mem_flatMap]
  constructor
  · rintro ⟨b, hb, hm⟩
    obtain ⟨d, hd, hname⟩ := exists_contributedFrom_iff.2 hm
    exact ⟨d, ⟨b, hb, hd⟩, hname⟩
  · rintro ⟨d, ⟨b, hb, hd⟩, hname⟩
    exact ⟨b, hb, exists_contributedFrom_iff.1 ⟨d, hd, hname⟩⟩

theorem declaresAlias_iff : e.DeclaresAlias env n ↔ ∃ a, e.WritesAlias env a ∧ a.newName = n := by
  constructor
  · rintro ⟨declared, hget, b, hb, _, hm, ⟨hside, hname⟩⟩
    refine ⟨_, ⟨declared, hget, List.mem_flatMap.2 ⟨b, hb, ?_⟩⟩, hname⟩
    exact List.mem_filterMap.2 ⟨_, hm, if_pos hside⟩
  · rintro ⟨a, ⟨declared, hget, ha⟩, hname⟩
    obtain ⟨b, hb, ha⟩ := List.mem_flatMap.1 ha
    obtain ⟨m, hm, ha⟩ := List.mem_filterMap.1 ha
    refine ⟨declared, hget, b, hb, m, hm, ?_⟩
    cases m with
    | methodAlias a' =>
      dsimp only at ha
      split at ha
      · obtain rfl := Option.some.inj ha
        exact .intro ‹_› hname
      · cases ha
    | _ => cases ha

end AncestorEntry

/-! ## Two nearest ancestors -/

/-- The nearest ancestor that gives a name is the nearest one that writes a method of the name,
or stands in front of it and gives the name by an alias. -/
theorem IsNearest.eq_or_mem_of_writes {env : Environment} {n : String}
    {entries front rest near far : List AncestorEntry} {e f : AncestorEntry}
    (h : IsNearest env n entries near f far) (hsplit : entries = front ++ e :: rest)
    (hwrites : e.WritesMethod env n) (hfirst : ∀ g ∈ front, ¬ g.WritesMethod env n) :
    f = e ∨ f ∈ front ∧ f.GivesAlias env far n := by
  rw [h.split] at hsplit
  rcases List.append_eq_append_iff.1 hsplit with
    ⟨_ | ⟨g, between⟩, hfront, htail⟩ | ⟨_ | ⟨g, between⟩, hnear, htail⟩
  · exact Or.inl (List.cons.inj htail).1
  · obtain ⟨rfl, -⟩ := List.cons.inj htail
    have hmem : f ∈ front := hfront ▸ List.mem_append_right _ List.mem_cons_self
    exact Or.inr ⟨hmem, h.gives.resolve_left (hfirst f hmem)⟩
  · exact Or.inl (List.cons.inj htail).1.symm
  · obtain ⟨rfl, -⟩ := List.cons.inj htail
    have hmem : e ∈ near := hnear ▸ List.mem_append_right _ List.mem_cons_self
    exact absurd hwrites (h.notWritesMethod e hmem)

/-! ## Owners -/

/-- If a chain can be built, so can its definition.  A name that some ancestor declares as a method
or accessor is a method of the definition: it belongs to the nearest such ancestor, or to one in
front of it that declares an alias of the name.  Every method of the definition belongs to an
ancestor that declares its name, and no nearer one declares it as a method or accessor. -/
theorem Environment.nearest_wins {env : Environment} {key : ChainKey} {c : Chain}
    (h : env.ancestors key = .ok c) :
    ∃ d, env.definition key = .ok d ∧ d.ancestors = c ∧ ∀ n,
      (∀ front e rest, c.entries = front ++ e :: rest → e.DeclaresMethod env n →
        (∀ f ∈ front, ¬ f.DeclaresMethod env n) →
        ∃ m, d.method? n = some m ∧
          (m.owner = e.name ∨ ∃ f ∈ front, m.owner = f.name ∧ f.DeclaresAlias env n)) ∧
      ∀ m, d.method? n = some m → m.name = n ∧
        ∃ front e rest, c.entries = front ++ e :: rest ∧ m.owner = e.name ∧
          (e.DeclaresMethod env n ∨ e.DeclaresAlias env n) ∧
          ∀ f ∈ front, ¬ f.DeclaresMethod env n := by
  rw [ancestors_eq_chain] at h
  refine ⟨env.definitionOf c, definition_eq_ok_iff.2 ⟨c, h, rfl⟩, rfl, fun n => ?_⟩
  rw [method?_definitionOf]
  simp only [AncestorEntry.declaresMethod_iff]
  constructor
  · intro front e rest hsplit hwrites hfirst
    have hdefines : (MethodTable.ofEntries env c.entries).Defines n := by
      refine MethodTable.defines_ofEntries_iff.2 (Or.inl ⟨e, ?_, hwrites⟩)
      exact hsplit ▸ List.mem_append_right _ List.mem_cons_self
    obtain ⟨m, hm⟩ := MethodTable.exists_target_of_defines hdefines
    obtain ⟨near, f, far, hnearest⟩ := MethodTable.exists_nearest hdefines
    refine ⟨m, hm, ?_⟩
    rw [hnearest.owner_eq hm]
    rcases hnearest.eq_or_mem_of_writes hsplit hwrites hfirst with rfl | ⟨hmem, halias⟩
    · exact Or.inl rfl
    · exact Or.inr ⟨f, hmem, rfl, AncestorEntry.declaresAlias_iff.2 halias.writesAlias⟩
  · intro m hm
    obtain ⟨near, f, far, hnearest⟩ :=
      MethodTable.exists_nearest (OrderedMap.mem_keys_of_get? hm)
    refine ⟨MethodTable.name_of_get? hm, near, f, far, hnearest.split, hnearest.owner_eq hm, ?_,
      hnearest.notWritesMethod⟩
    exact hnearest.gives.imp_right fun halias =>
      AncestorEntry.declaresAlias_iff.2 halias.writesAlias

/-- A class whose superclass and whose included module both have a method. -/
def overridingSetup : SessionSetup :=
  .ofFile "a.rbs" ("class Base\n  def run: () -> void\nend\n\n" ++
    "module Loud\n  def run: () -> void\nend\n\nclass Host < Base\n  include Loud\nend\n")

set_option maxRecDepth 100000 in
/-- The module is nearer than the superclass, and the class itself does not declare the method. -/
theorem module_wins_over_superclass : ∃ s d m, overridingSetup.build = .ok s ∧
    s.env.definition (instanceSide "Host") = .ok d ∧
    d.ancestors.entries.map (·.key) =
      [instanceSide "Host", instanceSide "Loud", instanceSide "Base"] ∧
    d.method? "run" = some m ∧ m.owner = .topLevel "Loud" ∧
    ∃ front e rest, d.ancestors.entries = front ++ e :: rest ∧ e.name = .topLevel "Loud" ∧
      (e.DeclaresMethod s.env "run" ∨ e.DeclaresAlias s.env "run") ∧
      ∀ f ∈ front, ¬ f.DeclaresMethod s.env "run" := by
  obtain ⟨s, hbuild, hs⟩ := exists_ok_of_any overridingSetup.build
    (fun s => (s.env.chain [] (instanceSide "Host")).toOption.any fun c =>
      c.entries.map (·.key) = [instanceSide "Host", instanceSide "Loud", instanceSide "Base"] &&
      ((s.env.definitionOf c).method? "run").any fun m => m.owner = .topLevel "Loud")
    (by decide +kernel)
  obtain ⟨c, hc, hfound⟩ := exists_ok_of_any _ _ hs
  rw [Bool.and_eq_true, Option.any_eq_true] at hfound
  obtain ⟨hkeys, m, hm, howner⟩ := hfound
  have hd := Environment.definition_eq_ok_iff.2 ⟨c, hc, rfl⟩
  rw [← Environment.ancestors_eq_chain] at hc
  obtain ⟨d, hd', -, hnearest⟩ := Environment.nearest_wins hc
  obtain rfl := Except.ok.inj (hd.symm.trans hd')
  obtain ⟨-, front, e, rest, hsplit, he, hdeclares, hfront⟩ := (hnearest "run").2 m hm
  have howner : m.owner = .topLevel "Loud" := of_decide_eq_true howner
  exact ⟨s, _, m, hbuild, hd, of_decide_eq_true hkeys, hm, howner, front, e, rest, hsplit,
    he ▸ howner, hdeclares, hfront⟩

end RubySig
