import RubySig.Proofs.Ancestry.Respanned
import RubySig.Proofs.Environment.Counterparts
import RubySig.Proofs.Environment.Insertion
import RubySig.Proofs.Environment.Scope
import RubySig.Proofs.Validation.References

/-!
# Merging declarations that correspond

Declarations of two texts that correspond are inserted or rejected together.  When in the end the
fragments without a list see the parameters of their entities, they say the same in both
environments.

* `EntityDecl.Counterpart.sameOwn_adopt`: fragments that correspond say the same in the end.
* `Entry.Counterpart`, `Merge.Counterpart`: entities and environments that correspond.
* `Merge.Counterpart.insert`, `Merge.Counterpart.insertAll`: one insertion, and all of them.
* `Merge.Counterpart.sameReading`: the result.
-/

namespace RubySig

/-! ## In the end -/

/-- A list of its own hides the parameters of the entity, and only classes and modules have bodies
that see them. -/
theorem adoptDecl_eq_self (params : List String) {d : EntityDecl}
    (h : Merge.canReopen d.kind → d.typeParams ≠ []) : adoptDecl params d = d := by
  cases d with
  | klass d | module d =>
    have hlisted : ¬ d.typeParams.isEmpty := fun hempty => h rfl (List.isEmpty_iff.1 hempty)
    rw [adoptDecl, if_neg hlisted]
  | interface _ | typeAlias _ | constant _ => rfl

section Bare

variable (params : List String) {d : EntityDecl} (hreopens : Merge.canReopen d.kind)
  (hbare : d.typeParams = [])
include hreopens hbare

theorem superClass?_adoptDecl :
    (adoptDecl params d).superClass?.map (NamedType.mapSpans Span.forget) =
      d.superClass?.map (NamedType.adopted params) := by
  cases d with
  | klass d =>
    rw [adoptDecl, if_pos (show d.typeParams.isEmpty from List.isEmpty_iff.2 hbare)]
    exact Option.map_map _ _ _
  | module d =>
    rw [adoptDecl, if_pos (show d.typeParams.isEmpty from List.isEmpty_iff.2 hbare)]
    rfl
  | interface _ | typeAlias _ | constant _ => cases hreopens

theorem members_adoptDecl :
    (adoptDecl params d).members.map (Member.own? Span.forget) =
      d.members.map (Member.adopted? params) := by
  cases d with
  | klass d | module d =>
    rw [adoptDecl, if_pos (show d.typeParams.isEmpty from List.isEmpty_iff.2 hbare)]
    exact List.map_map
  | interface _ | typeAlias _ | constant _ => cases hreopens

end Bare

theorem typeParamNames_eq_nil_iff {params : List TypeParam} :
    typeParamNames params = [] ↔ params = [] :=
  List.map_eq_nil_iff

namespace EntityDecl

variable {params : List String} {d d' : EntityDecl}

/-- What is read as a type parameter in both declarations is the same. -/
theorem Adopts.adopt (h : d.Adopts [] d') (params : List String) :
    d.superClass?.map (NamedType.adopted params) = d'.superClass?.map (NamedType.adopted params) ∧
      d.members.map (Member.adopted? params) = d'.members.map (Member.adopted? params) := by
  have hsuper : NamedType.adopted params ∘ NamedType.adopted [] = NamedType.adopted params :=
    funext (NamedType.adopted_adopted params)
  have hmembers : (Option.bind · (Member.adopted? params)) ∘ Member.adopted? [] =
      Member.adopted? params := funext (Member.adopted?_adopted? params)
  refine ⟨?_, ?_⟩
  · rw [← hsuper, ← Option.map_map, ← Option.map_map, h.superClass]
  · rw [← hmembers, ← List.map_map, ← List.map_map, h.members]

/-- What says the same is the same up to spans. -/
theorem Adopts.sameOwn (h : d.Adopts [] d') : d.SameOwn Span.forget d' := by
  have hsuper : NamedType.adopted [] = NamedType.mapSpans Span.forget :=
    funext NamedType.adopted_nil
  have hmembers : Member.adopted? [] = Member.own? Span.forget := funext Member.adopted?_nil
  exact ⟨hsuper ▸ h.superClass, hmembers ▸ h.members⟩

/-- Once they see the parameters of their entity, declarations that correspond are the same up to
spans. -/
theorem Counterpart.sameOwn_adopt {repeated canonical : List String} (hrepeated : repeated ≠ [])
    (h : d.Counterpart repeated (fun _ => canonical = repeated) d') :
    (adoptDecl canonical d).SameOwn Span.forget (adoptDecl canonical d') := by
  cases h with
  | same params adopts =>
    have hbare : d.typeParams = [] ↔ d'.typeParams = [] := by
      rw [← typeParamNames_eq_nil_iff, params, typeParamNames_eq_nil_iff]
    by_cases hsees : Merge.canReopen d.kind = true ∧ d.typeParams = []
    · obtain ⟨hreopens, hempty⟩ := hsees
      have hreopens' : Merge.canReopen d'.kind = true := adopts.kind ▸ hreopens
      have hempty' := hbare.1 hempty
      obtain ⟨hsuper, hmembers⟩ := adopts.adopt canonical
      refine ⟨?_, ?_⟩
      · rw [superClass?_adoptDecl _ hreopens hempty, superClass?_adoptDecl _ hreopens' hempty',
          hsuper]
      · rw [members_adoptDecl _ hreopens hempty, members_adoptDecl _ hreopens' hempty', hmembers]
    · rw [adoptDecl_eq_self _ fun hreopens hempty => hsees ⟨hreopens, hempty⟩,
        adoptDecl_eq_self _ fun hreopens hempty => hsees ⟨adopts.kind ▸ hreopens, hbare.2 hempty⟩]
      exact adopts.sameOwn
  | repeating place reopens bare params adopts =>
    obtain rfl : canonical = repeated := place
    have hlisted : d'.typeParams ≠ [] := fun hempty => hrepeated (by rw [← params, hempty]; rfl)
    rw [adoptDecl_eq_self _ fun _ => hlisted]
    refine ⟨?_, ?_⟩
    · rw [superClass?_adoptDecl _ reopens bare, adopts.superClass, funext NamedType.adopted_nil]
    · rw [members_adoptDecl _ reopens bare, adopts.members, funext Member.adopted?_nil]

end EntityDecl

/-! ## Entities -/

/-- Two entities correspond: they have the same name and parameters, and their fragments correspond.
Where a list is repeated, it is that of the entity. -/
structure Entry.Counterpart (repeated : List String) (e e' : Entry) : Prop where
  name : e.name = e'.name
  params : e.paramNames = e'.paramNames
  fragments : List.Forall₂ (Fragment.Counterpart repeated fun _ => e.paramNames = repeated)
    e.fragments e'.fragments

section Entries

variable {repeated : List String} {e e' : Entry} (h : e.Counterpart repeated e')
include h

theorem Entry.Counterpart.kind : e.kind = e'.kind := by
  cases h.fragments with
  | cons hprimary _ => exact hprimary.decl.kind

/-- In the end entities that correspond mean the same. -/
theorem Entry.Counterpart.sameReading_adopt {env env' : Environment}
    (hkind : ∀ name, env.kind? name = env'.kind? name) (hrepeated : repeated ≠ [])
    (hnodup : repeated.Nodup) :
    (adoptEntry e).SameReading Span.forget env env' (adoptEntry e') := by
  have hparams : ∀ e : Entry, (adoptEntry e).paramNames = e.paramNames := fun e => by
    rw [Entry.paramNames, typeParams_adoptEntry, Entry.paramNames]
  have hname : ∀ e : Entry, (adoptEntry e).name = e.name := fun e => by
    rw [adoptEntry]
    split <;> rfl
  refine ⟨?_, ?_, rfl, ?_, ?_⟩
  · rw [hname, hname, h.name]
  · rw [kind_adoptEntry, kind_adoptEntry, h.kind]
  · rw [hparams, hparams, h.params]
  · rw [fragments_adoptEntry_eq_map, fragments_adoptEntry_eq_map, ← h.params,
      List.forall₂_map_left_iff, List.forall₂_map_right_iff, hparams]
    refine h.fragments.imp fun f f' hf => ?_
    refine .of_own hf.nesting (hf.decl.sameOwn_adopt hrepeated) (readsAlike_of_params hkind ?_)
    have hlists : ∀ f : Fragment EntityDecl, (adoptFragment e.paramNames f).decl.typeParams =
        f.decl.typeParams := fun f => typeParams_adoptDecl _ _
    rw [hlists, hlists]
    cases hf.decl with
    | same params _ => exact Or.inl params
    | repeating place _ bare params _ =>
      exact Or.inr ⟨place ▸ hnodup, Or.inl bare, Or.inr (params.trans place.symm)⟩

end Entries

/-! ## Inserting -/

/-- Two environments under construction correspond, entity by entity. -/
def Merge.Counterpart (repeated : List String) (m m' : Merge) : Prop :=
  ∀ name, Option.Rel (Entry.Counterpart repeated) (m.env.get? name) (m'.env.get? name)

namespace Entry

theorem paramNames_single (name : TypeName) (f : Fragment EntityDecl) :
    Entry.paramNames ⟨name, f, []⟩ = typeParamNames f.decl.typeParams :=
  congrArg typeParamNames ((firstDeclared_append [] _).trans (if_pos rfl))

theorem paramNames_reopen (e : Entry) (f : Fragment EntityDecl) :
    Entry.paramNames { e with reopenings := e.reopenings ++ [f] } =
      if e.paramNames = [] then typeParamNames f.decl.typeParams else e.paramNames := by
  rw [paramNames, typeParams_reopen, apply_ite typeParamNames, paramNames]
  simp only [typeParamNames_eq_nil_iff]

end Entry

namespace Entry.Counterpart

variable {repeated : List String} {e e' : Entry} {f f' : Fragment EntityDecl}

/-- A list that is not the first one of its entity is not repeated in vain. -/
theorem single {name : TypeName} {here : Span → Prop} (h : f.Counterpart repeated here f')
    (hhere : ¬ here f.decl.nameSpan) : Entry.Counterpart repeated ⟨name, f, []⟩ ⟨name, f', []⟩ := by
  refine ⟨rfl, ?_, .cons ⟨h.nesting, h.decl.mono fun place => absurd place hhere⟩ .nil⟩
  rw [paramNames_single, paramNames_single]
  cases h.decl with
  | same params _ => exact params
  | repeating place _ _ _ _ => exact absurd place hhere

variable (h : e.Counterpart repeated e')
  (hf : f.Counterpart repeated (fun _ => e.paramNames = repeated) f')
include h hf

/-- A fragment fits in both environments or in none. -/
theorem clash?_iff : Merge.clash? e f.decl = none ↔ Merge.clash? e' f'.decl = none := by
  have hlists : ∀ ps qs : List TypeParam, (ps ≠ [] → qs ≠ [] → ps.length = qs.length) ↔
      (typeParamNames ps ≠ [] → typeParamNames qs ≠ [] →
        (typeParamNames ps).length = (typeParamNames qs).length) := fun ps qs => by
    rw [ne_eq, ne_eq, ← typeParamNames_eq_nil_iff, ← @typeParamNames_eq_nil_iff qs,
      typeParamNames, typeParamNames, List.length_map, List.length_map]
  rw [Merge.clash?_eq_none_iff, Merge.clash?_eq_none_iff, ← h.kind, ← hf.decl.kind, hlists,
    hlists e'.typeParams]
  refine and_congr_right' (and_congr_right' ?_)
  have hparams : typeParamNames e.typeParams = typeParamNames e'.typeParams := h.params
  rw [← hparams]
  cases hf.decl with
  | same params _ => rw [params]
  | repeating place _ bare params _ =>
    have hcanonical : typeParamNames e.typeParams = repeated := place
    rw [bare, params, hcanonical]
    exact ⟨fun _ _ _ => rfl, fun _ _ hlisted => absurd rfl hlisted⟩

/-- A fragment that fits in both environments leaves the entities correspond. -/
theorem reopen (hrepeated : repeated ≠ []) :
    Entry.Counterpart repeated { e with reopenings := e.reopenings ++ [f] }
      { e' with reopenings := e'.reopenings ++ [f'] } := by
  have hkeeps : e.paramNames = repeated →
      Entry.paramNames { e with reopenings := e.reopenings ++ [f] } = repeated := by
    intro hcanonical
    rw [paramNames_reopen, if_neg (hcanonical ▸ hrepeated), hcanonical]
  refine ⟨h.name, ?_, ?_⟩
  · rw [paramNames_reopen, paramNames_reopen, ← h.params]
    split
    · rename_i hnone
      cases hf.decl with
      | same params _ => exact params
      | repeating place _ _ _ _ => exact absurd (place.symm.trans hnone) hrepeated
    · rfl
  · refine List.rel_append (h.fragments.imp fun g g' hg => ?_) (.cons ?_ .nil)
    · exact ⟨hg.nesting, hg.decl.mono hkeeps⟩
    · exact ⟨hf.nesting, hf.decl.mono hkeeps⟩

end Entry.Counterpart

namespace Merge.Counterpart

variable {repeated : List String} {here : Span → Prop} {m m' : Merge}

theorem empty : Merge.empty.Counterpart repeated Merge.empty := fun _ => .none

theorem write (h : m.Counterpart repeated m') {e e' : Entry} (he : e.Counterpart repeated e') :
    (m.write e).Counterpart repeated (m'.write e') := by
  intro name
  show Option.Rel _ ((m.env.entries.insert e.name e).get? name)
    ((m'.env.entries.insert e'.name e').get? name)
  rw [OrderedMap.get?_insert, OrderedMap.get?_insert, ← he.name]
  split
  · exact .some he
  · exact h name

/-- Placements that correspond are inserted or rejected together, if the list that is repeated is
that of its entity. -/
theorem insert (h : m.Counterpart repeated m') (hrepeated : repeated ≠ []) {p p' : Placement}
    (hp : p.Counterpart repeated here p')
    (hopen : ∀ name f, p = .entity name f → here f.decl.nameSpan →
      ∃ e, m.env.get? name = some e ∧ e.paramNames = repeated) :
    (m.insert p).Counterpart repeated (m'.insert p') := by
  cases hp with
  | @entity name f f' hf =>
    have hopen := hopen name f rfl
    rw [Merge.insert, Merge.insert, insertEntity, insertEntity]
    rcases rel_cases (h name) with ⟨hget, hget'⟩ | ⟨e, e', hget, hget', he⟩
    · rw [hget, hget']
      refine h.write (.single hf fun place => ?_)
      obtain ⟨e, he, -⟩ := hopen place
      rw [hget] at he
      cases he
    · have hf' : f.Counterpart repeated (fun _ => e.paramNames = repeated) f' := by
        refine ⟨hf.nesting, hf.decl.mono fun place => ?_⟩
        obtain ⟨found, hfound, hcanonical⟩ := hopen place
        rw [hget] at hfound
        exact Option.some.inj hfound ▸ hcanonical
      have hfits := he.clash?_iff hf'
      rw [hget, hget']
      dsimp only
      cases hclash : clash? e f.decl with
      | none =>
        rw [hfits.1 hclash]
        exact h.write (he.reopen hf' hrepeated)
      | some reason =>
        obtain ⟨reason', hclash'⟩ := Option.ne_none_iff_exists'.1 fun hnone =>
          Option.some_ne_none _ (hclash.symm.trans (hfits.2 hnone))
        rw [hclash']
        exact h
  | global f f' =>
    have hsame : ∀ (m : Merge) (f : Fragment GlobalDecl) name,
        (m.insert (.global f)).env.get? name = m.env.get? name := fun m f name => by
      rw [Merge.insert, insertGlobal]
      split <;> rfl
    intro name
    rw [hsame, hsame]
    exact h name

/-- The same for several placements, one after the other. -/
theorem insertAll (h : m.Counterpart repeated m') (hrepeated : repeated ≠ [])
    {ps ps' : List Placement} (hps : List.Forall₂ (Placement.Counterpart repeated here) ps ps')
    (hopen : ∀ front name f back, ps = front ++ .entity name f :: back → here f.decl.nameSpan →
      ∃ e, (m.insertAll front).env.get? name = some e ∧ e.paramNames = repeated) :
    (m.insertAll ps).Counterpart repeated (m'.insertAll ps') := by
  induction hps generalizing m m' with
  | nil => exact h
  | @cons p p' rest rest' hp _ ih =>
    refine ih (h.insert hrepeated hp fun name f hname => ?_) fun front name f back hrest => ?_
    · exact hopen [] name f rest (by rw [hname]; rfl)
    · exact hopen (p :: front) name f back (by rw [hrest]; rfl)

/-- The entities of environments that correspond mean the same once all fragments see the parameters
of their entities. -/
theorem sameReading (h : m.Counterpart repeated m') (hrepeated : repeated ≠ [])
    (hnodup : repeated.Nodup) :
    (adoptTypeParams m.env).SameReading Span.forget (adoptTypeParams m'.env) := by
  have hrel : ∀ {R : Entry → Entry → Prop}, (∀ e e', e.Counterpart repeated e' →
      R (adoptEntry e) (adoptEntry e')) → ∀ name, Option.Rel R
        ((adoptTypeParams m.env).get? name) ((adoptTypeParams m'.env).get? name) := by
    intro R hR name
    rw [Environment.get?_adoptTypeParams, Environment.get?_adoptTypeParams]
    rcases rel_cases (h name) with ⟨hget, hget'⟩ | ⟨e, e', hget, hget', he⟩
    · rw [hget, hget']
      exact .none
    · rw [hget, hget']
      exact .some (hR e e' he)
  have hkinds := hrel (R := fun e e' => e.kind = e'.kind) fun e e' he => by
    rw [kind_adoptEntry, kind_adoptEntry, he.kind]
  have hkind := Environment.kind?_of_rel id hkinds
  exact hrel fun e e' he => he.sameReading_adopt hkind hrepeated hnodup

end Merge.Counterpart

end RubySig
