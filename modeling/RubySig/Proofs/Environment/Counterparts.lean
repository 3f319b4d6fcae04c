import RubySig.Proofs.Environment.Merge
import RubySig.Proofs.TypeExpr.Adoption

/-!
# Declarations of two texts

Two texts are the same but for a parameter list, which only the second one repeats.  Their
declarations correspond: those with the same header say the same, and the one without the list says
what the one with it says once names in it are read as type parameters.

* `EntityDecl.Adopts`: what a declaration says once names in it are read as type parameters.
* `EntityDecl.Counterpart`, `Placement.Counterpart`: single declarations that correspond.
* `EntityDecl.Corresponds`, `Member.Corresponds`: declarations and elements of bodies that
  correspond with all that is nested in them.
* `EntityDecl.Corresponds.of_members`: what is nested in a declaration is nested in its body.
-/

namespace RubySig

/-! ## What corresponds -/

/-- Once names are read as type parameters in the first declaration, it says what the second one
says, up to spans and nested declarations. -/
structure EntityDecl.Adopts (params : List String) (d d' : EntityDecl) : Prop where
  kind : d.kind = d'.kind
  superClass : d.superClass?.map (NamedType.adopted params) =
    d'.superClass?.map (NamedType.adopted [])
  members : d.members.map (Member.adopted? params) = d'.members.map (Member.adopted? [])

section Texts

-- `repeated` is the list that only the second text has, behind a name that `here` singles out
variable (repeated : List String) (here : Span → Prop)

/-- Two declarations have the same header, or the first one has none of the type parameters that
are repeated in the second one. -/
inductive EntityDecl.Counterpart (d d' : EntityDecl) : Prop
  | same (params : typeParamNames d.typeParams = typeParamNames d'.typeParams)
      (adopts : d.Adopts [] d')
  | repeating (place : here d.nameSpan) (reopens : Merge.canReopen d.kind)
      (bare : d.typeParams = []) (params : typeParamNames d'.typeParams = repeated)
      (adopts : d.Adopts repeated d')

/-- Two fragments stand in the same scopes, and their declarations correspond. -/
structure Fragment.Counterpart (f f' : Fragment EntityDecl) : Prop where
  nesting : f.nesting = f'.nesting
  decl : f.decl.Counterpart repeated here f'.decl

/-- Two placements have the same name, and their fragments correspond. -/
inductive Placement.Counterpart : Placement → Placement → Prop
  | entity (name : TypeName) {f f' : Fragment EntityDecl}
      (h : f.Counterpart repeated here f') : Counterpart (.entity name f) (.entity name f')
  | global (f f' : Fragment GlobalDecl) : Counterpart (.global f) (.global f')

/-- Two declarations correspond with all that is nested in them. -/
def EntityDecl.Corresponds (d d' : EntityDecl) : Prop :=
  ∀ source nesting, List.Forall₂ (Placement.Counterpart repeated here)
    (placeEntity source nesting d) (placeEntity source nesting d')

/-- Two elements of bodies say the same once names are read as type parameters in the first one, and
what is nested in them corresponds. -/
structure Member.Corresponds (params : List String) (m m' : Member) : Prop where
  own : m.adopted? params = m'.adopted? []
  nested : ∀ source nesting, List.Forall₂ (Placement.Counterpart repeated here)
    (placeMembers source nesting [m]) (placeMembers source nesting [m'])

/-- Two declarations of files correspond with all that is nested in them. -/
inductive Declaration.Corresponds : Declaration → Declaration → Prop
  | entity {d d' : EntityDecl} (h : d.Corresponds repeated here d') :
      Corresponds (.entity d) (.entity d')
  | global (d d' : GlobalDecl) : Corresponds (.global d) (.global d')

variable {repeated here}

/-! ## Single declarations -/

theorem EntityDecl.Counterpart.kind {d d' : EntityDecl} (h : d.Counterpart repeated here d') :
    d.kind = d'.kind := by
  cases h with
  | same _ adopts => exact adopts.kind
  | repeating _ _ _ _ adopts => exact adopts.kind

theorem EntityDecl.Counterpart.mono {here' : Span → Prop} {d d' : EntityDecl}
    (h : d.Counterpart repeated here d') (hhere : here d.nameSpan → here' d.nameSpan) :
    d.Counterpart repeated here' d' := by
  cases h with
  | same params adopts => exact .same params adopts
  | repeating place reopens bare params adopts =>
    exact .repeating (hhere place) reopens bare params adopts

/-- What says the same corresponds. -/
theorem Placement.Counterpart.refl (p : Placement) : p.Counterpart repeated here p := by
  cases p with
  | entity name f => exact .entity name ⟨rfl, .same rfl ⟨rfl, rfl, rfl⟩⟩
  | global f => exact .global f f

/-! ## Elements of bodies -/

namespace Member.Corresponds

variable {params : List String}

/-- Without nested declarations nothing but the types matters. -/
theorem of_own {m m' : Member} (h : m.adopted? params = m'.adopted? [])
    (hm : (m.adopted? params).isSome) : m.Corresponds repeated here params m' := by
  have hplaced : ∀ {ps : List String} {m : Member} (source : SourceId) (nesting : Nesting),
      (m.adopted? ps).isSome → RubySig.placeMembers source nesting [m] = [] := by
    intro ps m source nesting hm
    cases m with
    | nested d => cases hm
    | _ => rw [RubySig.placeMembers, RubySig.placeMembers]
  refine ⟨h, fun source nesting => ?_⟩
  rw [hplaced source nesting hm, hplaced source nesting (h ▸ hm)]
  exact .nil

theorem of_nested {d d' : EntityDecl} (h : d.Corresponds repeated here d') :
    (Member.nested d).Corresponds repeated here params (.nested d') := by
  refine ⟨rfl, fun source nesting => ?_⟩
  simp only [RubySig.placeMembers, List.append_nil]
  exact h source nesting

variable {ms ms' : List Member} (h : List.Forall₂ (Member.Corresponds repeated here params) ms ms')
include h

/-- Bodies that correspond place declarations that correspond. -/
theorem placeMembers (source : SourceId) (nesting : Nesting) :
    List.Forall₂ (Placement.Counterpart repeated here) (RubySig.placeMembers source nesting ms)
      (RubySig.placeMembers source nesting ms') := by
  induction h with
  | nil => rw [RubySig.placeMembers]; exact .nil
  | @cons m m' rest rest' hm _ ih =>
    rw [placeMembers_cons, placeMembers_cons _ _ m']
    exact List.rel_append (hm.nested source nesting) ih

theorem own_members : ms.map (Member.adopted? params) = ms'.map (Member.adopted? []) :=
  map_eq_iff_forall₂.2 (h.imp fun _ _ => own)

end Member.Corresponds

/-! ## Declarations with all that is nested in them -/

/-- Declarations of one name correspond if they do so alone and their bodies do. -/
theorem EntityDecl.Corresponds.of_members {d d' : EntityDecl} {params : List String}
    (hname : d.name = d'.name) (h : d.Counterpart repeated here d')
    (hmembers : List.Forall₂ (Member.Corresponds repeated here params) d.members d'.members) :
    d.Corresponds repeated here d' := by
  intro source nesting
  have hkind := h.kind
  cases d <;> cases d' <;> cases hkind
  case klass.klass d d' =>
    obtain ⟨name, typeParams, superClass, members, nameSpan, span⟩ := d
    obtain ⟨name', typeParams', superClass', members', nameSpan', span'⟩ := d'
    obtain rfl : name = name' := hname
    rw [placeEntity, placeEntity, placeClass, placeClass]
    exact .cons (.entity _ ⟨rfl, h⟩) (Member.Corresponds.placeMembers hmembers _ _)
  case module.module d d' =>
    obtain ⟨name, typeParams, selfTypes, members, nameSpan, span⟩ := d
    obtain ⟨name', typeParams', selfTypes', members', nameSpan', span'⟩ := d'
    obtain rfl : name = name' := hname
    rw [placeEntity, placeEntity, placeModule, placeModule]
    exact .cons (.entity _ ⟨rfl, h⟩) (Member.Corresponds.placeMembers hmembers _ _)
  all_goals
    dsimp only [name] at hname
    rw [placeEntity, placeEntity, hname]
    exact .cons (.entity _ ⟨rfl, h⟩) .nil

/-- Files that correspond place declarations that correspond. -/
theorem Declaration.Corresponds.placements {ds ds' : List Declaration}
    (h : List.Forall₂ (Declaration.Corresponds repeated here) ds ds') (source : SourceId) :
    List.Forall₂ (Placement.Counterpart repeated here) (RubySig.placements source ds)
      (RubySig.placements source ds') := by
  induction h with
  | nil => exact .nil
  | cons hd _ ih =>
    refine List.rel_append ?_ ih
    cases hd with
    | entity h => exact h source .topLevel
    | global d d' => exact .cons (.global _ _) .nil

end Texts

end RubySig
