import Mathlib.Data.List.Perm.Subperm
import RubySig.Proofs.Ancestry.Bindings
import RubySig.Proofs.Ancestry.Sites

/-!
# Entries and the way they came

An entry that a chain takes over from another chain may have come through several chains before.
It is the entry of an entity in its own chain, with the arguments put in that are written at the
places on the way, the innermost ones first.

* `Substitution.values_bind_compose_identity`: what the parameters of an entity stand for can be
  read back as the arguments, if no parameter is repeated.
* `AncestorEntry.along`, `TypeExpr.along`: an entry and a type that are put in at some places.
* `Environment.Carries`: the places through which a chain comes into another one.
* `Environment.exists_path_of_mem_entries`: every entry of a chain has come through such places.
-/

namespace RubySig

/-! ## Reading arguments back -/

namespace Substitution

variable {params : List String} {args : List TypeExpr}

theorem values_compose (s t : Substitution) : (s.compose t).values = t.values.map s.apply := by
  rw [values, values, compose, OrderedMap.values, OrderedMap.values, OrderedMap.mapValues,
    List.map_map, List.map_map]
  rfl

theorem length_values (s : Substitution) : s.values.length = s.names.length := by
  simp [values, names, OrderedMap.values, OrderedMap.keys]

/-- Parameters without repetition stand for the values in their order. -/
theorem map_image_names {s : Substitution} (h : s.names.Nodup) :
    s.names.map s.image = s.values := by
  rw [names, OrderedMap.keys, values, OrderedMap.values, List.map_map]
  refine List.map_congr_left fun p hp => ?_
  have hget : s.get? p.1 = some p.2 := OrderedMap.get?_of_mem_pairs h hp
  rw [Function.comp_apply, image, hget, Option.getD_some]

/-- Parameters that stand for themselves are all there exactly if none is repeated. -/
theorem length_values_identity_iff :
    (identity params).values.length = params.length ↔ params.Nodup := by
  have hnodup : (identity params).names.Nodup := OrderedMap.nodup_keys_ofList _
  have hsubset : (identity params).names ⊆ params := fun _ hv => mem_names_identity.1 hv
  rw [length_values]
  constructor
  · intro hlength
    -- distinct names among the parameters, and as many as there are
    have hsubperm := List.subperm_of_subset hnodup hsubset
    have hperm := hsubperm.perm_of_length_le (Nat.le_of_eq hlength.symm)
    exact hperm.nodup_iff.1 hnodup
  · intro h
    rw [← length_values, values_identity h, List.length_map]

/-- What the parameters of an entity stand for after they are bound can be read back as the
arguments. -/
theorem values_bind_compose_identity (h : params.Nodup) (hlength : args.length = params.length) :
    ((bind params args).compose (identity params)).values = args := by
  have hpairs : (pairArgs params args).map (·.1) = params := map_fst_pairArgs params args
  have hbind : bind params args = ⟨⟨pairArgs params args⟩⟩ := by
    rw [bind, ofList, OrderedMap.ofList_of_nodup (hpairs.symm ▸ h)]
  have hnames : (bind params args).names = params := by
    rw [hbind]
    exact hpairs
  calc ((bind params args).compose (identity params)).values
      = params.map (bind params args).image := by
        rw [values_compose, values_identity h, List.map_map]
        exact List.map_congr_left fun p _ => apply_var _ p
    _ = (bind params args).values := by
        rw [← map_image_names (hnames.symm ▸ h), hnames]
    _ = args := by
        rw [hbind]
        exact map_snd_pairArgs hlength

end Substitution

/-! ## Entries that are put in -/

/-- An entry of a chain, as it stands where the chain is put in. -/
def Splice.put (s : Splice) (p : AncestorEntry) : AncestorEntry :=
  { p with
    substitution := s.binding.compose p.substitution
    origin := if p.origin = .own then s.origin else p.origin }

/-- An entry of a chain, as it stands where the chain is put in through others. The places are
listed from the outside to the inside. -/
def AncestorEntry.along (p : AncestorEntry) (path : List Splice) : AncestorEntry :=
  path.foldr Splice.put p

/-- A type that an entry of a chain binds, as it stands where the chain is put in through others. -/
def TypeExpr.along (t : TypeExpr) (path : List Splice) : TypeExpr :=
  path.foldr (fun s t => s.binding.apply t) t

theorem AncestorEntry.along_append (p : AncestorEntry) (outer inner : List Splice) :
    p.along (outer ++ inner) = (p.along inner).along outer :=
  List.foldr_append

theorem AncestorEntry.key_along (p : AncestorEntry) (path : List Splice) :
    (p.along path).key = p.key := by
  induction path with
  | nil => rfl
  | cons s rest ih => exact ih

theorem AncestorEntry.values_along (p : AncestorEntry) (path : List Splice) :
    (p.along path).substitution.values = p.substitution.values.map (·.along path) := by
  induction path with
  | nil => exact (List.map_id _).symm
  | cons s rest ih =>
    show (s.binding.compose (p.along rest).substitution).values = _
    rw [Substitution.values_compose, ih, List.map_map]
    rfl

namespace Environment

variable {env : Environment} {key middle target : ChainKey} {path outer : List Splice} {s : Splice}

/-! ## Ways into a chain -/

/-- A place in one chain where another one is put in. -/
def HasSplice (env : Environment) (key : ChainKey) (s : Splice) : Prop :=
  ∃ b, env.blueprint key = .ok b ∧ s ∈ b.splices

theorem HasSplice.depends (h : env.HasSplice key s) : env.Depends key s.key := by
  obtain ⟨b, hb, hs⟩ := h
  exact (env.depends_iff_of_blueprint hb).2 (Blueprint.key_mem_keys hs)

theorem HasSplice.askable (h : env.HasSplice key s) : env.Askable key := by
  obtain ⟨b, hb, -⟩ := h
  obtain ⟨e, he, hpieces⟩ := pieces_of_blueprint hb
  exact ⟨e, he, hpieces.side⟩

/-- The chain of `target` comes into the chain of `key` through some places, which are listed from
the outside to the inside. -/
inductive Carries (env : Environment) : ChainKey → List Splice → ChainKey → Prop
  /-- It is the chain itself. -/
  | here {key : ChainKey} : Carries env key [] key
  /-- It comes into a chain that is put in. -/
  | through {key target : ChainKey} {s : Splice} {rest : List Splice} (hs : env.HasSplice key s)
      (hrest : Carries env s.key rest target) : Carries env key (s :: rest) target

/-- What is put into a chain goes on with it. -/
theorem Carries.snoc (h : env.Carries key outer middle) (hs : env.HasSplice middle s) :
    env.Carries key (outer ++ [s]) s.key := by
  induction h with
  | here => exact .through hs .here
  | through hr _ ih => exact .through hr (ih hs)

/-- The last place puts in the chain itself. -/
theorem Carries.exists_last (h : env.Carries key (outer ++ [s]) target) :
    ∃ middle, env.Carries key outer middle ∧ env.HasSplice middle s ∧ s.key = target := by
  induction outer generalizing key with
  | nil =>
    cases h with
    | through hs hrest =>
      cases hrest
      exact ⟨key, .here, hs, rfl⟩
  | cons r outer ih =>
    cases h with
    | through hr hrest =>
      obtain ⟨middle, houter, hs⟩ := ih hrest
      exact ⟨middle, .through hr houter, hs⟩

/-- A chain into which anything comes is that of a side with methods. -/
theorem Carries.askable (h : env.Carries key outer middle) (hs : env.HasSplice middle s) :
    env.Askable key := by
  cases h with
  | here => exact hs.askable
  | through hr _ => exact hr.askable

theorem Carries.leadsTo (h : env.Carries key path target) : env.LeadsTo key target := by
  induction h with
  | here => exact .refl
  | through hs _ ih => exact ih.head (depends_iff_edge.1 hs.depends)

/-- Every entry of a chain is the entry of an entity in its own chain, put in at the places through
which it has come. -/
theorem exists_path_of_mem_entries (henv : env.Anchored) {c : Chain}
    (h : env.chain [] key = .ok c) {p : AncestorEntry} (hp : p ∈ c.entries) :
    ∃ path m, env.Carries key path p.key ∧ env.get? p.name = some m ∧
      p = (ownEntry m p.context).along path := by
  induction h using chainOkInduction generalizing p with
  | step key b chainOf hb hparts _ =>
    have hjoined := mem_of_mem_dedupeEntries hp
    rcases Blueprint.mem_join_iff.1 ⟨p, hjoined, rfl⟩ with rfl | ⟨s, hs, q, hq, rfl⟩
    · have hown := own_key_of_blueprint henv hb
      obtain ⟨hname, hcontext⟩ := ChainKey.mk.inj hown
      obtain ⟨e, he, hpieces⟩ := pieces_of_blueprint hb
      refine ⟨[], e, ?_, ?_, ?_⟩
      · rw [hown]
        exact .here
      · rw [hname, he]
      · rw [hcontext, hpieces.own]
        rfl
    · obtain ⟨f, hf, rfl⟩ := List.mem_map.1 hq
      obtain ⟨-, ih⟩ := hparts s.key (Blueprint.key_mem_keys hs)
      obtain ⟨path, m, hpath, hm, halong⟩ := ih hf
      refine ⟨s :: path, m, .through ⟨b, hb, hs⟩ hpath, hm, ?_⟩
      exact congrArg s.put halong

end Environment

end RubySig
