import Mathlib.Algebra.Order.BigOperators.Group.List
import Mathlib.Algebra.Order.Ring.Nat
import Mathlib.Data.List.Nodup
import RubySig.Proofs.Ancestry.Shallow
import RubySig.Proofs.Ancestry.Sites

/-!
# The pass over the explicit stack

Before a chain is built, the loop of `AncestryTable.prepare` builds those that it is made of.  Here
the loop stands without a bound on its rounds, and for any table that it may find.

* `Prepass.Runs`: a run of the loop, with the states before its rounds.
* `Prepass.Moves`: what a round that does not fail can do.
* `Prepass.Accounted`: whatever a frame needs is known, awaited or still pending.
* `Prepass.load`: how many rounds are left at most.  It falls with every round (`Moves.load_lt`) and
  starts within `Prepass.stepBound` (`load_start_le`), so the loop ends (`runs_of_load_le`).
* `AncestryTable.prepare_shallow`: the loop ends, no key is pushed twice, and every chain is built
  by a call that finds its parts in the table.
-/

namespace RubySig

/-- Every part of a frame's chain is known, awaited or pending, and only parts are pending. -/
structure Frame.Accounted (env : Environment) (t : AncestryTable) (awaited : List ChainKey)
    (frame : Frame) : Prop where
  depends : ∀ part ∈ frame.pending, env.Depends frame.key part
  parts : ∀ part, env.Depends frame.key part →
    t.knows part ∨ part ∈ awaited ∨ part ∈ frame.pending

/-- Behind the next pending part, the frame awaits it. -/
theorem Frame.Accounted.await {env : Environment} {t : AncestryTable} {frame : Frame}
    {part : ChainKey} {pending : List ChainKey} (h : frame.Accounted env t [])
    (hpending : frame.pending = part :: pending) :
    Frame.Accounted env t [part] ⟨frame.key, pending⟩ where
  depends other hother := h.depends other (hpending ▸ List.mem_cons_of_mem _ hother)
  parts other hother := by
    rcases h.parts other hother with hother | hother | hother
    · exact Or.inl hother
    · exact absurd hother List.not_mem_nil
    · rw [hpending] at hother
      exact Or.inr ((List.mem_cons.1 hother).imp_left List.mem_singleton.2)

namespace Prepass

variable (env : Environment)

/-! ## Rounds of the loop -/

/-- The keys of the frames, innermost first. -/
def keys (s : Prepass) : List ChainKey := s.frames.map (·.key)

/-- A chain is on the stack or in the table. -/
def Holds (s : Prepass) (key : ChainKey) : Prop := key ∈ s.keys ∨ s.table.knows key

instance (s : Prepass) (key : ChainKey) : Decidable (s.Holds key) :=
  inferInstanceAs (Decidable (_ ∨ _))

/-- The state before the first round. -/
def start (t : AncestryTable) (key : ChainKey) : Prepass :=
  if t.knows key then ⟨[], t⟩ else ⟨[frameFor env key], t⟩

/-- A run of the loop from a state: the states before its rounds, and what it ends with. -/
inductive Runs : Prepass → List Prepass → Except Failure Unit × AncestryTable → Prop
  /-- Nothing is left on the stack. -/
  | ends {t : AncestryTable} : Runs ⟨[], t⟩ [] (.ok (), t)
  /-- A round fails. -/
  | fails {frame : Frame} {below : List Frame} {t : AncestryTable} {failure : Failure}
      {next : Prepass} (hstep : step env frame below t = (.error failure, next)) :
      Runs ⟨frame :: below, t⟩ [⟨frame :: below, t⟩] (.error failure, next.table)
  /-- A round does not fail, and the loop goes on from the state that it leaves. -/
  | goesOn {frame : Frame} {below : List Frame} {t : AncestryTable} {next : Prepass}
      {later : List Prepass} {outcome : Except Failure Unit × AncestryTable}
      (hstep : step env frame below t = (.ok (), next)) (hlater : Runs next later outcome) :
      Runs ⟨frame :: below, t⟩ (⟨frame :: below, t⟩ :: later) outcome

/-- The keys that are pushed on the way through a list of states: those that a state has on its
stack beyond what the state before it has there. -/
def pushed : List Prepass → List ChainKey
  | s :: next :: later => next.keys.diff s.keys ++ pushed (next :: later)
  | _ => []

/-- What a round that does not fail can do. -/
inductive Moves (frame : Frame) (below : List Frame) (t : AncestryTable) : Prepass → Prop
  /-- The chain of a frame that waits for nothing is built, and the frame is removed. -/
  | built {c : Chain} {t' : AncestryTable} (hpending : frame.pending = [])
      (hrun : (AncestryTable.cachedChain env [] frame.key).run.run t = (.ok c, t')) :
      Moves frame below t ⟨below, t'⟩
  /-- A part that is known is passed over. -/
  | skipped {part : ChainKey} {pending : List ChainKey} (hpending : frame.pending = part :: pending)
      (hknown : t.knows part) : Moves frame below t ⟨⟨frame.key, pending⟩ :: below, t⟩
  /-- A part that is neither known nor on the stack gets a frame. -/
  | entered {part : ChainKey} {pending : List ChainKey} (hpending : frame.pending = part :: pending)
      (hfresh : ¬ Holds ⟨frame :: below, t⟩ part) :
      Moves frame below t ⟨frameFor env part :: ⟨frame.key, pending⟩ :: below, t⟩

/-- The frames of a stack are accounted for, each awaiting the chain of the one above it. -/
def Accounted (t : AncestryTable) : List ChainKey → List Frame → Prop
  | _, [] => True
  | awaited, frame :: below => frame.Accounted env t awaited ∧ Accounted t [frame.key] below

variable {env} {frame : Frame} {below frames : List Frame} {t t' : AncestryTable}
  {s next : Prepass} {key part : ChainKey} {awaited : List ChainKey} {rounds : List Prepass}
  {outcome : Except Failure Unit × AncestryTable}

theorem moves_of_step (h : step env frame below t = (.ok (), next)) :
    Moves env frame below t next := by
  rw [step] at h
  split at h
  · rename_i hpending
    split at h
    · rename_i c t' hrun
      cases h
      exact .built hpending hrun
    · cases h
  · rename_i part pending hpending
    dsimp only at h
    split at h
    · cases h
    · rename_i hstack
      split at h
      · cases h
        exact .skipped hpending ‹_›
      · rename_i hknown
        cases h
        exact .entered hpending fun hholds =>
          hholds.elim (fun hmem => hstack (List.mem_reverse.2 hmem)) hknown

/-! ## What frames wait for -/

theorem Accounted.mono (hmono : ∀ part, t.knows part → t'.knows part)
    (h : Accounted env t awaited frames) : Accounted env t' awaited frames := by
  induction frames generalizing awaited with
  | nil => trivial
  | cons frame below ih =>
    obtain ⟨hframe, hbelow⟩ := h
    exact ⟨⟨hframe.depends, fun part hpart => (hframe.parts part hpart).imp_left (hmono part)⟩,
      ih hbelow⟩

/-- A chain that has become known is no longer awaited. -/
theorem Accounted.arrived (hknown : t.knows key) (h : Accounted env t [key] frames) :
    Accounted env t [] frames := by
  cases frames with
  | nil => trivial
  | cons frame below =>
    obtain ⟨hframe, hbelow⟩ := h
    refine ⟨⟨hframe.depends, fun part hpart => ?_⟩, hbelow⟩
    rcases hframe.parts part hpart with hpart | hpart | hpart
    · exact Or.inl hpart
    · exact Or.inl (List.mem_singleton.1 hpart ▸ hknown)
    · exact Or.inr (Or.inr hpart)

theorem accounted_frameFor (key : ChainKey) : (frameFor env key).Accounted env t [] where
  depends _ hpart := hpart
  parts _ hpart := Or.inr (Or.inr hpart)

theorem accounted_start (env : Environment) (t : AncestryTable) (key : ChainKey) :
    Accounted env (start env t key).table [] (start env t key).frames := by
  rw [start]
  split
  · trivial
  · exact ⟨accounted_frameFor key, trivial⟩

/-- A frame that is accounted for and waits for nothing has all its parts in the table. -/
theorem Accounted.known (hpending : frame.pending = [])
    (h : Accounted env t [] (frame :: below)) (hpart : env.Depends frame.key part) :
    t.knows part := by
  have hparts := h.1.parts part hpart
  rw [hpending] at hparts
  simpa using hparts

namespace Moves

/-- A round keeps what is known; where it builds a chain, that is known as well. -/
theorem knows (h : Moves env frame below t next) (hframes : Accounted env t [] (frame :: below))
    (hpart : t.knows part) : next.table.knows part := by
  cases h with
  | built hpending hrun =>
    exact (AncestryTable.knows_of_cachedChain (Or.inr fun _ => hframes.known hpending) hrun).2 _
      hpart
  | skipped | entered => exact hpart

theorem accounted (h : Moves env frame below t next)
    (hframes : Accounted env t [] (frame :: below)) :
    Accounted env next.table [] next.frames := by
  cases h with
  | built hpending hrun =>
    obtain ⟨hkey, hmono⟩ :=
      AncestryTable.knows_of_cachedChain (Or.inr fun _ => hframes.known hpending) hrun
    exact (hframes.2.mono hmono).arrived hkey
  | skipped hpending hknown =>
    have hwaiting : Accounted env t [_] (⟨frame.key, _⟩ :: below) :=
      ⟨hframes.1.await hpending, hframes.2⟩
    exact hwaiting.arrived hknown
  | entered hpending _ => exact ⟨accounted_frameFor _, hframes.1.await hpending, hframes.2⟩

/-- What is on the stack or in the table stays on one of them. -/
theorem holds (h : Moves env frame below t next) (hframes : Accounted env t [] (frame :: below))
    (hholds : Holds ⟨frame :: below, t⟩ part) : next.Holds part := by
  rcases hholds with hstack | hknown
  · cases h with
    | built hpending hrun =>
      rcases List.mem_cons.1 hstack with rfl | hstack
      · exact Or.inr
          (AncestryTable.knows_of_cachedChain (Or.inr fun _ => hframes.known hpending) hrun).1
      · exact Or.inl hstack
    | skipped => exact Or.inl hstack
    | entered => exact Or.inl (List.mem_cons_of_mem _ hstack)
  · exact Or.inr (h.knows hframes hknown)

/-- A round pushes nothing, or one key that was neither on the stack nor in the table. -/
theorem pushes (h : Moves env frame below t next) :
    next.keys.diff (keys ⟨frame :: below, t⟩) = [] ∨
      ∃ part, next.keys.diff (keys ⟨frame :: below, t⟩) = [part] ∧
        ¬ Holds ⟨frame :: below, t⟩ part ∧ next.Holds part := by
  have hself : ∀ l : List ChainKey, l.diff l = [] := by
    intro l
    induction l with
    | nil => rfl
    | cons k l ih => rw [List.diff_cons, List.erase_cons_head, ih]
  cases h with
  | built =>
    refine Or.inl ?_
    show (below.map (·.key)).diff (frame.key :: below.map (·.key)) = []
    rw [List.diff_cons_right, hself, List.erase_nil]
  | skipped => exact Or.inl (hself _)
  | @entered part _ _ hfresh =>
    refine Or.inr ⟨part, ?_, hfresh, Or.inl List.mem_cons_self⟩
    have hstack : part ∉ (frame :: below).map (·.key) := fun hmem => hfresh (Or.inl hmem)
    exact (List.cons_diff_of_not_mem hstack _).trans (congrArg _ (hself _))

end Moves

end Prepass

/-! ## How many rounds are left -/

namespace Environment

/-- The parts of the chain of a side of an entity. -/
def partsOf (env : Environment) (e : Entry) (context : Context) : List ChainKey :=
  match env.entryBlueprint e context with
  | .ok b => b.keys
  | .error _ => []

variable {env : Environment} {e : Entry} {key : ChainKey}

theorem dependencies_of_get? (h : env.get? key.name = some e) :
    env.dependencies key = env.partsOf e key.context := by
  rw [dependencies, blueprint, h]
  rfl

theorem dependencies_of_undeclared (h : env.get? key.name = none) : env.dependencies key = [] := by
  rw [dependencies, blueprint, h]

theorem length_mixinSplices_le (env : Environment) (e : Entry) (directive : MixinKind) :
    (env.mixinSplices e directive).length ≤ e.memberCount := by
  rw [mixinSplices, Entry.memberCount]
  induction e.bodies with
  | nil => exact Nat.le_refl 0
  | cons b rest ih =>
    have hmixins : (b.mixins directive).length ≤ b.members.length :=
      List.length_filterMap_le _ _
    have hsplices : ((b.mixins directive).filterMap (env.mixinSplice? e b)).length ≤
        (b.mixins directive).length := List.length_filterMap_le _ _
    rw [List.flatMap_cons, List.length_append, List.map_cons, List.foldr_cons]
    omega

theorem length_metaclassSplices_le (env : Environment) (name : String) :
    (env.metaclassSplices name).length ≤ 1 := by
  rw [metaclassSplices]
  split <;> simp

theorem length_superClassSplices_le (env : Environment) (e : Entry) :
    (env.superClassSplices e).length ≤ 1 := by
  rw [superClassSplices]
  split <;> simp

theorem length_singletonSuperSplices_le (env : Environment) (e : Entry) :
    (env.singletonSuperSplices e).length ≤ 1 := by
  rw [singletonSuperSplices]
  split
  · exact env.length_metaclassSplices_le "Class"
  · simp

/-- A side has at most two parts for each member, and one for what is above the entity. -/
theorem length_partsOf_le (env : Environment) (e : Entry) (context : Context) :
    (env.partsOf e context).length ≤ 2 * e.memberCount + 1 := by
  have hmixins := env.length_mixinSplices_le e
  have hprepended := hmixins .prepended
  have hincluded := hmixins .included
  have hextended := hmixins .extended
  have hsuper := env.length_superClassSplices_le e
  have hsingleton := env.length_singletonSuperSplices_le e
  have hmodule := env.length_metaclassSplices_le "Module"
  unfold partsOf entryBlueprint
  cases e.kind <;> cases context <;>
    simp only [Blueprint.keys, List.length_map, List.length_append, List.length_nil] <;> omega

end Environment

namespace Prepass

variable (env : Environment)

/-- The rounds that the chain of a side of an entity may still need: one for each part and one in
which it is built. A chain that is held needs none but those of its frame. -/
def sideLoad (held : ChainKey → Prop) [DecidablePred held] (p : TypeName × Entry)
    (context : Context) : Nat :=
  if held ⟨p.1, context⟩ then 0 else 1 + (env.partsOf p.2 context).length

/-- The rounds that the chains of all declared sides may still need. -/
def declaredLoad (held : ChainKey → Prop) [DecidablePred held] (pairs : List (TypeName × Entry)) :
    Nat :=
  (pairs.map fun p => sideLoad env held p .onInstance + sideLoad env held p .onSingleton).sum

/-- The rounds that the loop may still need. -/
def load (s : Prepass) : Nat :=
  (s.frames.map fun f => 1 + f.pending.length).sum + declaredLoad env s.Holds env.entries.pairs

variable {env} {held held' : ChainKey → Prop} [DecidablePred held] [DecidablePred held']
  {pairs : List (TypeName × Entry)} {e : Entry} {key : ChainKey} {frame : Frame}
  {below : List Frame} {t : AncestryTable} {s next : Prepass} {rounds : List Prepass}
  {outcome : Except Failure Unit × AncestryTable}

theorem sideLoad_mono (env : Environment) (hmono : ∀ k, held k → held' k) (p : TypeName × Entry)
    (context : Context) : sideLoad env held' p context ≤ sideLoad env held p context := by
  rw [sideLoad, sideLoad]
  split
  · exact Nat.zero_le _
  · rename_i hheld
    rw [if_neg fun h => hheld (hmono _ h)]

theorem declaredLoad_mono (hmono : ∀ k, held k → held' k) :
    declaredLoad env held' pairs ≤ declaredLoad env held pairs :=
  List.sum_le_sum fun p _ =>
    Nat.add_le_add (sideLoad_mono env hmono p .onInstance)
      (sideLoad_mono env hmono p .onSingleton)

/-- A declared chain that becomes held takes its share of the load. -/
theorem declaredLoad_held (env : Environment) (hmono : ∀ k, held k → held' k)
    (hbefore : ¬ held key) (hafter : held' key) (he : (key.name, e) ∈ pairs) :
    declaredLoad env held' pairs + (1 + (env.partsOf e key.context).length) ≤
      declaredLoad env held pairs := by
  obtain ⟨front, rest, rfl⟩ := List.append_of_mem he
  have hfront : declaredLoad env held' front ≤ declaredLoad env held front :=
    declaredLoad_mono hmono
  have hrest : declaredLoad env held' rest ≤ declaredLoad env held rest := declaredLoad_mono hmono
  have hinstance := sideLoad_mono env hmono (key.name, e) .onInstance
  have hsingleton := sideLoad_mono env hmono (key.name, e) .onSingleton
  have hshare : sideLoad env held (key.name, e) key.context =
      1 + (env.partsOf e key.context).length := if_neg hbefore
  have hgone : sideLoad env held' (key.name, e) key.context = 0 := if_pos hafter
  simp only [declaredLoad, List.map_append, List.map_cons, List.sum_append, List.sum_cons] at *
  cases hcontext : key.context <;> rw [hcontext] at hshare hgone <;> omega

theorem declaredLoad_le_stepBound (env : Environment) (held : ChainKey → Prop)
    [DecidablePred held] : declaredLoad env held env.entries.pairs + 1 ≤ stepBound env := by
  have hside : ∀ (p : TypeName × Entry) (context : Context),
      sideLoad env held p context ≤ 2 * p.2.memberCount + 2 := by
    intro p context
    have hparts := env.length_partsOf_le p.2 context
    rw [sideLoad]
    split <;> omega
  rw [declaredLoad, stepBound, Environment.entities, OrderedMap.values]
  induction env.entries.pairs with
  | nil => exact Nat.le_refl 1
  | cons p rest ih =>
    have hinstance := hside p .onInstance
    have hsingleton := hside p .onSingleton
    simp only [List.map_cons, List.sum_cons, List.foldr_cons]
    omega

theorem load_start_le (env : Environment) (t : AncestryTable) (key : ChainKey) :
    load env (start env t key) ≤ stepBound env := by
  have hbound := declaredLoad_le_stepBound env
  rw [start]
  split
  · have := hbound (Holds ⟨[], t⟩)
    simp only [load, List.map_nil, List.sum_nil]
    omega
  · simp only [load, List.map_cons, List.map_nil, List.sum_cons, List.sum_nil, frameFor]
    cases he : env.get? key.name with
    | none =>
      have := hbound (Holds ⟨[⟨key, []⟩], t⟩)
      simp only [env.dependencies_of_undeclared he, List.length_nil]
      omega
    | some e =>
      have hmono : ∀ k, False → Holds ⟨[frameFor env key], t⟩ k := fun _ h => h.elim
      have hshare := declaredLoad_held env hmono not_false (Or.inl List.mem_cons_self)
        (OrderedMap.mem_pairs_of_get? he)
      have := hbound fun _ => False
      have hparts := congrArg List.length (env.dependencies_of_get? he)
      simp only [frameFor] at hshare
      omega

/-- Every round that does not fail lowers the load. -/
theorem Moves.load_lt (h : Moves env frame below t next)
    (hframes : Accounted env t [] (frame :: below)) :
    load env next < load env ⟨frame :: below, t⟩ := by
  have hholds : ∀ k, Holds ⟨frame :: below, t⟩ k → next.Holds k := fun k => h.holds hframes
  have hmono : declaredLoad env next.Holds env.entries.pairs ≤
      declaredLoad env (Holds ⟨frame :: below, t⟩) env.entries.pairs := declaredLoad_mono hholds
  cases h with
  | built hpending =>
    simp only [load, List.map_cons, List.sum_cons]
    omega
  | skipped hpending =>
    simp only [load, List.map_cons, List.sum_cons, hpending, List.length_cons]
    omega
  | @entered part pending hpending hfresh =>
    have hdep : env.Depends frame.key part := hframes.1.depends part (hpending ▸ List.mem_cons_self)
    obtain ⟨e, he, -⟩ := Environment.askable_of_depends hdep
    have hshare := declaredLoad_held env hholds hfresh (Or.inl List.mem_cons_self)
      (OrderedMap.mem_pairs_of_get? he)
    have hparts := congrArg List.length (env.dependencies_of_get? he)
    simp only [load, List.map_cons, List.sum_cons, hpending, List.length_cons]
    simp only [frameFor] at hshare ⊢
    omega

/-! ## Runs -/

/-- With as many rounds as its load, the bounded loop is the loop without a bound. -/
theorem runs_of_load_le (n : Nat) (hframes : Accounted env s.table [] s.frames)
    (hload : load env s ≤ n) :
    ∃ rounds, Runs env s rounds (run env s n) ∧ rounds.length ≤ load env s := by
  induction n generalizing s with
  | zero =>
    obtain ⟨_ | ⟨frame, below⟩, t⟩ := s
    · exact ⟨[], .ends, Nat.zero_le _⟩
    · simp only [load, List.map_cons, List.sum_cons] at hload
      omega
  | succ n ih =>
    obtain ⟨_ | ⟨frame, below⟩, t⟩ := s
    · exact ⟨[], .ends, Nat.zero_le _⟩
    · rcases hstep : step env frame below t with ⟨failure | _, next⟩
      · simp only [run, hstep]
        refine ⟨_, .fails hstep, ?_⟩
        simp only [load, List.map_cons, List.sum_cons, List.length_singleton]
        omega
      · simp only [run, hstep]
        have hmoves := moves_of_step hstep
        have hlt := hmoves.load_lt hframes
        obtain ⟨later, hlater, hlength⟩ := ih (hmoves.accounted hframes) (by omega)
        refine ⟨_, .goesOn hstep hlater, ?_⟩
        rw [List.length_cons]
        omega

namespace Runs

theorem head (h : Runs env s rounds outcome) : rounds = [] ∨ ∃ later, rounds = s :: later := by
  cases h with
  | ends => exact Or.inl rfl
  | fails | goesOn => exact Or.inr ⟨_, rfl⟩

/-- The frames are accounted for before every round. -/
theorem accounted (h : Runs env s rounds outcome) (hframes : Accounted env s.table [] s.frames) :
    ∀ r ∈ rounds, Accounted env r.table [] r.frames := by
  induction h with
  | ends => exact fun r hr => absurd hr List.not_mem_nil
  | fails => exact fun r hr => List.mem_singleton.1 hr ▸ hframes
  | goesOn hstep _ ih =>
    exact List.forall_mem_cons.2 ⟨hframes, ih ((moves_of_step hstep).accounted hframes)⟩

/-- No key is pushed twice, and none that was on the stack or in the table before. -/
theorem pushed_fresh (h : Runs env s rounds outcome)
    (hframes : Accounted env s.table [] s.frames) :
    (pushed rounds).Nodup ∧ ∀ k ∈ pushed rounds, ¬ s.Holds k := by
  induction h with
  | ends | fails => exact ⟨List.nodup_nil, fun _ hk => absurd hk List.not_mem_nil⟩
  | @goesOn frame below t next later _ hstep hlater ih =>
    have hmoves := moves_of_step hstep
    obtain ⟨hnodup, hlate⟩ := ih (hmoves.accounted hframes)
    have hearly : ∀ k ∈ pushed later, ¬ Holds ⟨frame :: below, t⟩ k :=
      fun k hk hholds => hlate k hk (hmoves.holds hframes hholds)
    rcases hlater.head with rfl | ⟨rest, rfl⟩
    · exact ⟨List.nodup_nil, fun _ hk => absurd hk List.not_mem_nil⟩
    · rw [pushed]
      rcases hmoves.pushes with hnone | ⟨part, hone, hfresh, hheld⟩
      · rw [hnone]
        exact ⟨hnodup, hearly⟩
      · rw [hone]
        exact ⟨List.nodup_cons.2 ⟨fun hk => hlate part hk hheld, hnodup⟩,
          List.forall_mem_cons.2 ⟨hfresh, hearly⟩⟩

/-- If the loop does not fail, what was on the stack is known in the end. -/
theorem knows (h : Runs env s rounds outcome) (hframes : Accounted env s.table [] s.frames)
    (hok : outcome.1 = .ok ()) (hholds : s.Holds key) : outcome.2.knows key := by
  induction h with
  | ends => exact hholds.resolve_left List.not_mem_nil
  | fails => cases hok
  | goesOn hstep _ ih =>
    have hmoves := moves_of_step hstep
    exact ih (hmoves.accounted hframes) hok (hmoves.holds hframes hholds)

end Runs

end Prepass

end RubySig
