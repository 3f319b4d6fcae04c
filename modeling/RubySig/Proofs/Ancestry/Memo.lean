import RubySig.Ancestry.Table
import RubySig.Proofs.Ancestry.Recursion

/-!
# The table of chains cannot be observed

An `AncestryTable` holds only chains that plain recursion builds as well, whatever was asked
before and however it ended.  So neither the remembered chains nor the pass over the explicit
stack change an answer.

* `AncestryTable.Faithful`: every remembered chain is the one that recursion builds.
* `AncestryTable.cachedChain_answers`: on a faithful table the recursion over the table gives the
  answer of plain recursion and leaves a faithful table.
* `Prepass.Waiting`: the frames of the stack are on their way to the answer for its lowest frame.
* `Prepass.run_answers`: a pass that fails, fails with that answer.
* `AncestryTable.askAll_answers`: questions asked in turn are answered as if each were the only one.
-/

namespace RubySig

variable (env : Environment)

/-- Every remembered chain is the one that recursion builds. -/
def AncestryTable.Faithful (t : AncestryTable) : Prop :=
  ∀ key c, t.get? key = some c → env.chain [] key = .ok c

/-- On every faithful table a computation gives the same answer and leaves a faithful table. -/
def Answers {α : Type} (m : TableM α) (answer : Except Failure α) : Prop :=
  ∀ t, t.Faithful env → ∃ t', m.run.run t = (answer, t') ∧ t'.Faithful env

/-! ## Computations on a faithful table -/

namespace AncestryTable

theorem faithful_empty : AncestryTable.empty.Faithful env := fun _ _ h => nomatch h

variable {env}

theorem Faithful.remember {t : AncestryTable} (ht : t.Faithful env) {key : ChainKey} {c : Chain}
    (hc : env.chain [] key = .ok c) : (t.remember key c).Faithful env := by
  intro k d hd
  rw [AncestryTable.remember] at hd
  split at hd
  · exact ht k d hd
  · rw [AncestryTable.get?] at hd
    by_cases hk : k = key
    · subst hk
      rw [OrderedMap.get?_insert_self] at hd
      exact Option.some.inj hd ▸ hc
    · rw [OrderedMap.get?_insert_of_ne _ _ hk] at hd
      exact ht k d hd

theorem Faithful.chain_of_knows {t : AncestryTable} (ht : t.Faithful env) {key : ChainKey}
    (h : t.knows key) : ∃ c, env.chain [] key = .ok c := by
  obtain ⟨c, hc⟩ := Option.isSome_iff_exists.1 h
  exact ⟨c, ht key c hc⟩

end AncestryTable

theorem TableM.run_bind {α β : Type} (m : TableM α) (f : α → TableM β) (t : AncestryTable) :
    (m >>= f).run.run t = match m.run.run t with
      | (.ok a, t') => (f a).run.run t'
      | (.error failure, t') => (.error failure, t') := by
  show (match m.run.run t with
    | (a, t') => (ExceptT.bindCont f a).run t') = _
  rcases m.run.run t with ⟨_ | _, _⟩ <;> rfl

namespace Answers

variable {env} {α β : Type}

theorem pure (a : α) : Answers env (pure a) (.ok a) := fun t ht => ⟨t, rfl, ht⟩

theorem bind {m : TableM α} {answer : Except Failure α} {f : α → TableM β}
    {g : α → Except Failure β} (hm : Answers env m answer) (hf : ∀ a, Answers env (f a) (g a)) :
    Answers env (m >>= f) (answer >>= g) := by
  intro t ht
  obtain ⟨t', hrun, ht'⟩ := hm t ht
  rw [TableM.run_bind, hrun]
  cases answer with
  | error failure => exact ⟨t', rfl, ht'⟩
  | ok a => exact hf a t' ht'

theorem expandAll {ask : ChainKey → TableM Chain} {answer : ChainKey → Except Failure Chain}
    {splices : List Splice} (h : ∀ s ∈ splices, Answers env (ask s.key) (answer s.key)) :
    Answers env (Blueprint.expandAll ask splices) (Blueprint.expandAll answer splices) := by
  induction splices with
  | nil => exact pure _
  | cons s rest ih =>
    exact (h s List.mem_cons_self).bind fun c =>
      (ih fun r hr => h r (List.mem_cons_of_mem _ hr)).bind fun _ => pure _

theorem assemble {b : Blueprint} {ask : ChainKey → TableM Chain}
    {answer : ChainKey → Except Failure Chain} (h : ∀ k ∈ b.keys, Answers env (ask k) (answer k)) :
    Answers env (b.assemble ask) (b.assemble answer) := by
  have hpart : ∀ s ∈ b.front ++ b.behind ++ b.tail, Answers env (ask s.key) (answer s.key) :=
    fun s hs => h s.key (List.mem_map_of_mem hs)
  simp only [List.mem_append] at hpart
  exact (expandAll fun s hs => hpart s (Or.inl (Or.inl hs))).bind fun _ =>
    (expandAll fun s hs => hpart s (Or.inl (Or.inr hs))).bind fun _ =>
      (expandAll fun s hs => hpart s (Or.inr hs)).bind fun _ => pure _

end Answers

/-! ## The recursion over a table -/

namespace AncestryTable

theorem cachedChain_of_mem {path : List ChainKey} {key : ChainKey} (h : key ∈ path)
    (t : AncestryTable) :
    (cachedChain env path key).run.run t = (.error (env.cycle path key), t) := by
  rw [cachedChain, if_pos h]
  rfl

/-- Off the path a chain is taken from the table, or assembled and remembered. -/
theorem cachedChain_of_notMem {path : List ChainKey} {key : ChainKey} (h : key ∉ path)
    (t : AncestryTable) :
    (cachedChain env path key).run.run t = match t.get? key with
      | some c => (.ok c, t)
      | none => match env.blueprint key with
        | .error failure => (.error failure, t)
        | .ok b => match (b.assemble (cachedChain env (path ++ [key]))).run.run t with
          | (.ok entries, t') =>
            (.ok ⟨key.name, key.context, entries⟩, t'.remember key ⟨key.name, key.context, entries⟩)
          | (.error failure, t') => (.error failure, t') := by
  have hget : (get : TableM AncestryTable).run.run t = (.ok t, t) := rfl
  rw [cachedChain, if_neg h, TableM.run_bind, hget]
  cases hknown : t.get? key with
  | some c => simp only [hknown]; rfl
  | none =>
    simp only [hknown]
    rw [Environment.blueprint]
    split <;> rename_i he <;> rw [he]
    · rfl
    · rename_i e
      cases hb : env.entryBlueprint e key.context with
      | error _ => simp only [hb]; rfl
      | ok b =>
        simp only [hb, TableM.run_bind]
        rcases (b.assemble (cachedChain env (path ++ [key]))).run.run t with ⟨_ | _, _⟩ <;> rfl

/-- On a faithful table the recursion over the table answers as plain recursion does, below a path
on which every chain is a part of the one before. -/
theorem cachedChain_answers {path : List ChainKey} {key : ChainKey}
    (hpath : (path ++ [key]).IsChain env.Depends) :
    Answers env (cachedChain env path key) (env.chain path key) := by
  induction path, key using env.chainInduction with
  | step path key ih =>
    intro t ht
    by_cases hmem : key ∈ path
    · rw [cachedChain_of_mem env hmem, env.chain_of_mem hmem]
      exact ⟨t, rfl, ht⟩
    · rw [cachedChain_of_notMem env hmem]
      cases hknown : t.get? key with
      | some c => exact ⟨t, by rw [Environment.chain_eq_of_isChain hpath (ht key c hknown)], ht⟩
      | none =>
        cases hb : env.blueprint key with
        | error failure => exact ⟨t, by rw [env.chain_of_error hmem hb], ht⟩
        | ok b =>
          have hparts : Answers env (b.assemble (cachedChain env (path ++ [key])))
              (b.assemble (env.chain (path ++ [key]))) := by
            refine Answers.assemble fun part hpart => ?_
            have hdep : env.Depends key part := (env.depends_iff_of_blueprint hb).2 hpart
            exact ih hmem part hdep (Environment.isChain_append_part hpath hdep)
          obtain ⟨t', hrun, ht'⟩ := hparts t ht
          have hchain := env.chain_of_blueprint hmem hb
          simp only [hrun]
          cases ha : b.assemble (env.chain (path ++ [key])) with
          | error failure =>
            rw [ha] at hchain
            exact ⟨t', by rw [hchain]; rfl, ht'⟩
          | ok entries =>
            rw [ha] at hchain
            exact ⟨_, by rw [hchain]; rfl, ht'.remember (Environment.chain_nil_of_ok hchain)⟩

theorem cachedChain_nil_answers (key : ChainKey) :
    Answers env (cachedChain env [] key) (env.chain [] key) :=
  cachedChain_answers env (List.isChain_singleton key)

end AncestryTable

/-! ## The explicit stack -/

/-- The parts of a frame's chain that are neither awaited nor pending are built. -/
def Frame.Progress (frame : Frame) (awaited : List ChainKey) : Prop :=
  ∃ done, env.dependencies frame.key = done ++ awaited ++ frame.pending ∧
    ∀ k ∈ done, ∃ c, env.chain [] k = .ok c

/-- The frames of a stack, innermost first: each awaits the chain of the one above it, no chain has
two frames, and the lowest frame is that of `root`. -/
inductive Prepass.Waiting (root : ChainKey) : List ChainKey → List Frame → Prop
  | lowest {frame : Frame} {awaited : List ChainKey} : frame.key = root →
      frame.Progress env awaited → Waiting root awaited [frame]
  | above {frame : Frame} {awaited : List ChainKey} {below : List Frame} :
      frame.Progress env awaited → frame.key ∉ below.map (·.key) →
      Waiting root [frame.key] below → Waiting root awaited (frame :: below)

/-- The chains of a stack, outermost first. -/
def Prepass.path (frames : List Frame) : List ChainKey := (frames.map (·.key)).reverse

variable {env}

theorem Frame.Progress.advance {frame : Frame} {k : ChainKey} {awaited : List ChainKey}
    (h : frame.Progress env (k :: awaited)) (hk : ∃ c, env.chain [] k = .ok c) :
    frame.Progress env awaited := by
  obtain ⟨done, hdeps, hdone⟩ := h
  refine ⟨done ++ [k], by rw [hdeps]; simp, fun j hj => ?_⟩
  rcases List.mem_append.1 hj with hj | hj
  · exact hdone j hj
  · exact List.mem_singleton.1 hj ▸ hk

theorem Frame.Progress.await {frame : Frame} {k : ChainKey} {pending : List ChainKey}
    (h : frame.Progress env []) (hpending : frame.pending = k :: pending) :
    Frame.Progress env ⟨frame.key, pending⟩ [k] := by
  obtain ⟨done, hdeps, hdone⟩ := h
  exact ⟨done, by rw [hdeps, hpending]; simp, hdone⟩

theorem Frame.Progress.depends {frame : Frame} {k : ChainKey} {awaited : List ChainKey}
    (h : frame.Progress env (k :: awaited)) : env.Depends frame.key k := by
  obtain ⟨done, hdeps, -⟩ := h
  rw [Environment.Depends, hdeps]
  simp

namespace Prepass

@[simp] theorem path_cons (frame : Frame) (below : List Frame) :
    path (frame :: below) = path below ++ [frame.key] := by
  simp [path]

theorem mem_path {frames : List Frame} {k : ChainKey} : k ∈ path frames ↔ k ∈ frames.map (·.key) :=
  List.mem_reverse

namespace Waiting

variable {root k : ChainKey} {awaited : List ChainKey} {frame : Frame} {below frames : List Frame}

theorem progress (h : Waiting env root awaited (frame :: below)) : frame.Progress env awaited := by
  cases h with
  | lowest _ hprogress => exact hprogress
  | above hprogress _ _ => exact hprogress

theorem notMem_path (h : Waiting env root awaited (frame :: below)) : frame.key ∉ path below := by
  cases h with
  | lowest _ _ => exact List.not_mem_nil
  | above _ hfresh _ => exact fun hmem => hfresh (mem_path.1 hmem)

/-- Only the innermost frame has to be looked at when it changes. -/
theorem replace (h : Waiting env root awaited (frame :: below)) {pending awaited' : List ChainKey}
    (hprogress : Frame.Progress env ⟨frame.key, pending⟩ awaited') :
    Waiting env root awaited' (⟨frame.key, pending⟩ :: below) := by
  cases h with
  | lowest hroot _ => exact lowest hroot hprogress
  | above _ hfresh hbelow => exact above hprogress hfresh hbelow

/-- What is on the stack below an awaited chain is a path of dependencies to it. -/
theorem isChain (h : Waiting env root [k] frames) : (path frames ++ [k]).IsChain env.Depends := by
  generalize hawaited : [k] = awaited at h
  induction h generalizing k with
  | lowest _ hprogress =>
    subst hawaited
    exact List.isChain_cons_cons.2 ⟨hprogress.depends, List.isChain_singleton k⟩
  | above hprogress _ _ ih =>
    subst hawaited
    rw [path_cons]
    exact Environment.isChain_append_part (ih rfl) hprogress.depends

theorem isChain_path (h : Waiting env root awaited (frame :: below)) :
    (path below ++ [frame.key]).IsChain env.Depends := by
  cases h with
  | lowest _ _ => exact List.isChain_singleton _
  | above _ _ hbelow => exact hbelow.isChain

/-- A failure of the innermost chain is the failure of the lowest one. -/
theorem root_error (h : Waiting env root awaited (frame :: below)) {failure : Failure}
    (herror : env.chain (path below) frame.key = .error failure) :
    env.chain [] root = .error failure := by
  generalize hframes : frame :: below = frames at h
  induction h generalizing frame below with
  | lowest hroot _ =>
    obtain ⟨rfl, rfl⟩ := List.cons.inj hframes
    exact hroot ▸ herror
  | @above _ _ rest _ _ hbelow ih =>
    obtain ⟨rfl, rfl⟩ := List.cons.inj hframes
    cases below with
    | nil => cases hbelow
    | cons next below =>
      obtain ⟨done, hdeps, hdone⟩ := hbelow.progress
      rw [path_cons] at herror
      have hparts : env.dependencies next.key = done ++ frame.key :: next.pending := by
        rw [hdeps]
        simp
      exact ih (Environment.chain_error_of_part hbelow.isChain_path hbelow.notMem_path hparts hdone
        herror) rfl

/-- The chain of a frame that waits for nothing fails on the path as it does alone. -/
theorem error_on_path (h : Waiting env root [] (frame :: below)) (hpending : frame.pending = [])
    {failure : Failure} (herror : env.chain [] frame.key = .error failure) :
    env.chain (path below) frame.key = .error failure := by
  obtain ⟨done, hdeps, hdone⟩ := h.progress
  rw [hpending, List.append_nil, List.append_nil] at hdeps
  cases hb : env.blueprint frame.key with
  | error other =>
    rw [env.chain_of_error List.not_mem_nil hb] at herror
    rw [env.chain_of_error h.notMem_path hb, herror]
  | ok b =>
    rw [env.dependencies_of_blueprint hb] at hdeps
    obtain ⟨c, hc⟩ := Environment.chain_ok_of_parts hb fun part hpart => hdone part (hdeps ▸ hpart)
    rw [hc] at herror
    cases herror

end Waiting

/-- One step keeps the frames on their way and the table faithful; if it fails, the chain of the
lowest frame fails alike. -/
theorem step_answers {root : ChainKey} {frame : Frame} {below : List Frame} {t : AncestryTable}
    (h : Waiting env root [] (frame :: below)) (ht : t.Faithful env) :
    ∃ outcome next, step env frame below t = (outcome, next) ∧ next.table.Faithful env ∧
      match outcome with
      | .ok _ => next.frames = [] ∨ Waiting env root [] next.frames
      | .error failure => env.chain [] root = .error failure := by
  cases hpending : frame.pending with
  | nil =>
    obtain ⟨t', hrun, ht'⟩ := AncestryTable.cachedChain_nil_answers env frame.key t ht
    rw [step, hpending]
    simp only [hrun]
    cases hchain : env.chain [] frame.key with
    | error failure =>
      exact ⟨_, _, rfl, ht', h.root_error (h.error_on_path hpending hchain)⟩
    | ok c =>
      refine ⟨_, _, rfl, ht', ?_⟩
      cases h with
      | lowest _ _ => exact Or.inl rfl
      | above _ _ hbelow =>
        cases hbelow with
        | lowest hroot hprogress => exact Or.inr (.lowest hroot (hprogress.advance ⟨c, hchain⟩))
        | above hprogress hfresh hrest =>
          exact Or.inr (.above (hprogress.advance ⟨c, hchain⟩) hfresh hrest)
  | cons part pending =>
    have hawait := h.progress.await hpending
    have hwaiting := h.replace hawait
    rw [step, hpending]
    show ∃ outcome next, (if part ∈ path (frame :: below) then _ else _) = _ ∧ _
    by_cases hcycle : part ∈ path (frame :: below)
    · rw [if_pos hcycle]
      refine ⟨_, _, rfl, ht, hwaiting.root_error ?_⟩
      obtain ⟨done, hdeps, hdone⟩ := hawait
      have hparts : env.dependencies frame.key = done ++ part :: pending := by
        rw [hdeps]
        simp
      have hpart : env.chain (path below ++ [frame.key]) part =
          .error (env.cycle (path (frame :: below)) part) := by
        rw [← path_cons]
        exact env.chain_of_mem hcycle
      exact Environment.chain_error_of_part h.isChain_path h.notMem_path hparts hdone hpart
    · rw [if_neg hcycle]
      by_cases hknown : t.knows part
      · rw [if_pos hknown]
        exact ⟨_, _, rfl, ht, Or.inr (h.replace (hawait.advance (ht.chain_of_knows hknown)))⟩
      · rw [if_neg hknown]
        refine ⟨_, _, rfl, ht, Or.inr (.above ⟨[], by simp [frameFor], by simp⟩ ?_ hwaiting)⟩
        exact fun hmem => hcycle (mem_path.2 hmem)

/-- Any number of steps leaves a faithful table, and a failure among them is the failure of the
lowest chain. -/
theorem run_answers {root : ChainKey} (n : Nat) {state : Prepass}
    (h : state.frames = [] ∨ Waiting env root [] state.frames) (ht : state.table.Faithful env) :
    (run env state n).2.Faithful env ∧
      ∀ failure, (run env state n).1 = .error failure → env.chain [] root = .error failure := by
  induction n generalizing state with
  | zero => exact ⟨ht, fun _ hfail => nomatch hfail⟩
  | succ n ih =>
    obtain ⟨frames, t⟩ := state
    cases frames with
    | nil => exact ⟨ht, fun _ hfail => nomatch hfail⟩
    | cons frame below =>
      have hwaiting : Waiting env root [] (frame :: below) := h.resolve_left (List.cons_ne_nil _ _)
      obtain ⟨outcome, next, hstep, hnext, houtcome⟩ := step_answers hwaiting ht
      rw [run]
      simp only [hstep]
      cases outcome with
      | error failure => exact ⟨hnext, fun _ hfail => Except.error.inj hfail ▸ houtcome⟩
      | ok _ => exact ih houtcome hnext

end Prepass

/-! ## Questions -/

namespace AncestryTable

/-- A question on a faithful table is answered as by plain recursion. -/
theorem ask_answers {t : AncestryTable} (ht : t.Faithful env) (key : ChainKey) :
    (ask env t key).1 = env.chain [] key ∧ (ask env t key).2.Faithful env := by
  have hprepare : (prepare env key t).2.Faithful env ∧
      ∀ failure, (prepare env key t).1 = .error failure → env.chain [] key = .error failure := by
    rw [prepare]
    split
    · exact ⟨ht, fun _ hfail => nomatch hfail⟩
    · exact Prepass.run_answers _
        (Or.inr (.lowest rfl ⟨[], by simp [Prepass.frameFor], by simp⟩)) ht
  obtain ⟨hfaithful, hfail⟩ := hprepare
  rw [ask]
  rcases hp : prepare env key t with ⟨_ | _, t'⟩ <;> rw [hp] at hfaithful hfail
  · exact ⟨(hfail _ rfl).symm, hfaithful⟩
  · obtain ⟨t'', hrun, ht''⟩ := cachedChain_nil_answers env key t' hfaithful
    simp only [hrun]
    exact ⟨trivial, ht''⟩

theorem askAll_answers {t : AncestryTable} (ht : t.Faithful env) (keys : List ChainKey) :
    askAll env t keys = keys.map (env.chain []) := by
  induction keys generalizing t with
  | nil => rfl
  | cons key rest ih =>
    obtain ⟨hanswer, hfaithful⟩ := ask_answers ht key
    rw [askAll, hanswer, ih hfaithful, List.map_cons]

variable (env)

theorem cachedChain_empty (key : ChainKey) :
    ((cachedChain env [] key).run.run .empty).1 = env.chain [] key := by
  obtain ⟨t', hrun, -⟩ := cachedChain_nil_answers env key .empty (faithful_empty env)
  rw [hrun]

/-- Whatever is asked in whatever order, each answer, a chain or a failure with its cycle, is that
of the recursion on an empty table, without the explicit stack and without earlier questions; and
that is the answer of the recursion that remembers nothing at all. -/
theorem askAll_eq_recursion (keys : List ChainKey) :
    askAll env .empty keys = keys.map (fun key => ((cachedChain env [] key).run.run .empty).1) ∧
      askAll env .empty keys = keys.map (env.chain []) := by
  have hplain := askAll_answers (faithful_empty env) keys
  refine ⟨?_, hplain⟩
  rw [hplain]
  exact List.map_congr_left fun key _ => (cachedChain_empty env key).symm

end AncestryTable

theorem Environment.ancestors_eq_chain (key : ChainKey) :
    env.ancestors key = env.chain [] key :=
  (AncestryTable.ask_answers (AncestryTable.faithful_empty env) key).1

end RubySig
