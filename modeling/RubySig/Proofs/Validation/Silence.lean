import RubySig.Proofs.Ancestry.Memo
import RubySig.Proofs.Ancestry.Sites
import RubySig.Proofs.OrderedMap
import RubySig.Session

/-!
# What silence says

When nothing is found in an environment, no part of it has a finding, although each issue is
reported only once at each place and the batch is sorted.

* `Environment.Silent`: nothing is found.
* `Environment.Silent.header`, `Environment.Silent.member`, `Environment.Silent.side`: what is
  written in front of a body, a member, and a side of an entity have no finding.
* `Environment.Silent.chain_ok`: every side that has methods has a chain, and none of the aliases
  that its entity writes is missing.
* `Session.silent_of_validate`, `SessionSetup.anchored_of_build`: the same for sessions.
-/

namespace RubySig

/-! ## Batches -/

namespace Diagnostic

theorem eq_nil_of_dedupe_eq_nil {batch : List Diagnostic} (h : dedupe batch = []) : batch = [] := by
  cases batch with
  | nil => rfl
  | cons d rest =>
    -- the first diagnostic of a batch is always kept
    rw [dedupe, dedupeFrom, if_neg List.not_mem_nil] at h
    cases h

theorem eq_nil_of_sort_eq_nil {sources : SourceMap} {batch : List Diagnostic}
    (h : sort sources batch = []) : batch = [] := by
  rw [sort] at h
  exact List.length_eq_zero_iff.1 ((List.length_mergeSort batch).symm.trans (by rw [h]; rfl))

end Diagnostic

/-! ## Entities -/

namespace Environment

variable {env : Environment}

/-- Nothing is found. -/
def Silent (env : Environment) : Prop := env.findings = []

theorem Silent.entry (h : env.Silent) {e : Entry} (he : e ∈ env.entities) :
    env.entryFindings env.sideChains e = [] := by
  have hall := Diagnostic.eq_nil_of_dedupe_eq_nil h
  exact List.flatMap_eq_nil_iff.1 (List.append_eq_nil_iff.1 hall).1 e he

theorem Silent.header (h : env.Silent) {e : Entry} (he : e ∈ env.entities)
    {f : Fragment EntityDecl} (hf : f ∈ e.fragments) : env.headerFindings e f = [] := by
  have hentry := h.entry he
  simp only [entryFindings, List.append_eq_nil_iff] at hentry
  exact List.flatMap_eq_nil_iff.1 hentry.1.1.1.2 f hf

theorem Silent.member (h : env.Silent) {e : Entry} (he : e ∈ env.entities) {b : Body}
    (hb : b ∈ e.bodies) {m : Member} (hm : m ∈ b.members) :
    env.memberFindings e b.nesting m = [] := by
  have hentry := h.entry he
  simp only [entryFindings, List.append_eq_nil_iff] at hentry
  have hbody := List.flatMap_eq_nil_iff.1 hentry.1.1.2 b hb
  exact (List.append_eq_nil_iff.1 (List.flatMap_eq_nil_iff.1 hbody m hm)).2

/-! ## Sides -/

theorem mem_sideKeys {e : Entry} (he : e ∈ env.entities) {context : Context}
    (hside : context ∈ sides e.kind) : ⟨e.name, context⟩ ∈ env.sideKeys :=
  List.mem_flatMap.2 ⟨e, he, List.mem_map_of_mem hside⟩

/-- The chains that are found in one go are those that plain recursion gives. -/
theorem get?_sideChains {key : ChainKey} (h : key ∈ env.sideKeys) :
    env.sideChains.get? key = some (env.chain [] key) := by
  rw [sideChains, AncestryTable.askAll_answers (AncestryTable.faithful_empty env)]
  exact OrderedMap.get?_ofList_zip (env.chain []) h

theorem Silent.side (h : env.Silent) {e : Entry} (he : e ∈ env.entities) {context : Context}
    (hside : context ∈ sides e.kind) :
    env.sideFindings e (env.chain [] ⟨e.name, context⟩) = [] := by
  have hentry := h.entry he
  simp only [entryFindings, List.append_eq_nil_iff] at hentry
  have hsides := List.flatMap_eq_nil_iff.1 hentry.2 context hside
  rwa [get?_sideChains (mem_sideKeys he hside)] at hsides

theorem mem_entities_of_get? {name : TypeName} {e : Entry} (h : env.get? name = some e) :
    e ∈ env.entities :=
  OrderedMap.mem_values_of_get? h

/-- Every side that has methods has a chain, and the aliases of its entity are not missing there. -/
theorem Silent.chain_ok (h : env.Silent) (henv : env.Anchored) {key : ChainKey}
    (hkey : env.Askable key) :
    ∃ c, env.chain [] key = .ok c ∧
      ∀ x ∈ (MethodTable.ofEntries env c.entries).missing, x.owner ≠ key.name := by
  obtain ⟨e, he, hside⟩ := hkey
  have hfindings := h.side (mem_entities_of_get? he) hside
  rw [(henv key.name e he).named] at hfindings
  cases hchain : env.chain [] key with
  | error failure =>
    -- a failure would have been reported
    obtain ⟨d, rfl, -⟩ := diagnostic_of_chain_error ⟨e, he, hside⟩ hchain
    rw [hchain] at hfindings
    cases hfindings
  | ok c =>
    rw [hchain, sideFindings, List.map_eq_nil_iff, List.filter_eq_nil_iff] at hfindings
    refine ⟨c, rfl, fun x hx howner => hfindings x hx (decide_eq_true ?_)⟩
    rw [howner, (henv key.name e he).named]

end Environment

/-! ## Sessions -/

theorem Session.silent_of_validate {s : Session} (h : s.validate = []) : s.env.Silent :=
  (List.append_eq_nil_iff.1 (Diagnostic.eq_nil_of_sort_eq_nil h)).2

/-- A session reads declarations from its sources without a syntax error, its environment is merged
from them, and their conflicts are sorted. -/
theorem SessionSetup.loaded_of_build {setup : SessionSetup} {s : Session}
    (h : setup.build = .ok s) :
    setup.sourceMap = .ok s.sources ∧
      parseSources setup.limits s.sources.numbered = .ok (s.declarations, []) ∧
      s.env = (mergeSources s.declarations).1 ∧
      s.conflicts = Diagnostic.sort s.sources (mergeSources s.declarations).2 := by
  rw [build] at h
  cases hsources : setup.sourceMap with
  | error _ => rw [hsources] at h; cases h
  | ok sources =>
    cases hparsed : parseSources setup.limits sources.numbered with
    | error _ =>
      simp only [hsources, bind, Except.bind, hparsed] at h
      cases h
    | ok read =>
      obtain ⟨parsed, errors⟩ := read
      simp only [hsources, bind, Except.bind, hparsed] at h
      split at h
      · rename_i hnone
        obtain rfl := List.isEmpty_iff.1 hnone
        obtain rfl := Except.ok.inj h
        exact ⟨rfl, hparsed, rfl, rfl⟩
      · cases h

theorem SessionSetup.parsed_of_build {setup : SessionSetup} {s : Session}
    (h : setup.build = .ok s) :
    ∃ errors, parseSources setup.limits s.sources.numbered = .ok (s.declarations, errors) ∧
      s.env = (mergeSources s.declarations).1 ∧
      s.conflicts = Diagnostic.sort s.sources (mergeSources s.declarations).2 := by
  obtain ⟨-, hparsed, hmerged⟩ := loaded_of_build h
  exact ⟨[], hparsed, hmerged⟩

/-- The environment of a session is merged from the declarations of its sources. -/
theorem SessionSetup.env_of_build {setup : SessionSetup} {s : Session} (h : setup.build = .ok s) :
    ∃ parsed, s.env = (mergeSources parsed).1 := by
  obtain ⟨-, -, henv, -⟩ := parsed_of_build h
  exact ⟨_, henv⟩

/-- The session of one file alone. -/
def SessionSetup.ofFile (path content : String) : SessionSetup :=
  ⟨false, [], [.ofFile path content], defaultLimits⟩

/-- A check of a result passes only if there is a result. -/
theorem exists_ok_of_any {ε α : Type} (r : Except ε α) (p : α → Bool) (h : r.toOption.any p) :
    ∃ a, r = .ok a ∧ p a := by
  cases r with
  | error _ => cases h
  | ok a => exact ⟨a, rfl, h⟩

theorem SessionSetup.anchored_of_build {setup : SessionSetup} {s : Session}
    (h : setup.build = .ok s) : s.env.Anchored := by
  obtain ⟨parsed, henv⟩ := env_of_build h
  rw [henv]
  exact mergeSources_anchored parsed

end RubySig
