import Mathlib.Data.String.Basic
import RubySig.Name

/-!
# Printed names are read back

A name that is read from a text has segments that are identifiers, all but the last of them
capitalized, and it is printed as that text.  Every such name is read back from its printed form.

* `splitSegments_joinSegments`, `joinSegments_splitSegments`: cutting at `::` and joining again.
* `TypeName.WellSpelled`: the names that can be read.
* `TypeName.parse?_eq_some_iff`: a text is read as the name that is printed like it.
-/

namespace RubySig

namespace TypeName

/-! ## Segments -/

/-- Segments with `::` between them. -/
def joinSegments (segments : List (List Char)) : List Char := [':', ':'].intercalate segments

@[simp] theorem joinSegments_singleton (s : List Char) : joinSegments [s] = s := by
  simp [joinSegments, List.intercalate]

theorem joinSegments_cons (s : List Char) {rest : List (List Char)} (hne : rest ≠ []) :
    joinSegments (s :: rest) = s ++ ':' :: ':' :: joinSegments rest := by
  obtain ⟨t, rest, rfl⟩ := List.exists_cons_of_ne_nil hne
  simp [joinSegments, List.intercalate]

/-- Every segment but the last is followed by `::`. -/
theorem joinSegments_concat (path : List (List Char)) (last : List Char) :
    joinSegments (path ++ [last]) = path.flatMap (· ++ [':', ':']) ++ last := by
  induction path with
  | nil => simp
  | cons s path ih => rw [List.cons_append, joinSegments_cons s (by simp), ih]; simp

theorem joinSegments_consHead (c : Char) {segments : List (List Char)} (hne : segments ≠ []) :
    joinSegments (consHead c segments) = c :: joinSegments segments := by
  obtain ⟨s, rest, rfl⟩ := List.exists_cons_of_ne_nil hne
  by_cases hrest : rest = []
  · subst hrest
    simp [consHead]
  · rw [consHead, joinSegments_cons _ hrest, joinSegments_cons _ hrest, List.cons_append]

theorem splitSegments_ne_nil (text : List Char) : splitSegments text ≠ [] := by
  fun_induction splitSegments text with
  | case1 => simp
  | case2 rest ih => simp
  | case3 c rest hpair ih => cases hsplit : splitSegments rest <;> simp [consHead]

/-- No character is lost. -/
theorem joinSegments_splitSegments (text : List Char) :
    joinSegments (splitSegments text) = text := by
  fun_induction splitSegments text with
  | case1 => simp
  | case2 rest ih => rw [joinSegments_cons [] (splitSegments_ne_nil rest), ih, List.nil_append]
  | case3 c rest hpair ih => rw [joinSegments_consHead c (splitSegments_ne_nil rest), ih]

theorem splitSegments_cons {c : Char} (hc : c ≠ ':') (rest : List Char) :
    splitSegments (c :: rest) = consHead c (splitSegments rest) := by
  rw [splitSegments]
  intro others hcolon
  exact absurd hcolon hc

theorem splitSegments_of_notMem {s : List Char} (h : ':' ∉ s) : splitSegments s = [s] := by
  induction s with
  | nil => rfl
  | cons c s ih =>
    simp only [List.mem_cons, not_or] at h
    rw [splitSegments_cons (Ne.symm h.1), ih h.2, consHead]

theorem splitSegments_append {s : List Char} (h : ':' ∉ s) (rest : List Char) :
    splitSegments (s ++ ':' :: ':' :: rest) = s :: splitSegments rest := by
  induction s with
  | nil => simp [splitSegments]
  | cons c s ih =>
    simp only [List.mem_cons, not_or] at h
    rw [List.cons_append, splitSegments_cons (Ne.symm h.1), ih h.2, consHead]

/-- Joined segments without colons are cut into themselves. -/
theorem splitSegments_joinSegments {segments : List (List Char)} (hne : segments ≠ [])
    (h : ∀ s ∈ segments, ':' ∉ s) : splitSegments (joinSegments segments) = segments := by
  induction segments with
  | nil => exact absurd rfl hne
  | cons s rest ih =>
    obtain ⟨hs, hrest⟩ := List.forall_mem_cons.1 h
    by_cases hnil : rest = []
    · subst hnil
      rw [joinSegments_singleton, splitSegments_of_notMem hs]
    · rw [joinSegments_cons s hnil, splitSegments_append hs, ih hnil hrest]

/-! ## Names that can be read -/

/-- All segments but the last can name a class or module, and the last is an identifier. -/
structure WellSpelled (n : TypeName) : Prop where
  /-- The enclosing segments. -/
  path : ∀ segment ∈ n.scope.path, isClassSegment segment.toList = true
  /-- The simple name. -/
  last : isIdentifier n.name.toList = true

theorem colon_notMem {s : List Char} (h : isIdentifier s = true) : ':' ∉ s := by
  cases s with
  | nil => simp
  | cons c cs =>
    simp only [isIdentifier, Bool.and_eq_true, List.all_eq_true] at h
    intro hmem
    rcases List.mem_cons.1 hmem with rfl | hmem
    · exact absurd h.1 (by decide)
    · exact absurd (h.2 _ hmem) (by decide)

namespace WellSpelled

variable {n : TypeName}

theorem isIdentifier_of_mem (h : n.WellSpelled) :
    ∀ s ∈ n.segments.map String.toList, isIdentifier s = true := by
  intro s hs
  simp only [segments, List.map_append, List.mem_append, List.mem_map, List.map_cons, List.map_nil,
    List.mem_singleton] at hs
  rcases hs with ⟨segment, hsegment, rfl⟩ | rfl
  · exact (Bool.and_eq_true_iff.1 (h.path segment hsegment)).1
  · exact h.last

theorem segments_ne_nil (n : TypeName) : n.segments.map String.toList ≠ [] := by
  simp [segments]

theorem splitSegments_eq (h : n.WellSpelled) :
    splitSegments (joinSegments (n.segments.map String.toList)) =
      n.segments.map String.toList := by
  apply splitSegments_joinSegments (segments_ne_nil n)
  intro s hs
  exact colon_notMem (h.isIdentifier_of_mem s hs)

/-- The segments of a name begin with no colon. -/
theorem not_anchored (h : n.WellSpelled) (rest : List Char) :
    joinSegments (n.segments.map String.toList) ≠ ':' :: ':' :: rest := by
  intro hanchor
  have hsplit := h.splitSegments_eq
  rw [hanchor, splitSegments] at hsplit
  have hempty := h.isIdentifier_of_mem [] (by rw [← hsplit]; exact List.mem_cons_self)
  exact Bool.false_ne_true hempty

end WellSpelled

/-! ## Reading -/

theorem ofSegments?_eq_some_iff {absolute : Bool} {segments : List (List Char)} {n : TypeName} :
    ofSegments? absolute segments = some n ↔
      n.scope.absolute = absolute ∧ n.segments.map String.toList = segments ∧ n.WellSpelled := by
  unfold ofSegments?
  rcases List.eq_nil_or_concat' segments with rfl | ⟨path, last, rfl⟩
  · simp [TypeName.segments]
  · simp only [List.getLast?_concat, List.dropLast_concat]
    constructor
    · intro h
      split at h
      · next hspelled =>
        obtain rfl := Option.some.inj h
        simp only [Bool.and_eq_true, List.all_eq_true] at hspelled
        refine ⟨rfl, by simp [TypeName.segments, Function.comp_def], ?_, ?_⟩
        · simpa using hspelled.2
        · simpa using hspelled.1
      · cases h
    · obtain ⟨⟨path', absolute'⟩, last'⟩ := n
      rintro ⟨rfl, hsegments, hpath, hlast⟩
      simp only [TypeName.segments, List.map_append, List.map_cons, List.map_nil] at hsegments
      obtain ⟨rfl, hsame⟩ := List.append_inj' hsegments rfl
      obtain rfl := List.singleton_inj.1 hsame
      rw [if_pos]
      · simp [Function.comp_def]
      · simpa using ⟨hlast, hpath⟩

/-- A printed name is its segments, anchored or not. -/
theorem toList_render (n : TypeName) :
    n.render.toList = (if n.scope.absolute then [':', ':'] else []) ++
      joinSegments (n.segments.map String.toList) := by
  have hanchor : (if n.scope.absolute then "::" else "").toList =
      if n.scope.absolute then [':', ':'] else [] := by
    cases n.scope.absolute <;> rfl
  rw [render, Namespace.render, String.toList_append, String.toList_append, hanchor,
    String.toList_join, segments, List.map_append, List.map_cons, List.map_nil,
    joinSegments_concat, List.flatMap_map, List.flatMap_map, List.append_assoc]
  simp

theorem WellSpelled.parse?_render {n : TypeName} (h : n.WellSpelled) :
    parse? n.render = some n := by
  have hread : ofSegments? n.scope.absolute (splitSegments
      (joinSegments (n.segments.map String.toList))) = some n :=
    ofSegments?_eq_some_iff.2 ⟨rfl, h.splitSegments_eq.symm, h⟩
  unfold parse?
  rw [toList_render]
  cases habsolute : n.scope.absolute with
  | true => rwa [habsolute] at hread
  | false =>
    rw [habsolute] at hread
    simp only [Bool.false_eq_true, if_false, List.nil_append]
    split
    · next rest hanchor => exact absurd hanchor (h.not_anchored rest)
    · exact hread

theorem render_of_parse? {text : String} {n : TypeName} (h : parse? text = some n) :
    n.render = text ∧ n.WellSpelled := by
  unfold parse? at h
  rw [← String.toList_inj, toList_render]
  split at h
  · next rest hanchor =>
    obtain ⟨habsolute, hsegments, hspelled⟩ := ofSegments?_eq_some_iff.1 h
    rw [habsolute, hsegments, joinSegments_splitSegments, hanchor]
    exact ⟨rfl, hspelled⟩
  · obtain ⟨habsolute, hsegments, hspelled⟩ := ofSegments?_eq_some_iff.1 h
    rw [habsolute, hsegments, joinSegments_splitSegments]
    exact ⟨rfl, hspelled⟩

/-- A text is read as the name that is printed like it, if there is one that can be read. -/
theorem parse?_eq_some_iff {text : String} {n : TypeName} :
    parse? text = some n ↔ n.render = text ∧ n.WellSpelled := by
  constructor
  · exact render_of_parse?
  · rintro ⟨rfl, h⟩
    exact h.parse?_render

/-- The last segment of a printed name is its simple name. -/
theorem WellSpelled.getLast?_splitSegments {n : TypeName} (h : n.WellSpelled) :
    (splitSegments n.render.toList).getLast? = some n.name.toList := by
  have hlast : (n.segments.map String.toList).getLast? = some n.name.toList := by
    rw [segments, List.map_append, List.map_cons, List.map_nil, List.getLast?_concat]
  rw [toList_render]
  cases n.scope.absolute with
  | true =>
    rw [if_pos rfl, List.cons_append, List.cons_append, List.nil_append, splitSegments,
      h.splitSegments_eq, List.getLast?_cons, hlast]
    rfl
  | false =>
    rw [if_neg Bool.false_ne_true, List.nil_append, h.splitSegments_eq, hlast]

end TypeName

end RubySig
