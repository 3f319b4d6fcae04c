import RubySig.Proofs.Environment.Places
import RubySig.Proofs.Parser.BodySpans
import RubySig.Proofs.Validation.Silence

/-!
# Spans in parsed files

Whatever is read from a text lies where it is written: every span goes from the start of a token to
the end of one, the spans of parts lie in those of the whole, and what stands side by side is
written one behind the other.  No two references share a span.

* `Placement.references`: the references of a declaration, without those of nested declarations.
* `spans_of_parseSource`: the spans in the declarations of a text.
-/

namespace RubySig

/-- The references that a placed declaration makes, without those of the declarations nested in
it. -/
def Placement.references : Placement → List Reference
  | .entity _ f => f.decl.headerReferences ++ f.decl.members.flatMap Member.references
  | .global f => f.decl.type.references

theorem Placement.sitesOf_references_le (p : Placement) : sitesOf p.references ≤ p.sites := by
  cases p with
  | entity name f =>
    rw [references, sitesOf_append, sites, EntityDecl.ownSites, add_assoc]
    exact Multiset.le_add_left _ _
  | global f => exact le_refl _

theorem sitesOf_references_le (placed : List Placement) :
    sitesOf (placed.flatMap Placement.references) ≤ sitesOfAll placed := by
  rw [sitesOf_flatMap, sitesOfAll]
  exact List.sum_le_sum fun p _ => p.sitesOf_references_le

section Files

variable {limits : Limits} {source : SourceId} {text : String} {declarations : List Declaration}
  {errors : List Diagnostic}

/-- No two references of a text have one span. -/
theorem nodup_spans_of_parseSource
    (h : parseSource limits source text = .ok (declarations, errors)) :
    (((placements source declarations).flatMap Placement.references).map Reference.span).Nodup := by
  have hsites : (sitesOf ((placements source declarations).flatMap Placement.references)).Nodup :=
    Multiset.nodup_of_le ((sitesOf_references_le _).trans (sites_of_parseSource h))
      (nodup_sites_start source text limits.execFuel)
  refine List.Nodup.of_map Span.site ?_
  rw [List.map_map]
  exact Multiset.coe_nodup.1 hsites

theorem stands_start (fuel : Option Nat) :
    (Cursor.start source text fuel).Stands source text 0 where
  source := rfl
  textEnd := rfl
  rest := List.suffix_refl _
  above _ _ := Nat.zero_le _
  passed _ _ := Nat.zero_le _
  stops h := absurd h (Nat.lt_irrefl 0)

/-- The spans in the declarations of a text are well nested, the declarations stand one behind the
other, and no two references have one span. -/
theorem spans_of_parseSource
    (h : parseSource limits source text = .ok (declarations, errors)) :
    (∀ d ∈ declarations, d.WellNested source text) ∧
      declarations.Pairwise (fun d e => d.span.Precedes e.span) ∧
      (((placements source declarations).flatMap Placement.references).map
        Reference.span).Nodup := by
  refine and_assoc.1 ⟨?_, nodup_spans_of_parseSource h⟩
  rcases runFile_of_parseSource h with rfl | ⟨c, hrun⟩
  · exact ⟨fun _ hd => absurd hd List.not_mem_nil, .nil⟩
  · obtain ⟨-, -, hrow⟩ := Parser.file_fills _ _ _ _ _ _ (stands_start limits.execFuel) rfl hrun
    exact ⟨fun d hd => (hrow.each d hd).1, hrow.inOrder.imp fun ⟨_, hd, he⟩ =>
      hd.2.stop.trans he.2.start⟩

end Files

/-- A class with a bound, arguments, a visibility in front of a method and a nested class. -/
def spanText : String :=
  "class Pair[A, B < C[A]] < D[E[A], F]\n  private def swap: (G) -> H | () -> A\n" ++
    "  class I < J\n  end\nend\ntype t = [K, K?]\n"

set_option maxRecDepth 100000 in
theorem spans_of_pair : ∃ ds, parseSource .unlimited 0 spanText = .ok (ds, []) ∧
    ds.map (·.span.range) = [⟨0, 99⟩, ⟨100, 116⟩] ∧
    ((placements 0 ds).flatMap Placement.references).map (·.span.range.start) =
      [18, 26, 28, 34, 58, 64, 88, 110, 113] ∧
    (∀ d ∈ ds, d.WellNested 0 spanText) ∧ ds.Pairwise (fun d e => d.span.Precedes e.span) ∧
    (((placements 0 ds).flatMap Placement.references).map Reference.span).Nodup := by
  obtain ⟨⟨ds, errors⟩, hparse, hcheck⟩ := exists_ok_of_any (parseSource .unlimited 0 spanText)
    (fun r => r.2.isEmpty && decide (r.1.map (·.span.range) = [⟨0, 99⟩, ⟨100, 116⟩]) &&
      decide (((placements 0 r.1).flatMap Placement.references).map (·.span.range.start) =
        [18, 26, 28, 34, 58, 64, 88, 110, 113])) (by decide +kernel)
  simp only [Bool.and_eq_true, decide_eq_true_eq, List.isEmpty_iff] at hcheck
  obtain ⟨⟨rfl, hranges⟩, hstarts⟩ := hcheck
  exact ⟨ds, hparse, hranges, hstarts, spans_of_parseSource hparse⟩

end RubySig
