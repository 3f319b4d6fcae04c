import Mathlib.Data.String.Basic
import RubySig.Parser.Lexeme

/-!
# Where tokens start

No piece that a text is cut into is empty, so no two of its tokens start at the same place.

* `ne_nil_of_mem_cut`: pieces are not empty.
* `starts_place`: placed one after the other, they start at growing offsets.
* `Lexeme.starts_ofText`: so do the lexemes of a text.
-/

namespace RubySig

/-! ## Pieces -/

theorem ne_nil_of_mem_cutRaw {rules : List TokenRule} {text : List Char} :
    ∀ p ∈ cutRaw rules text, p.2 ≠ [] := by
  fun_induction cutRaw rules text with
  | case1 => exact fun _ hp => absurd hp List.not_mem_nil
  | case2 c cs piece ih => exact List.forall_mem_cons.2 ⟨List.cons_ne_nil _ _, ih⟩

theorem ne_nil_of_mem_joinGarbage {ps : List (TokenKind × List Char)} (h : ∀ p ∈ ps, p.2 ≠ []) :
    ∀ p ∈ joinGarbage ps, p.2 ≠ [] := by
  fun_induction joinGarbage ps with
  | case1 => exact h
  | case2 text rest more others hjoined ih =>
    obtain ⟨htext, hrest⟩ := List.forall_mem_cons.1 h
    have hothers := ih hrest
    rw [hjoined] at hothers
    exact List.forall_mem_cons.2 ⟨List.append_ne_nil_of_left_ne_nil htext _,
      (List.forall_mem_cons.1 hothers).2⟩
  | case3 kind text rest _ ih =>
    obtain ⟨htext, hrest⟩ := List.forall_mem_cons.1 h
    exact List.forall_mem_cons.2 ⟨htext, ih hrest⟩

theorem ne_nil_of_mem_cut {rules : List TokenRule} {text : List Char} :
    ∀ p ∈ cut rules text, p.2 ≠ [] :=
  ne_nil_of_mem_joinGarbage ne_nil_of_mem_cutRaw

/-! ## Offsets -/

theorem byteLength_cons (c : Char) (cs : List Char) :
    byteLength (c :: cs) = c.utf8Size + byteLength cs := rfl

theorem byteLength_pos {text : List Char} (h : text ≠ []) : 0 < byteLength text := by
  obtain ⟨c, cs, rfl⟩ := List.exists_cons_of_ne_nil h
  rw [byteLength_cons]
  exact Nat.add_pos_left c.utf8Size_pos _

theorem byteLength_append (as bs : List Char) :
    byteLength (as ++ bs) = byteLength as + byteLength bs := by
  induction as with
  | nil => exact (Nat.zero_add _).symm
  | cons c cs ih => rw [List.cons_append, byteLength_cons, byteLength_cons, ih, Nat.add_assoc]

theorem byteLength_toList (text : String) : byteLength text.toList = text.utf8ByteSize := by
  have hlength : ∀ cs : List Char, byteLength cs = String.utf8Len cs := by
    intro cs
    induction cs with
    | nil => rfl
    | cons c cs ih => rw [byteLength_cons, ih, String.utf8Len_cons, Nat.add_comm]
  rw [hlength, ← String.utf8ByteSize_ofList, String.ofList_toList]

/-- Pieces that are not empty start at growing offsets, none in front of the first one. -/
theorem starts_place {ps : List (TokenKind × List Char)} (h : ∀ p ∈ ps, p.2 ≠ []) (offset : Nat) :
    ((place offset ps).map (·.range.start)).Pairwise (· < ·) ∧
      ∀ t ∈ place offset ps, offset ≤ t.range.start := by
  induction ps generalizing offset with
  | nil => exact ⟨.nil, fun _ ht => absurd ht List.not_mem_nil⟩
  | cons p rest ih =>
    obtain ⟨kind, text⟩ := p
    obtain ⟨htext, hrest⟩ := List.forall_mem_cons.1 h
    obtain ⟨hgrowing, hbehind⟩ := ih hrest (offset + byteLength text)
    have hlonger : offset < offset + byteLength text :=
      Nat.lt_add_of_pos_right (byteLength_pos htext)
    rw [place]
    refine ⟨List.pairwise_cons.2 ⟨List.forall_mem_map.2 fun t ht => ?_, hgrowing⟩,
      List.forall_mem_cons.2 ⟨Nat.le_refl _, fun t ht => ?_⟩⟩
    · exact Nat.lt_of_lt_of_le hlonger (hbehind t ht)
    · exact Nat.le_of_lt (Nat.lt_of_lt_of_le hlonger (hbehind t ht))

namespace Lexeme

/-- Dropping trivia keeps the order of the other tokens. -/
theorem starts_collect (spaced onNewLine : Bool) (tokens : List Token) :
    ((collect spaced onNewLine tokens).map (·.range.start)).Sublist
      (tokens.map (·.range.start)) := by
  induction tokens generalizing spaced onNewLine with
  | nil => exact List.Sublist.refl _
  | cons t rest ih =>
    rw [collect]
    split
    · exact (ih _ _).cons _
    · exact (ih _ _).cons_cons _

/-- The lexemes of a text start at growing offsets. -/
theorem starts_ofText (text : String) :
    ((ofText text).map (·.range.start)).Pairwise (· < ·) :=
  (starts_place ne_nil_of_mem_cut 0).1.sublist (starts_collect false false _)

end Lexeme

end RubySig
