import Mathlib.Data.List.Induction
import Mathlib.Data.Prod.Lex
import RubySig.Proofs.Token.Starts

/-!
# Places are known by line and column

Every place between two characters of a text has a line and a column of its own: a later place has a
later line, or the same line and a later column, and the offset of a place can be computed from its
line and column.

* `IsBoundary`: the offsets between characters.
* `positionAfter_concat`, `positionAfter_lt`: one more character, and any number of them.
* `LinesBefore`: the text in front of an offset as closed lines and a line that has begun.
* `offsetOf`: the offset of a line and column.
* `lineColumn_faithful`: lines and columns are ordered like offsets, count newlines and characters,
  and give the offset back.
-/

namespace RubySig

/-! ## The text in front of an offset -/

/-- An offset between two characters of a text, or at one of its ends. -/
def IsBoundary (content : String) (offset : Nat) : Prop := String.Pos.Raw.IsValid content ⟨offset⟩

theorem isBoundary_iff {content : String} {offset : Nat} :
    IsBoundary content offset ↔
      ∃ before after, content.toList = before ++ after ∧ byteLength before = offset := by
  rw [IsBoundary, String.Pos.Raw.isValid_iff_exists_append]
  constructor
  · rintro ⟨before, after, rfl, hend⟩
    refine ⟨before.toList, after.toList, String.toList_append, ?_⟩
    rw [byteLength_toList]
    exact (congrArg String.Pos.Raw.byteIdx hend).symm
  · rintro ⟨before, after, hcontent, rfl⟩
    refine ⟨String.ofList before, String.ofList after, ?_, ?_⟩
    · rw [← String.ofList_append, ← hcontent, String.ofList_toList]
    · rw [← String.toList_ofList (l := before), byteLength_toList, String.toList_ofList]
      rfl

theorem takeBytes?_append (before after : List Char) :
    takeBytes? (byteLength before) (before ++ after) = some before := by
  induction before with
  | nil => rw [byteLength, List.map_nil, List.foldr_nil, takeBytes?]
  | cons c cs ih =>
    obtain ⟨n, hn⟩ := Nat.exists_eq_add_of_lt (byteLength_pos (List.cons_ne_nil c cs))
    rw [Nat.zero_add] at hn
    have hsize := byteLength_cons c cs
    have hrest : n + 1 - c.utf8Size = byteLength cs := by omega
    rw [hn, List.cons_append, takeBytes?, if_pos (by omega), hrest, ih]
    rfl

theorem textBefore_append (before after : List Char) :
    textBefore (before ++ after) (byteLength before) = before := by
  rw [textBefore, byteLength_append, Nat.min_eq_left (Nat.le_add_right _ _), takeBytes?_append]
  rfl

/-! ## Growing texts -/

/-- Behind a newline a line begins, behind any other character it goes on. -/
theorem positionAfter_concat (before : List Char) (c : Char) :
    positionAfter (before ++ [c]) =
      if c = '\n' then ((positionAfter before).1 + 1, 0)
      else ((positionAfter before).1, (positionAfter before).2 + 1) := by
  rw [positionAfter, List.count_append, List.reverse_append, List.reverse_singleton,
    List.singleton_append, List.takeWhile_cons, positionAfter]
  by_cases hc : c = '\n'
  all_goals simp [hc]

theorem positionAfter_lt_concat (before : List Char) (c : Char) :
    toLex (positionAfter before) < toLex (positionAfter (before ++ [c])) := by
  rw [positionAfter_concat, Prod.Lex.toLex_lt_toLex]
  split
  · exact Or.inl (Nat.lt_succ_self _)
  · exact Or.inr ⟨rfl, Nat.lt_succ_self _⟩

/-- A longer text ends on a later line, or on the same one in a later column. -/
theorem positionAfter_lt (before : List Char) {more : List Char} (h : more ≠ []) :
    toLex (positionAfter before) < toLex (positionAfter (before ++ more)) := by
  induction more generalizing before with
  | nil => exact absurd rfl h
  | cons c rest ih =>
    have hfirst := positionAfter_lt_concat before c
    rw [← List.singleton_append, ← List.append_assoc]
    cases rest with
    | nil => rwa [List.append_nil]
    | cons d rest => exact hfirst.trans (ih (before ++ [c]) (List.cons_ne_nil d rest))

/-! ## Closed lines -/

/-- The text in front of an offset: closed lines, each with its newline, and what stands in front of
the offset on its own line. -/
structure LinesBefore (content : String) (offset : Nat) (closed line : List Char) : Prop where
  inFront : ∃ after, content.toList = closed ++ line ++ after
  bytes : byteLength (closed ++ line) = offset
  closed : closed = [] ∨ ∃ text, closed = text ++ ['\n']
  unclosed : '\n' ∉ line

theorem exists_closed_append (before : List Char) : ∃ closed line, before = closed ++ line ∧
    (closed = [] ∨ ∃ text, closed = text ++ ['\n']) ∧ '\n' ∉ line := by
  induction before using List.reverseRecOn with
  | nil => exact ⟨[], [], rfl, Or.inl rfl, List.not_mem_nil⟩
  | append_singleton before c ih =>
    by_cases hc : c = '\n'
    · exact ⟨before ++ [c], [], (List.append_nil _).symm, Or.inr ⟨before, by rw [hc]⟩,
        List.not_mem_nil⟩
    · obtain ⟨closed, line, rfl, hclosed, hline⟩ := ih
      refine ⟨closed, line ++ [c], List.append_assoc _ _ _, hclosed, ?_⟩
      simp [hline, Ne.symm hc]

/-- A line that has begun does not change the number of lines, and its characters are the column. -/
theorem positionAfter_append {closed line : List Char}
    (hclosed : closed = [] ∨ ∃ text, closed = text ++ ['\n']) (hline : '\n' ∉ line) :
    positionAfter (closed ++ line) = (1 + (closed ++ line).count '\n', line.length) := by
  induction line using List.reverseRecOn with
  | nil =>
    rw [List.append_nil]
    rcases hclosed with rfl | ⟨text, rfl⟩
    · rfl
    · rw [positionAfter_concat, if_pos rfl, positionAfter]
      simp [Nat.add_comm]
  | append_singleton line c ih =>
    have hc : c ≠ '\n' := by
      rintro rfl
      exact hline (List.mem_append_right _ (List.mem_singleton_self _))
    rw [← List.append_assoc, positionAfter_concat, if_neg hc,
      ih fun h => hline (List.mem_append_left _ h)]
    simp [List.count_append, hc]

/-! ## The way back -/

/-- The bytes in front of a column behind a number of newlines. -/
def bytesUpTo (column : Nat) : Nat → List Char → Nat
  | 0, text => byteLength (text.take column)
  | _ + 1, [] => 0
  | n + 1, c :: rest => c.utf8Size + bytesUpTo column (if c = '\n' then n else n + 1) rest

/-- The offset of a line and column. -/
def offsetOf (content : String) (position : Nat × Nat) : Nat :=
  bytesUpTo position.2 (position.1 - 1) content.toList

theorem bytesUpTo_closed (column : Nat) (text rest : List Char) :
    bytesUpTo column ((text ++ ['\n']).count '\n') (text ++ ['\n'] ++ rest) =
      byteLength (text ++ ['\n']) + byteLength (rest.take column) := by
  induction text with
  | nil =>
    show '\n'.utf8Size + bytesUpTo column (if '\n' = '\n' then 0 else 1) rest = _
    rw [if_pos rfl, bytesUpTo]
    rfl
  | cons c text ih =>
    -- the closing newline is still to come
    obtain ⟨n, hn⟩ : ∃ n, (text ++ ['\n']).count '\n' = n + 1 := ⟨text.count '\n', by simp⟩
    rw [hn] at ih
    rw [List.cons_append, List.cons_append, List.count_cons, hn, byteLength_cons]
    by_cases hc : c = '\n'
    · rw [if_pos (beq_iff_eq.2 hc), bytesUpTo, if_pos hc, ih, Nat.add_assoc]
    · rw [if_neg (mt beq_iff_eq.1 hc), Nat.add_zero, bytesUpTo, if_neg hc, ih, Nat.add_assoc]

theorem LinesBefore.offsetOf {content : String} {offset : Nat} {closed line : List Char}
    (h : LinesBefore content offset closed line) :
    offsetOf content (1 + (closed ++ line).count '\n', line.length) = offset := by
  obtain ⟨⟨after, hcontent⟩, rfl, hclosed, hline⟩ := h
  have hcount : 1 + (closed ++ line).count '\n' - 1 = closed.count '\n' := by
    rw [List.count_append, List.count_eq_zero_of_not_mem hline]
    omega
  rw [RubySig.offsetOf, hcount, hcontent, List.append_assoc, byteLength_append]
  rcases hclosed with rfl | ⟨text, rfl⟩
  · rw [List.count_nil, List.nil_append, List.nil_append, bytesUpTo, List.take_left]
    exact (Nat.zero_add _).symm
  · rw [bytesUpTo_closed, List.take_left]

/-! ## Lines and columns -/

theorem lineColumn_eq {content : String} {before after : List Char}
    (h : content.toList = before ++ after) :
    lineColumn content (byteLength before) = positionAfter before := by
  rw [lineColumn, h, textBefore_append]

/-- Of two offsets between characters the first one has the smaller line, or the same line and the
smaller column.  The line is the number of newlines in front of the offset and one, the column is
the number of characters behind the last of them, and the offset can be told from both. -/
theorem lineColumn_faithful (content : String) :
    (∀ a b, IsBoundary content a → IsBoundary content b → a < b →
      toLex (lineColumn content a) < toLex (lineColumn content b)) ∧
    ∀ a, IsBoundary content a → ∃ closed line, LinesBefore content a closed line ∧
      lineColumn content a = (1 + (closed ++ line).count '\n', line.length) ∧
      offsetOf content (lineColumn content a) = a := by
  constructor
  · intro a b ha hb hlt
    obtain ⟨before, after, hcontent, rfl⟩ := isBoundary_iff.1 ha
    obtain ⟨longer, rest, hcontent', rfl⟩ := isBoundary_iff.1 hb
    have hprefix : before <+: longer := by
      refine List.prefix_of_prefix_length_le ⟨after, hcontent.symm⟩ ⟨rest, hcontent'.symm⟩ ?_
      by_contra hlonger
      obtain ⟨more, rfl⟩ := List.prefix_of_prefix_length_le ⟨rest, hcontent'.symm⟩
        ⟨after, hcontent.symm⟩ (Nat.le_of_not_le hlonger)
      rw [byteLength_append] at hlt
      omega
    obtain ⟨more, rfl⟩ := hprefix
    have hmore : more ≠ [] := by
      rintro rfl
      rw [List.append_nil] at hlt
      exact Nat.lt_irrefl _ hlt
    rw [lineColumn_eq hcontent, lineColumn_eq hcontent']
    exact positionAfter_lt before hmore
  · intro a ha
    obtain ⟨before, after, hcontent, rfl⟩ := isBoundary_iff.1 ha
    obtain ⟨closed, line, rfl, hclosed, hline⟩ := exists_closed_append before
    have hsplit : LinesBefore content (byteLength (closed ++ line)) closed line :=
      ⟨⟨after, hcontent⟩, rfl, hclosed, hline⟩
    have hposition := (lineColumn_eq hcontent).trans (positionAfter_append hclosed hline)
    exact ⟨closed, line, hsplit, hposition, by rw [hposition, hsplit.offsetOf]⟩

/-- Behind an empty line and letters of two bytes. -/
theorem lineColumn_faithful_umlauts :
    IsBoundary "é\r\n\nßx" 2 ∧ IsBoundary "é\r\n\nßx" 7 ∧ 2 < 7 ∧
      toLex (lineColumn "é\r\n\nßx" 2) < toLex (lineColumn "é\r\n\nßx" 7) ∧
      lineColumn "é\r\n\nßx" 7 = (3, 1) ∧ ∃ closed line, LinesBefore "é\r\n\nßx" 7 closed line ∧
        lineColumn "é\r\n\nßx" 7 = (1 + (closed ++ line).count '\n', line.length) ∧
        offsetOf "é\r\n\nßx" (lineColumn "é\r\n\nßx" 7) = 7 := by
  have hfirst : IsBoundary "é\r\n\nßx" 2 :=
    isBoundary_iff.2 ⟨['é'], ['\r', '\n', '\n', 'ß', 'x'], by decide, by decide⟩
  have hsecond : IsBoundary "é\r\n\nßx" 7 :=
    isBoundary_iff.2 ⟨['é', '\r', '\n', '\n', 'ß'], ['x'], by decide, by decide⟩
  obtain ⟨hordered, htold⟩ := lineColumn_faithful "é\r\n\nßx"
  exact ⟨hfirst, hsecond, by decide, hordered 2 7 hfirst hsecond (by decide), by decide,
    htold 7 hsecond⟩

end RubySig
