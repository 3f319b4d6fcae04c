import RubySig.Proofs.Parser.Brackets
import RubySig.Proofs.TypeExpr.Lasting
import RubySig.Proofs.Validation.Silence

/-!
# Parameters as they are written

A parameter list is written as items between parentheses with commas between them, where commas
inside of other brackets belong to the items.  Every item is read as one parameter: the marks of its
slot, its type and a variable name.  The list that the grammar returns has all of these parameters,
unless a rest parameter is written twice: then the later one takes the place of the earlier one.

* `splitItems`, `writtenItems`: the items of a list.
* `Marks`, `VariableName`, `ParamReads`: how an item is read.
* `Parser.param_reads`, `Parser.separatedUntil_reads`: one parameter and all of them.
* `params_written`: the parameters of a list.
* `second_rest_lost`: a list with two rest parameters, of which one is lost.
-/

namespace RubySig

/-! ## Items -/

/-- Lexemes in the pieces between the commas outside of all brackets, from a place where some
brackets are open. -/
def splitItems (depth : Nat) : List Lexeme → List (List Lexeme)
  | [] => [[]]
  | l :: rest =>
    if l.kind = .comma ∧ depth = 0 then [] :: splitItems 0 rest
    else (splitItems ((depthStep l.kind depth).getD 0) rest).modifyHead (l :: ·)

/-- The items of a list without an empty one behind the last comma. -/
def withoutEmptyLast (items : List (List Lexeme)) : List (List Lexeme) :=
  if items.getLast? = some [] then items.dropLast else items

/-- The items that are written in a parameter list, from what stands between its parentheses. -/
def writtenItems (inner : List Lexeme) : List (List Lexeme) := withoutEmptyLast (splitItems 0 inner)

theorem splitItems_ne_nil (depth : Nat) (ls : List Lexeme) : splitItems depth ls ≠ [] := by
  induction ls generalizing depth with
  | nil => exact List.cons_ne_nil _ _
  | cons l rest ih =>
    rw [splitItems]
    split
    · exact List.cons_ne_nil _ _
    · intro hnil
      rw [List.modifyHead_eq_nil_iff] at hnil
      exact ih _ hnil

/-- Lexemes without a comma outside of brackets stand in one piece. -/
theorem splitItems_append {depth depth' : Nat} {u v : List Lexeme}
    (hu : depthAfter depth u = some depth') :
    splitItems depth (u ++ v) = (splitItems depth' v).modifyHead (u ++ ·) := by
  induction u generalizing depth with
  | nil =>
    obtain rfl : depth = depth' := Option.some.inj hu
    cases h : splitItems depth v with
    | nil => exact absurd h (splitItems_ne_nil _ _)
    | cons item items => simp [h]
  | cons l u ih =>
    rw [depthAfter] at hu
    obtain ⟨mid, hstep, hu⟩ := Option.bind_eq_some_iff.1 hu
    have hinside : ¬ (l.kind = .comma ∧ depth = 0) := by
      rintro ⟨hcomma, rfl⟩
      rw [hcomma] at hstep
      cases hstep
    rw [List.cons_append, splitItems, if_neg hinside, hstep, Option.getD_some, ih hu,
      List.modifyHead_modifyHead]
    rfl

theorem writtenItems_nil : writtenItems [] = [] := rfl

theorem writtenItems_singleton {u : List Lexeme} (hu : depthAfter 0 u = some 0) (hne : u ≠ []) :
    writtenItems u = [u] := by
  have hsplit : splitItems 0 u = [u] := by
    have happend := splitItems_append (v := []) hu
    rwa [List.append_nil, splitItems, List.modifyHead, List.append_nil] at happend
  rw [writtenItems, hsplit, withoutEmptyLast, if_neg]
  simpa using hne

theorem writtenItems_comma {u v : List Lexeme} {l : Lexeme} (hu : depthAfter 0 u = some 0)
    (hl : l.kind = .comma) : writtenItems (u ++ l :: v) = u :: writtenItems v := by
  have hsplit : splitItems 0 (u ++ l :: v) = u :: splitItems 0 v := by
    rw [splitItems_append hu, splitItems, if_pos ⟨hl, rfl⟩, List.modifyHead_cons, List.append_nil]
  obtain ⟨item, items, hv⟩ := List.exists_cons_of_ne_nil (splitItems_ne_nil 0 v)
  rw [writtenItems, writtenItems, hsplit, hv, withoutEmptyLast, withoutEmptyLast,
    List.getLast?_cons_cons, List.dropLast_cons_cons]
  split <;> rfl

/-! ## Items as parameters -/

/-- The marks in front of the type of a parameter, by its slot. -/
inductive Marks : List Lexeme → Slot → Prop
  | required : Marks [] .required
  | optional {mark : Lexeme} (h : mark.kind = .question) : Marks [mark] .optional
  | rest {mark : Lexeme} (h : mark.kind = .star) : Marks [mark] .rest
  | requiredKeyword {key colon : Lexeme} (hkey : key.kind.isWord = true)
      (hcolon : colon.kind = .colon) : Marks [key, colon] (.requiredKeyword key.text)
  | optionalKeyword {mark key colon : Lexeme} (hmark : mark.kind = .question)
      (hkey : key.kind.isWord = true) (hcolon : colon.kind = .colon) :
      Marks [mark, key, colon] (.optionalKeyword key.text)
  | restKeywords {mark : Lexeme} (h : mark.kind = .starStar) : Marks [mark] .restKeywords

/-- The variable name behind the type of a parameter, if there is one. -/
inductive VariableName : List Lexeme → Option String → Prop
  | missing : VariableName [] none
  | written {l : Lexeme} (h : l.kind = .lowerIdent) : VariableName [l] (some l.text)

/-- An item is read as a parameter: behind the marks of the slot the rule for types reads the type,
and behind the type stands the variable name. -/
def ParamReads (type : Parser TypeExpr) (item : List Lexeme) (p : Param) : Prop :=
  ∃ marks written name, item = marks ++ (written ++ name) ∧ Marks marks p.slot ∧
    VariableName name p.name ∧ ∃ c c' behind, type c = .ok p.type c' ∧
      c.rest = written ++ (name ++ behind) ∧ c'.rest = name ++ behind

theorem ParamReads.slot_ne_trailing {type : Parser TypeExpr} {item : List Lexeme} {p : Param}
    (h : ParamReads type item p) : p.slot ≠ .trailing := by
  obtain ⟨marks, written, name, -, hmarks, -⟩ := h
  intro hslot
  rw [hslot] at hmarks
  cases hmarks

theorem slot_ne_trailing_of_reads {type : Parser TypeExpr} {items : List (List Lexeme)}
    {ps : List Param} (h : List.Forall₂ (ParamReads type) items ps) :
    ∀ p ∈ ps, p.slot ≠ .trailing := by
  induction h with
  | nil => exact fun _ hp => absurd hp List.not_mem_nil
  | cons hreads _ ih => exact List.forall_mem_cons.2 ⟨hreads.slot_ne_trailing, ih⟩

namespace Parser

/-! ## One parameter -/

/-- What is expected is taken. -/
theorem exists_of_expect_eq_ok {kind : TokenKind} {what : String} {c c' : Cursor}
    {range : TextRange} (h : expect kind what c = .ok range c') :
    ∃ l, c.rest = l :: c'.rest ∧ l.kind = kind := by
  rw [expect] at h
  obtain ⟨found, c₁, hat, h⟩ := exists_of_bind_eq_ok h
  obtain ⟨hfound, rfl⟩ := EStateM.Result.ok.inj hat
  cases found with
  | false =>
    have hstops : Yields (unexpected what : Parser TextRange) fun _ => False := .unexpected what
    exact (hstops _ _ _ h).elim
  | true =>
    obtain ⟨range', c₂, hrange, h⟩ := exists_of_bind_eq_ok h
    cases hrange
    obtain ⟨text, c₃, hbump, h⟩ := exists_of_bind_eq_ok h
    cases h
    obtain ⟨l, hrest, -⟩ := exists_of_bump_eq_ok hbump
    have hkind : kindOf c.rest 0 = kind := beq_iff_eq.1 hfound
    change c.rest = l :: c'.rest at hrest
    rw [hrest] at hkind
    exact ⟨l, hrest, hkind⟩

/-- A lexeme is taken if it is of the kind, and nothing otherwise. -/
theorem cases_of_eat_eq_ok {kind : TokenKind} {c c' : Cursor} {found : Bool}
    (h : eat kind c = .ok found c') :
    (found = true ∧ ∃ l, c.rest = l :: c'.rest ∧ l.kind = kind) ∨
      (found = false ∧ c'.rest = c.rest ∧ kindOf c.rest 0 ≠ kind) := by
  rw [eat] at h
  obtain ⟨isKind, c₁, hat, h⟩ := exists_of_bind_eq_ok h
  obtain ⟨hkind, rfl⟩ := EStateM.Result.ok.inj hat
  cases isKind with
  | false =>
    cases h
    exact Or.inr ⟨rfl, rfl, beq_eq_false_iff_ne.1 hkind⟩
  | true =>
    obtain ⟨text, c₂, hbump, h⟩ := exists_of_bind_eq_ok h
    cases h
    obtain ⟨l, hrest, -⟩ := exists_of_bump_eq_ok hbump
    have hfound : kindOf c.rest 0 = kind := beq_iff_eq.1 hkind
    change c.rest = l :: c'.rest at hrest
    rw [hrest] at hfound
    exact Or.inl ⟨rfl, l, hrest, hfound⟩

theorem exists_of_keywordName_eq_ok {c c' : Cursor} {key : String}
    (h : keywordName c = .ok key c') :
    ∃ l colon, c.rest = l :: colon :: c'.rest ∧ key = l.text ∧ colon.kind = .colon := by
  obtain ⟨text, c₁, hbump, h⟩ := exists_of_bind_eq_ok h
  obtain ⟨range, c₂, hexpect, h⟩ := exists_of_bind_eq_ok h
  cases h
  obtain ⟨l, hrest, htext⟩ := exists_of_bump_eq_ok hbump
  obtain ⟨colon, hrest', hcolon⟩ := exists_of_expect_eq_ok hexpect
  exact ⟨l, colon, by rw [hrest, hrest'], htext, hcolon⟩

section Params

variable {type : Parser TypeExpr}

/-- A rule takes lexemes that are read as a parameter and close what they open. -/
def ReadsItem (type : Parser TypeExpr) (c : Cursor) (p : Param) (c' : Cursor) : Prop :=
  ∃ item, c.rest = item ++ c'.rest ∧ ParamReads type item p

/-- Behind its marks a parameter is a type and a variable name. -/
theorem paramOf_reads (h : Closes type) {c c₀ c' : Cursor} {p : Param} {slot : Slot}
    {marks : List Lexeme} (hmarks : Marks marks slot) (hrest : c₀.rest = marks ++ c.rest)
    (hrun : paramOf slot type c = .ok p c') : ReadsItem type c₀ p c' := by
  obtain ⟨t, c₁, htype, hrun⟩ := exists_of_bind_eq_ok hrun
  obtain ⟨written, hwritten, -⟩ := h 0 c t c₁ trivial htype
  obtain ⟨isName, c₂, hat, hrun⟩ := exists_of_bind_eq_ok hrun
  obtain ⟨hname, rfl⟩ := EStateM.Result.ok.inj hat
  cases isName with
  | false =>
    cases hrun
    refine ⟨marks ++ (written ++ []), ?_, marks, written, [], rfl, hmarks, .missing, c, c₁,
      c₁.rest, htype, hwritten, rfl⟩
    rw [hrest, hwritten, List.append_nil, List.append_assoc]
  | true =>
    obtain ⟨text, c₃, hbump, hrun⟩ := exists_of_bind_eq_ok hrun
    cases hrun
    obtain ⟨l, hl, rfl⟩ := exists_of_bump_eq_ok hbump
    change c₁.rest = l :: c'.rest at hl
    have hkind : kindOf c₁.rest 0 = .lowerIdent := beq_iff_eq.1 hname
    rw [hl] at hkind
    refine ⟨marks ++ (written ++ [l]), ?_, marks, written, [l], rfl, hmarks, .written hkind, c, c₁,
      c'.rest, htype, by rw [hwritten, hl]; rfl, hl⟩
    rw [hrest, hwritten, hl, List.append_assoc, List.append_assoc]
    rfl

/-- Where an optional keyword is found, its name and a colon follow the mark. -/
theorem isOptionalKeyword_eq (c : Cursor) : ∃ c₁, c₁.rest = c.rest ∧ isOptionalKeyword c =
    .ok ((kindOf c.rest 1).isWord && kindOf c.rest 2 == .colon) c₁ := by
  rw [isOptionalKeyword, bind_of_ok (peek_eq 1 c)]
  cases hword : (kindOf c.rest 1).isWord with
  | false => exact ⟨looked c, rfl, rfl⟩
  | true => exact ⟨looked (looked c), rfl, rfl⟩

/-- Every parameter is read from an item. -/
theorem param_reads (h : Closes type) {c c' : Cursor} {p : Param}
    (hrun : param type c = .ok p c') : ReadsItem type c p c' := by
  -- a single mark
  have hmark : ∀ {slot : Slot} {kind : TokenKind} (c₀ : Cursor), kindOf c.rest 0 = kind →
      c₀.rest = c.rest → (∀ l : Lexeme, l.kind = kind → Marks [l] slot) →
      (do let _ ← bump; paramOf slot type : Parser Param) c₀ = .ok p c' →
      ReadsItem type c p c' := by
    intro slot kind c₀ hkind hsame hmarks hrun
    obtain ⟨text, c₂, hbump, hrun⟩ := exists_of_bind_eq_ok hrun
    obtain ⟨l, hl, -⟩ := exists_of_bump_eq_ok hbump
    rw [hsame] at hl
    rw [hl] at hkind
    exact paramOf_reads h (hmarks l hkind) (by rw [hl]; rfl) hrun
  have hplain : ∀ c₀ : Cursor, c₀.rest = c.rest → paramOf .required type c₀ = .ok p c' →
      ReadsItem type c p c' :=
    fun c₀ hsame hrun => paramOf_reads h .required (by rw [hsame]; rfl) hrun
  rw [param, look, bind_of_ok (peek_eq 0 c)] at hrun
  generalize hkind : kindOf c.rest 0 = kind at hrun
  split at hrun
  · obtain ⟨c₁, hsame, hasked⟩ := isOptionalKeyword_eq (looked c)
    rw [bind_of_ok hasked] at hrun
    split at hrun
    · rename_i hkeyword
      obtain ⟨hword, hcolon⟩ := Bool.and_eq_true_iff.1 hkeyword
      obtain ⟨text, c₂, hbump, hrun⟩ := exists_of_bind_eq_ok hrun
      obtain ⟨mark, hmarked, -⟩ := exists_of_bump_eq_ok hbump
      obtain ⟨key, c₃, hkey, hrun⟩ := exists_of_bind_eq_ok hrun
      obtain ⟨l, colon, hl, rfl, hlcolon⟩ := exists_of_keywordName_eq_ok hkey
      have hrest : c.rest = mark :: l :: colon :: c₃.rest := by
        rw [← hl, ← hmarked, hsame]
        rfl
      change (kindOf c.rest 1).isWord = true at hword
      rw [hrest] at hkind hword
      exact paramOf_reads h (.optionalKeyword hkind hword hlcolon) hrest hrun
    · exact hmark c₁ hkind hsame (fun _ => .optional) hrun
  · exact hmark (looked c) hkind rfl (fun _ => .restKeywords) hrun
  · exact hmark (looked c) hkind rfl (fun _ => .rest) hrun
  · split at hrun
    · rename_i hword
      rw [isFollowedBy, bind_assoc, bind_of_ok (peek_eq 1 _), pure_bind] at hrun
      split at hrun
      · obtain ⟨key, c₂, hkey, hrun⟩ := exists_of_bind_eq_ok hrun
        obtain ⟨l, colon, hl, rfl, hlcolon⟩ := exists_of_keywordName_eq_ok hkey
        change c.rest = _ at hl
        rw [← hkind, hl] at hword
        exact paramOf_reads h (.requiredKeyword hword hlcolon) hl hrun
      · exact hplain (looked (looked c)) rfl hrun
    · exact hplain (looked c) rfl hrun

/-! ## All parameters -/

/-- Every item is read as one parameter.  By induction on the rounds, of which each reads an item
and the comma behind it. -/
theorem separatedUntilWithin_reads (h : Closes type)
    (htakes : ∀ c t c', type c = .ok t c' → c'.rest.length < c.rest.length) (n : Nat)
    {c c' : Cursor} {written : List Param}
    (hrun : separatedUntilWithin .parenClose .comma (param type) n c = .ok written c') :
    ∃ inner, c.rest = inner ++ c'.rest ∧
      List.Forall₂ (ParamReads type) (writtenItems inner) written := by
  induction n generalizing c written with
  | zero => cases hrun
  | succ n ih =>
    obtain ⟨closes, c₁, hat, hrun⟩ := exists_of_bind_eq_ok hrun
    obtain ⟨-, rfl⟩ := EStateM.Result.ok.inj hat
    cases closes with
    | true =>
      cases hrun
      exact ⟨[], rfl, .nil⟩
    | false =>
      obtain ⟨p, c₂, hparam, hrun⟩ := exists_of_bind_eq_ok hrun
      obtain ⟨item, hitem, hreads⟩ := param_reads h hparam
      obtain ⟨u, hu, hclosed⟩ := param_moves h 0 _ p c₂ trivial hparam
      obtain rfl : u = item := List.append_cancel_right (hu.symm.trans hitem)
      have hne : u ≠ [] := by
        rintro rfl
        obtain ⟨marks, name, behind, hnil, -, -, d, d', following, htype, hd, hd'⟩ := hreads
        obtain ⟨-, hnil⟩ := List.append_eq_nil_iff.1 hnil.symm
        obtain ⟨rfl, rfl⟩ := List.append_eq_nil_iff.1 hnil
        have hlt := htakes d _ d' htype
        rw [hd, hd'] at hlt
        exact absurd hlt (Nat.lt_irrefl _)
      change c.rest = u ++ c₂.rest at hitem
      obtain ⟨comma, c₃, heat, hrun⟩ := exists_of_bind_eq_ok hrun
      rcases cases_of_eat_eq_ok heat with ⟨rfl, l, hl, hcomma⟩ | ⟨rfl, hsame, -⟩
      · obtain ⟨others, c₄, hothers, hrun⟩ := exists_of_bind_eq_ok hrun
        cases hrun
        obtain ⟨inner, hinner, hall⟩ := ih hothers
        refine ⟨u ++ l :: inner, ?_, ?_⟩
        · rw [hitem, hl, hinner, List.append_assoc]
          rfl
        · rw [writtenItems_comma hclosed hcomma]
          exact .cons hreads hall
      · cases hrun
        refine ⟨u, by rw [hitem, hsame], ?_⟩
        rw [writtenItems_singleton hclosed hne]
        exact .cons hreads .nil

end Params

/-- A type takes a lexeme. -/
theorem length_lt_of_typeExpr {vars : List String} {levels : Nat} {c c' : Cursor} {t : TypeExpr}
    (h : typeExpr vars levels c = .ok t c') : c'.rest.length < c.rest.length := by
  cases levels with
  | zero => cases h
  | succ n =>
    obtain ⟨htype, hreturn⟩ := opens_typeExpr_returnType vars (le_refl n)
    have hcut := cut_unionType (k := 0) fun _ => cut_simpleType vars htype hreturn (by decide)
    obtain ⟨c₁, hinner, rfl⟩ := exists_of_nested_eq_ok h
    have hlt : c₁.rest.length + 1 ≤ (opened c).rest.length + 0 := hcut.length_add_credit_le hinner
    exact hlt

end Parser

/-! ## Parameter lists -/

namespace Parser

/-- Where the grammar reads a parameter list, either none is written, or every item between the
parentheses is read as one parameter, with its marks, its type and its name.  The result has those
parameters that have no later rest parameter of the same kind, so it has all of them exactly if no
two are rest parameters of one kind. -/
theorem params_written {vars : List String} {levels : Nat} {c c' : Cursor} {ps : List Param}
    (h : params (typeExpr vars levels) c = .ok ps c') :
    (kindOf c.rest 0 ≠ .parenOpen ∧ c'.rest = c.rest ∧ ps = []) ∨
    ∃ opening closing inner written, opening.kind = .parenOpen ∧ closing.kind = .parenClose ∧
      c.rest = opening :: (inner ++ closing :: c'.rest) ∧ depthAfter 1 inner = some 1 ∧
      List.Forall₂ (ParamReads (typeExpr vars levels)) (writtenItems inner) written ∧
      (ps.map Param.asWritten).Perm (FunctionType.lasting written) ∧
      ((ps.map Param.asWritten).Perm written ↔ FunctionType.OneRest written) := by
  have hcloses := (typeExpr_returnType_moves vars levels).1
  obtain ⟨found, c₁, heat, h⟩ := exists_of_bind_eq_ok h
  rcases cases_of_eat_eq_ok heat with ⟨rfl, opening, hopening, hkind⟩ | ⟨rfl, hsame, hkind⟩
  · obtain ⟨written, c₂, hwritten, h⟩ := exists_of_bind_eq_ok h
    obtain ⟨range, c₃, hexpect, h⟩ := exists_of_bind_eq_ok h
    cases h
    obtain ⟨closing, hclosing, hkind'⟩ := exists_of_expect_eq_ok hexpect
    obtain ⟨inner, hinner, hall⟩ := separatedUntilWithin_reads hcloses
      (fun _ _ _ => length_lt_of_typeExpr) _ hwritten
    have hmoves : Moves anywhere 1 1
        (separatedUntil .parenClose .comma (param (typeExpr vars levels))) :=
      .separatedUntil rfl (param_moves hcloses 1)
    obtain ⟨u, hu, hdepth⟩ := hmoves c₁ written c₂ trivial hwritten
    obtain rfl : u = inner := List.append_cancel_right (hu.symm.trans hinner)
    have hslots := slot_ne_trailing_of_reads hall
    refine Or.inr ⟨opening, closing, u, written, hkind, hkind', ?_, hdepth, hall,
      FunctionType.arrange_perm_lasting_of_written hslots, FunctionType.arrange_perm_iff hslots⟩
    rw [hopening, hu, hclosing]
  · cases h
    exact Or.inl ⟨hkind, hsame, rfl⟩

/-- The lexemes between the first one and the last one of a text. -/
def innerLexemes (text : String) : List Lexeme := ((Lexeme.ofText text).drop 1).dropLast

theorem innerLexemes_eq {text : String} {opening closing : Lexeme} {inner : List Lexeme}
    (h : Lexeme.ofText text = opening :: (inner ++ [closing])) : innerLexemes text = inner := by
  rw [innerLexemes, h, List.drop_succ_cons, List.drop_zero, List.dropLast_concat]

/-- A list with a parameter for each slot, with commas inside of brackets and one at the end. -/
def mixedList : String := "(A,?B b,*[C,D],E,k: ^(A,B)->C,?l: D,**E e,)"

/-- What a rule returns passes a check, and it takes everything. -/
theorem exists_params_of_any (text : String) (p : List Param → Bool)
    (h : (match params (typeExpr [] 6) (Cursor.start 0 text none) with
      | .ok ps c => c.rest.isEmpty && p ps
      | .error _ _ => false) = true) :
    ∃ ps c', params (typeExpr [] 6) (Cursor.start 0 text none) = .ok ps c' ∧ c'.rest = [] ∧
      p ps = true := by
  cases hrun : params (typeExpr [] 6) (Cursor.start 0 text none) with
  | ok ps c =>
    rw [hrun] at h
    obtain ⟨hend, hp⟩ := Bool.and_eq_true_iff.1 h
    exact ⟨ps, c, rfl, List.isEmpty_iff.1 hend, hp⟩
  | error _ _ =>
    rw [hrun] at h
    cases h

set_option maxRecDepth 100000 in
/-- All seven items of the list are parameters of the result. -/
theorem params_written_mixed : ∃ ps c' written,
    params (typeExpr [] 6) (Cursor.start 0 mixedList none) = .ok ps c' ∧ ps.length = 7 ∧
    List.Forall₂ (ParamReads (typeExpr [] 6)) (writtenItems (innerLexemes mixedList)) written ∧
    (ps.map Param.asWritten).Perm written := by
  obtain ⟨ps, c', hrun, hend, hlength⟩ := exists_params_of_any mixedList
    (fun ps => ps.length = 7) (by decide +kernel)
  obtain ⟨hitems, hopen⟩ : (writtenItems (innerLexemes mixedList)).length = 7 ∧
      kindOf (Lexeme.ofText mixedList) 0 = .parenOpen := by
    decide +kernel
  rcases params_written hrun with ⟨hmissing, -⟩ | ⟨opening, closing, inner, written, -, -, hrest, -,
    hreads, hlasting, -⟩
  · exact absurd hopen hmissing
  · rw [hend] at hrest
    obtain rfl := innerLexemes_eq hrest
    have hall : FunctionType.lasting written = written := by
      refine (FunctionType.lasting_sublist written).eq_of_length ?_
      rw [← hlasting.length_eq, ← hreads.length_eq, hitems, List.length_map]
      exact of_decide_eq_true hlength
    exact ⟨ps, c', written, hrun, of_decide_eq_true hlength, hreads, hall ▸ hlasting⟩

set_option maxRecDepth 100000 in
/-- Two rest parameters are written and one is in the result. -/
theorem second_rest_lost : ∃ ps c',
    params (typeExpr [] 6) (Cursor.start 0 "(*Integer, *String)" none) = .ok ps c' ∧ c'.rest = [] ∧
    (writtenItems (innerLexemes "(*Integer, *String)")).length = 2 ∧ ps.length = 1 := by
  obtain ⟨ps, c', hrun, hend, hlength⟩ := exists_params_of_any "(*Integer, *String)"
    (fun ps => ps.length = 1) (by decide +kernel)
  exact ⟨ps, c', hrun, hend, by decide +kernel, of_decide_eq_true hlength⟩

end Parser

end RubySig
