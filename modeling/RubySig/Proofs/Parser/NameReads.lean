import RubySig.Proofs.Parser.Reads
import RubySig.Proofs.Parser.TypeSpelling

/-!
# Reading printed names

* `nameWords`, `words_name`: the words of a printed name.
* `Parser.reads_typeName`: the rule for names reads them.
* `Parser.reads_isAtTypeVar`: where a name is taken for a variable.
-/

namespace RubySig

/-! ## Words of names -/

theorem ne_of_isWord {kind other : TokenKind} (h : kind.isWord = true)
    (hother : other.isWord = false) : kind ≠ other := by
  rintro rfl
  rw [h] at hother
  cases hother

/-- The words of a name whose last segment is of a kind, in front of others. -/
def nameWords (name : TypeName) (kind : TokenKind) (ws : List Word) : List Word :=
  (if name.scope.absolute then [(.doubleColon, "::")] else []) ++
    (name.scope.path.flatMap (fun segment => [(.upperIdent, segment), (.doubleColon, "::")]) ++
      (kind, name.name) :: ws)

theorem words_doubleColon (rest : String) :
    words ("::" ++ rest) = (.doubleColon, "::") :: words rest :=
  words_literal "::" [.doubleColon] (by decide) rest

theorem words_path {path : List String}
    (h : ∀ segment ∈ path, TokenKind.upperIdent.Spells segment.toList) (rest : String) :
    words (String.join (path.map (· ++ "::")) ++ rest) =
      path.flatMap (fun segment => [(.upperIdent, segment), (.doubleColon, "::")]) ++
        words rest := by
  induction path with
  | nil => rw [List.map_nil, String.join_nil, String.empty_append]; rfl
  | cons segment path ih =>
    obtain ⟨hsegment, hpath⟩ := List.forall_mem_cons.1 h
    rw [List.map_cons, String.join_cons, String.append_assoc, String.append_assoc,
      words_append_of_isWord hsegment rfl (avoids_append (by decide) _), words_doubleColon,
      ih hpath]
    rfl

/-- The words of a printed name. -/
theorem words_name {accept : TokenKind → Bool} {name : TypeName} (h : name.Spelled accept)
    (haccept : ∀ kind, accept kind = true → kind.isWord = true) {rest : String}
    (hrest : Avoids inWord rest) :
    ∃ kind, accept kind = true ∧ kind.Spells name.name.toList ∧
      words (name.render ++ rest) = nameWords name kind (words rest) := by
  obtain ⟨kind, hkind, hlast⟩ := h.last
  refine ⟨kind, hkind, hlast, ?_⟩
  have htail : words (String.join (name.scope.path.map (· ++ "::")) ++ (name.name ++ rest)) =
      name.scope.path.flatMap (fun segment => [(.upperIdent, segment), (.doubleColon, "::")]) ++
        (kind, name.name) :: words rest := by
    rw [words_path h.path, words_append_of_isWord hlast (haccept kind hkind) hrest]
  rw [TypeName.render, Namespace.render, String.append_assoc, String.append_assoc, nameWords]
  split
  · rw [words_doubleColon, htail]
    rfl
  · rw [String.empty_append, htail]
    rfl

namespace Parser

/-! ## The rule for names -/

theorem reads_enclosingSegments {path : List String} {ws : List Word}
    (h : ¬ (kindAt ws 0 = .upperIdent ∧ kindAt ws 1 = .doubleColon)) :
    Reads enclosingSegments
      (path.flatMap (fun segment => [(.upperIdent, segment), (.doubleColon, "::")]) ++ ws)
      (· = path) ws := by
  have hwithin : ∀ n, path.length < n → Reads (enclosingSegmentsWithin n)
      (path.flatMap (fun segment => [(.upperIdent, segment), (.doubleColon, "::")]) ++ ws)
      (· = path) ws := by
    induction path with
    | nil =>
      intro n hn
      obtain ⟨n, rfl⟩ := Nat.exists_eq_succ_of_ne_zero (Nat.ne_of_gt hn)
      refine .ifFalse ((reads_isAtPair .upperIdent .doubleColon).mono fun b hb => ?_) (.pure rfl)
      rw [hb, Bool.and_eq_false_iff, beq_eq_false_iff_ne, beq_eq_false_iff_ne]
      exact not_and_or.1 h
    | cons segment path ih =>
      intro n hn
      obtain ⟨n, rfl⟩ := Nat.exists_eq_succ_of_ne_zero (Nat.ne_of_gt (Nat.zero_lt_of_lt hn))
      refine .ifTrue ((reads_isAtPair .upperIdent .doubleColon).mono fun _ hb => hb) ?_
      exact .exactly reads_bump (.exactly reads_bump
        (.exactly (ih n (Nat.lt_of_succ_lt_succ hn)) (.pure rfl)))
  refine .exactly reads_rounds (hwithin _ ?_)
  rw [List.length_append, List.length_flatMap]
  simp only [List.length_cons, List.length_nil, List.map_const', List.sum_replicate_nat]
  omega

theorem reads_typeName {accept : TokenKind → Bool} {name : TypeName} {kind : TokenKind}
    {ws : List Word} (what : String) (hkind : accept kind = true) (hword : kind.isWord = true)
    (hnext : kindAt ws 0 ≠ .doubleColon) :
    Reads (typeName what accept) (nameWords name kind ws) (fun r => r.1 = name) ws := by
  obtain ⟨⟨path, absolute⟩, last⟩ := name
  have hanchor : Reads (eat .doubleColon) (nameWords ⟨⟨path, absolute⟩, last⟩ kind ws)
      (· = absolute)
      (path.flatMap (fun segment => [(.upperIdent, segment), (.doubleColon, "::")]) ++
        (kind, last) :: ws) := by
    cases absolute with
    | true => exact reads_eat
    | false =>
      refine reads_eat_false ?_
      cases path with
      | nil => exact ne_of_isWord hword rfl
      | cons segment path => exact nofun
  refine .step reads_startOffset fun start => .exactly hanchor
    (.exactly (reads_enclosingSegments fun hpair => hnext hpair.2) (.exactly reads_look ?_))
  show Reads (if accept kind = true then _ else _) _ _ _
  rw [if_pos hkind]
  exact .exactly reads_bump (.step (reads_rangeFrom start) fun _ => .pure rfl)

/-! ## Variables -/

/-- A name is taken for a variable if it is one and no enclosing segment. -/
theorem reads_isAtTypeVar (vars : List String) {kind : TokenKind} {text : String}
    {ws : List Word} :
    Reads (isAtTypeVar vars) ((kind, text) :: ws)
      (· = (!(kindAt ws 0 == .doubleColon) && vars.contains text)) ((kind, text) :: ws) := by
  refine ⟨List.suffix_refl _, fun c hfuel hws => ⟨_, looked c, isAtTypeVar_eq vars c, ?_, hfuel,
    hws⟩⟩
  obtain ⟨l, rest, hrest, hl, -⟩ := List.map_eq_cons_iff.1 hws
  obtain ⟨-, rfl⟩ := Prod.mk.inj hl
  rw [kindOf_eq_kindAt, hws, hrest]
  rfl

end Parser

end RubySig
