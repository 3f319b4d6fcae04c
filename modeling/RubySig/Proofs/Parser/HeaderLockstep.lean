import RubySig.Proofs.Parser.Takes
import RubySig.Proofs.Parser.TypeLockstep

/-!
# The header in two runs

At the header the two runs do different things: one of them reads a parameter list.  Behind it both
are in front of the same lexemes again.

* `Parser.Reads.of_run`: what a rule with a step budget returns, if it returns something.
* `Parser.reads_typeParams`: the rule for parameter lists reads names in brackets.
* `Header.start`: where the name in the header starts.
* `Parser.header_inStep`: a rule that begins with such a header.
-/

namespace RubySig

/-! ## What is read -/

theorem nameWords_eq_append (name : TypeName) (kind : TokenKind) (ws : List Word) :
    nameWords name kind ws = nameWords name kind [] ++ ws := by
  rw [nameWords, nameWords]
  simp only [List.append_assoc, List.cons_append, List.nil_append]

theorem eq_of_suffix_append {α : Type} {ls w rest : List α} (h : ls <:+ w ++ rest)
    (hlength : ls.length = rest.length) : ls = rest := by
  rw [List.suffix_iff_eq_drop.1 h, List.length_append, hlength, Nat.add_sub_cancel,
    List.drop_left]

namespace Parser

/-- A rule that reads words returns nothing else with a step budget. -/
theorem Reads.of_run {α : Type} {p : Parser α} {ws left : List Word} {post : α → Prop} {n : Nat}
    {s : Pace} {t : α → Pace} (h : Reads p ws post left) (hcut : Cut n s t p p) {c d : Cursor}
    {a : α} (hws : c.words = ws) (hrun : p c = .ok a d) :
    post a ∧ d.words = left ∧ d.rest <:+ c.rest := by
  have hsuffix : d.rest <:+ c.rest := by
    have hreach := hcut.reaches c
    rw [hrun] at hreach
    exact hreach.rest
  cases hfuel : c.fuel with
  | none =>
    obtain ⟨b, d', hrun', hb, -, hleft⟩ := h.run c hfuel hws
    rw [hrun'] at hrun
    obtain ⟨rfl, rfl⟩ := EStateM.Result.ok.inj hrun
    exact ⟨hb, hleft, hsuffix⟩
  | some budget =>
    have hbudget : Cut.withFuel budget { c with fuel := none } = c := by
      rw [Cut.withFuel, ← hfuel]
    obtain ⟨b, d', hrun', hb, -, hleft⟩ := h.run { c with fuel := none } rfl hws
    have hspends := hcut.spends (c := { c with fuel := none }) rfl budget
    rw [hbudget, hrun, hrun'] at hspends
    rcases hspends with ⟨remaining, -, hlimited⟩ | ⟨-, c', hlimited⟩
    · obtain ⟨rfl, rfl⟩ := EStateM.Result.ok.inj hlimited
      exact ⟨hb, hleft, hsuffix⟩
    · cases hlimited

theorem reads_typeParam (vars : List String) (levels : Nat) (v : String) {ws : List Word}
    (hnext : kindAt ws 0 ≠ .lt) :
    Reads (typeParam true vars levels) ((.upperIdent, v) :: ws) (·.name = v) ws :=
  .step reads_startOffset fun start => .exactly (reads_eat_false nofun) (.exactly
    (.exactly reads_look (.pure rfl)) (.ifTrue (reads_isAt_true rfl) (.exactly reads_bump
      (.exactly (.ifFalse (reads_eat_false hnext) (.pure rfl))
        (.step (reads_spanFrom start) fun _ => .pure rfl)))))

/-- Names in brackets are read as type parameters. -/
theorem reads_typeParams (levels : Nat) {params : List String} (hne : params ≠ [])
    (ws : List Word) :
    Reads (typeParams true [] levels) ((.bracketOpen, "[") :: paramWords params ws)
      (fun ps => typeParamNames ps = params) ws := by
  have hwithin : ∀ (n : Nat) (vars params : List String), params ≠ [] → params.length ≤ n →
      Reads (typeParamsWithin true levels vars n) (paramWords params ws)
        (fun ps => typeParamNames ps = params) ((.bracketClose, "]") :: ws) := by
    intro n
    induction n with
    | zero =>
      intro vars params hne hn
      exact absurd (List.length_eq_zero_iff.1 (Nat.le_zero.1 hn)) hne
    | succ n ih =>
      intro vars params hne hn
      cases params with
      | nil => exact absurd rfl hne
      | cons v vs =>
        cases vs with
        | nil =>
          refine .bind (reads_typeParam vars levels v nofun) fun p hp =>
            .ifFalse (reads_eat_false nofun) (.pure ?_)
          exact congrArg (fun name => [name]) hp
        | cons v' vs =>
          refine .bind (reads_typeParam vars levels v nofun) fun p hp => .ifTrue reads_eat
            (.bind (ih (p.name :: vars) (v' :: vs) (List.cons_ne_nil _ _)
              (Nat.le_of_succ_le_succ hn)) fun ps hps => .pure ?_)
          exact congrArg₂ List.cons hp hps
  have hlength : ∀ params : List String, params.length ≤ (paramWords params ws).length := by
    intro params
    induction params with
    | nil => exact Nat.zero_le _
    | cons v vs ih =>
      cases vs with
      | nil => exact Nat.succ_le_succ (Nat.zero_le _)
      | cons v' vs =>
        show (v' :: vs).length + 1 ≤ (paramWords (v' :: vs) ws).length + 1 + 1
        omega
  exact .ifTrue reads_eat (.exactly reads_rounds (.bind
    (hwithin _ [] params hne ((hlength params).trans (Nat.le_succ _)))
    fun _ hps => .step (reads_expect _) fun _ => .pure hps))

/-- The range of a name starts at its first lexeme. -/
theorem start_of_typeName {what : String} {accept : TokenKind → Bool} {c d : Cursor} {l : Lexeme}
    {rest : List Lexeme} {r : TypeName × TextRange} (hrest : c.rest = l :: rest)
    (hrun : typeName what accept c = .ok r d) : r.2.start = l.range.start := by
  obtain ⟨start, c₁, hstart, hrun⟩ := exists_of_bind_eq_ok hrun
  obtain ⟨-, hat⟩ := startsAt_of_startOffset hstart
  have hstart : l.range.start = start := hat l (by rw [hrest]; rfl)
  obtain ⟨absolute, c₂, -, hrun⟩ := exists_of_bind_eq_ok hrun
  obtain ⟨path, c₃, -, hrun⟩ := exists_of_bind_eq_ok hrun
  obtain ⟨kind, c₄, -, hrun⟩ := exists_of_bind_eq_ok hrun
  split at hrun
  · obtain ⟨last, c₅, -, hrun⟩ := exists_of_bind_eq_ok hrun
    obtain ⟨range, c₆, hrange, hrun⟩ := exists_of_bind_eq_ok hrun
    cases hrange
    cases hrun
    exact hstart.symm
  · have hnever : Yields (unexpected what : Parser (TypeName × TextRange)) fun _ => False :=
      .unexpected what
    exact (hnever _ _ _ hrun).elim

end Parser

/-! ## The header -/

theorem paramWords_eq_append (params : List String) (ws : List Word) :
    paramWords params ws = paramWords params [] ++ ws := by
  induction params with
  | nil => rfl
  | cons v vs ih =>
    cases vs with
    | nil => rfl
    | cons v' vs =>
      show _ :: _ :: paramWords (v' :: vs) ws = _ :: _ :: (paramWords (v' :: vs) [] ++ ws)
      rw [ih]

namespace Header

variable (x : Header)

/-- Where the name in a header starts. -/
def start : Nat := (x.written.head?.map (·.range.start)).getD 0

variable {x}

theorem words_written (ls : List Lexeme) :
    (x.written ++ ls).map Lexeme.word = nameWords x.name .upperIdent (ls.map Lexeme.word) := by
  rw [List.map_append, x.written_words, nameWords_eq_append _ _ (ls.map Lexeme.word)]

theorem words_list (ls : List Lexeme) :
    (x.list ++ ls).map Lexeme.word =
      (.bracketOpen, "[") :: paramWords x.params (ls.map Lexeme.word) := by
  rw [List.map_append, x.list_words, paramWords_eq_append _ (ls.map Lexeme.word), List.cons_append]

end Header

namespace Parser

variable {x : Header} {lost pre : List Lexeme → Prop} {α β : Type} {rel : α → β → Prop}
  {what : String} {levels : Nat} {c c₁ d : Cursor} {r : TypeName × TextRange} {ps : List TypeParam}

/-- The name is read up to its end. -/
theorem name_of_header {ls : List Lexeme} (hls : kindOf ls 0 ≠ .doubleColon)
    (hc : faces c.rest = faces (x.written ++ ls)) (hname : typeName what acceptsUpper c = .ok r d) :
    r.1 = x.name ∧ d.words = ls.map Lexeme.word ∧ d.rest <:+ c.rest := by
  have hnext : kindAt (ls.map Lexeme.word) 0 ≠ .doubleColon := by
    cases ls with
    | nil => exact nofun
    | cons l ls => exact hls
  have hcut := cut_typeName (n := 0) (k := 0) (i := 0) what acceptsUpper (by decide)
  exact (reads_typeName what rfl rfl hnext).of_run hcut
    ((words_eq_of_faces hc).trans (Header.words_written ls)) hname

/-- Behind the name there is no list. -/
theorem bare_of_header (hc : c.rest = x.written ++ x.rest)
    (hname : typeName what acceptsUpper c = .ok r c₁)
    (hparams : typeParams true [] levels c₁ = .ok ps d) :
    r.1 = x.name ∧ r.2.start = x.start ∧ ps = [] ∧ d.rest = x.rest := by
  obtain ⟨hr, hwords, hsuffix⟩ := name_of_header x.whole (congrArg faces hc) hname
  have hrest : c₁.rest = x.rest := by
    refine eq_of_suffix_append (hc ▸ hsuffix) ?_
    have hlength := congrArg List.length hwords
    rwa [Cursor.words, List.length_map, List.length_map] at hlength
  obtain ⟨l, written, hwritten⟩ := List.exists_cons_of_ne_nil (Header.written_ne_nil (x := x))
  have hstart : r.2.start = x.start := by
    rw [start_of_typeName (hc.trans (congrArg (· ++ x.rest) hwritten)) hname, Header.start,
      hwritten]
    rfl
  have hbare : kindOf c₁.rest 0 ≠ .bracketOpen := hrest ▸ x.bare
  rw [typeParams, bind_of_ok (eat_of_ne hbare)] at hparams
  cases hparams
  exact ⟨hr, hstart, rfl, hrest⟩

/-- Behind the name there is the list. -/
theorem list_of_header (hc : faces c.rest = faces (x.written ++ (x.list ++ x.rest)))
    (hname : typeName what acceptsUpper c = .ok r c₁)
    (hparams : typeParams true [] levels c₁ = .ok ps d) :
    r.1 = x.name ∧ typeParamNames ps = x.params ∧ faces d.rest = faces x.rest ∧
      d.rest <:+ c.rest := by
  have hlist : kindOf (x.list ++ x.rest) 0 ≠ .doubleColon := by
    obtain ⟨l, ls, hlist, hl, -⟩ := List.map_eq_cons_iff.1 x.list_words
    rw [hlist]
    show l.kind ≠ .doubleColon
    rw [(Prod.mk.inj hl).1]
    exact nofun
  obtain ⟨hr, hwords, hsuffix⟩ := name_of_header hlist hc hname
  rw [Header.words_list] at hwords
  obtain ⟨hps, hwords, hsuffix'⟩ := (reads_typeParams levels x.params_ne _).of_run
    (cut_typeParams (i := 0) true [] le_rfl (by decide)) hwords hparams
  refine ⟨hr, hps, eq_of_suffix_append (w := faces (x.written ++ x.list)) ?_ ?_,
    hsuffix'.trans hsuffix⟩
  · rw [← faces_append, List.append_assoc, ← hc]
    exact (hsuffix'.trans hsuffix).map _
  · have hlength := congrArg List.length hwords
    rwa [Cursor.words, List.length_map, List.length_map, ← List.length_map Lexeme.face,
      ← x.rest.length_map Lexeme.face] at hlength

/-- A rule that reads the beginning of a class or module and then goes on with the name and the
parameters. -/
def headed (kind : TokenKind) (what : String) (levels : Nat)
    (f : Nat → TypeName × TextRange → List TypeParam → Parser α) : Parser α := do
  let start ← startOffset
  assertAt kind
  let _ ← bump
  let name ← typeName what acceptsUpper
  let params ← typeParams true [] levels
  f start name params

/-- Behind a header both runs are in front of the same lexemes, whether it is that with the list or
another one. -/
theorem headed_inStep {kind : TokenKind} {levels' : Nat}
    {f : Nat → TypeName × TextRange → List TypeParam → Parser α}
    {g : Nat → TypeName × TextRange → List TypeParam → Parser β}
    (hsame : ∀ s s' r r' ps ps', r.1 = r'.1 → typeParamNames ps = typeParamNames ps' →
      InStep x never anywhere (f s r ps) (g s' r' ps') rel)
    (hrepeated : ∀ s s' r r' ps', r.1 = r'.1 → r.2.start = x.start →
      typeParamNames ps' = x.params → InStep x never anywhere (f s r []) (g s' r' ps') rel) :
    InStep x never pre (headed kind what levels f) (headed kind what levels' g) rel := by
  refine .startOffset fun s s' => assertAt_inStep (.bumpOr (fun l _ => ?_) ?_)
  · refine .sure (typeName_inStep what fun _ => isKey_of_acceptsUpper) fun r r' hr => ?_
    exact .sure (typeParams_inStep (.refl []) nofun true levels levels')
      fun ps ps' hps => hsame s s' r r' ps ps' hr (names_eq_of_adoptedParam hps)
  · intro _ c c' a b d d' hproper hproper' hc hc' hrun hrun'
    obtain ⟨r, c₁, hname, hrun⟩ := exists_of_bind_eq_ok hrun
    obtain ⟨ps, c₂, hparams, hrun⟩ := exists_of_bind_eq_ok hrun
    obtain ⟨r', c₁', hname', hrun'⟩ := exists_of_bind_eq_ok hrun'
    obtain ⟨ps', c₂', hparams', hrun'⟩ := exists_of_bind_eq_ok hrun'
    obtain ⟨hr, hstart, rfl, hrest⟩ := bare_of_header hc hname hparams
    obtain ⟨hr', hps', hrest', hsuffix⟩ := list_of_header hc' hname' hparams'
    refine hrepeated s s' r r' ps' (hr.trans hr'.symm) hstart hps' c₂ c₂' a b d d' ⟨?_, ?_, ?_⟩
      trivial hrun hrun'
    · rw [hrest]
      exact fun l hl => hproper l (hc ▸ List.mem_append_right _ hl)
    · exact fun l hl => hproper' l (hsuffix.subset hl)
    · rw [hrest]
      exact .behind hrest'

end Parser

end RubySig
