import RubySig.Proofs.Parser.NameReads

/-!
# A parameter list in one of two texts

Two texts are the same but for a parameter list that only one of them has behind the name of a class
or module.  A rule of the grammar that is entered in both of them looks at the same lexemes, until
the list is reached.

* `Lexeme.face`, `faces`: all that the grammar sees of lexemes.
* `Header`: a header without a parameter list, and the list for it.
* `Header.Abreast`: what is still to be read of the two texts.
* `Header.Abreast.face_eq`, `Header.Abreast.cons`: looking and taking in both texts.
* `Stray`: a list where no rule expects one.
-/

namespace RubySig

/-! ## Lexemes without their places -/

/-- A lexeme without its place: its kind, its text and the layout in front of it. -/
abbrev Face := TokenKind × String × Bool × Bool

/-- All that the grammar sees of a lexeme, which is everything but its place. -/
def Lexeme.face (l : Lexeme) : Face :=
  (l.kind, l.text, l.spaced, l.onNewLine)

/-- Lexemes without their places. -/
def faces (ls : List Lexeme) : List Face := ls.map Lexeme.face

/-- The kind and the text of a lexeme. -/
def Lexeme.word (l : Lexeme) : Word := (l.kind, l.text)

theorem Lexeme.kind_eq_of_face {l l' : Lexeme} (h : l.face = l'.face) : l.kind = l'.kind :=
  (Prod.mk.inj h).1

theorem Lexeme.text_eq_of_face {l l' : Lexeme} (h : l.face = l'.face) : l.text = l'.text :=
  (Prod.mk.inj (Prod.mk.inj h).2).1

theorem faces_append (ls ls' : List Lexeme) : faces (ls ++ ls') = faces ls ++ faces ls' :=
  List.map_append

theorem words_eq_of_faces {ls ls' : List Lexeme} (h : faces ls = faces ls') :
    ls.map Lexeme.word = ls'.map Lexeme.word := by
  have hword : ∀ ls : List Lexeme,
      ls.map Lexeme.word = (faces ls).map fun f => (f.1, f.2.1) := fun ls => by
    rw [faces, List.map_map]
    rfl
  rw [hword, hword, h]

theorem kindOf_eq_of_face {ls ls' : List Lexeme} {n : Nat}
    (h : ls[n]?.map Lexeme.face = ls'[n]?.map Lexeme.face) : kindOf ls n = kindOf ls' n := by
  have hkind : ∀ ls : List Lexeme,
      kindOf ls n = ((ls[n]?.map Lexeme.face).map (·.1)).getD .endOfText := fun ls => by
    rw [kindOf, Option.map_map]
    rfl
  rw [hkind, hkind, h]

theorem getElem?_faces (ls : List Lexeme) (n : Nat) : (faces ls)[n]? = ls[n]?.map Lexeme.face :=
  List.getElem?_map

/-! ## A list where none is expected -/

/-- A bracket opens behind nothing but the lexemes of a name.  No rule that ends in front of a name
or of a bracket reads on. -/
def Stray : List Lexeme → Prop
  | [] => False
  | l :: ls =>
    l.kind = .bracketOpen ∨ (l.kind = .upperIdent ∨ l.kind = .doubleColon) ∧ Stray ls

/-- The kinds in front of which a stray list may be found. -/
def TokenKind.isStray : TokenKind → Bool
  | .upperIdent | .doubleColon | .bracketOpen => true
  | _ => false

theorem Stray.isStray {ls : List Lexeme} (h : Stray ls) : (kindOf ls 0).isStray = true := by
  cases ls with
  | nil => exact h.elim
  | cons l ls =>
    show l.kind.isStray = true
    rcases h with hl | ⟨hl | hl, -⟩ <;> rw [hl] <;> rfl

theorem stray_of_faces {ls ls' : List Lexeme} (h : faces ls = faces ls') (hstray : Stray ls) :
    Stray ls' := by
  induction ls generalizing ls' with
  | nil => exact hstray.elim
  | cons l ls ih =>
    cases ls' with
    | nil => cases h
    | cons l' ls' =>
      obtain ⟨hl, hls⟩ := List.cons.inj h
      rw [Stray, Lexeme.kind_eq_of_face hl] at hstray
      exact hstray.imp_right fun hname => ⟨hname.1, ih hls hname.2⟩

/-! ## A header and a list for it -/

/-- The words of a parameter list, behind its opening bracket. -/
def paramWords : List String → List Word → List Word
  | [], ws => (.bracketClose, "]") :: ws
  | [v], ws => (.upperIdent, v) :: (.bracketClose, "]") :: ws
  | v :: vs, ws => (.upperIdent, v) :: (.comma, ",") :: paramWords vs ws

/-- The beginning of a class or module without a parameter list, what stands behind it, and a list
of type parameters. -/
structure Header where
  /-- `class` or `module` -/
  key : Lexeme
  /-- The lexemes of the name. -/
  written : List Lexeme
  /-- The lexemes of the list. -/
  list : List Lexeme
  /-- What stands behind the name. -/
  rest : List Lexeme
  /-- The name. -/
  name : TypeName
  /-- The type parameters in the list. -/
  params : List String
  key_kind : key.kind = .keyword .kwClass ∨ key.kind = .keyword .kwModule
  written_words : written.map Lexeme.word = nameWords name .upperIdent []
  list_words : list.map Lexeme.word = (.bracketOpen, "[") :: paramWords params []
  params_ne : params ≠ []
  whole : kindOf rest 0 ≠ .doubleColon
  bare : kindOf rest 0 ≠ .bracketOpen

namespace Header

variable (x : Header)

/-- The text without the list, from the header on. -/
def without : List Lexeme := x.key :: (x.written ++ x.rest)

/-- The text with the list, from the header on. -/
def repeating : List Lexeme := x.key :: (x.written ++ (x.list ++ x.rest))

/-- What is still to be read of the text without the list and of the one with it.  Either both are
in front of the header, or both are behind it. -/
inductive Abreast : List Lexeme → List Lexeme → Prop
  | before (w : List Lexeme) {ls' : List Lexeme} (h : faces ls' = faces (w ++ x.repeating)) :
      Abreast (w ++ x.without) ls'
  | behind {ls ls' : List Lexeme} (h : faces ls' = faces ls) : Abreast ls ls'

variable {x}

theorem kind_of_mem_written {l : Lexeme} (hl : l ∈ x.written) :
    l.kind = .upperIdent ∨ l.kind = .doubleColon := by
  have hword : l.word ∈ nameWords x.name .upperIdent [] :=
    x.written_words ▸ List.mem_map_of_mem hl
  rw [nameWords, List.mem_append, List.mem_append, List.mem_flatMap, List.mem_singleton] at hword
  rcases hword with hword | ⟨segment, -, hword⟩ | hword
  · split at hword
    · exact Or.inr (Prod.mk.inj (List.mem_singleton.1 hword)).1
    · exact absurd hword List.not_mem_nil
  · rcases List.mem_pair.1 hword with hword | hword
    · exact Or.inl (Prod.mk.inj hword).1
    · exact Or.inr (Prod.mk.inj hword).1
  · exact Or.inl (Prod.mk.inj hword).1

/-- Where the name of the header is left, the list is stray. -/
theorem stray_written : Stray (x.written ++ (x.list ++ x.rest)) := by
  have hlist : Stray (x.list ++ x.rest) := by
    obtain ⟨l, ls, hlist, hl, -⟩ := List.map_eq_cons_iff.1 x.list_words
    rw [hlist]
    exact Or.inl (Prod.mk.inj hl).1
  have hnames : ∀ ls : List Lexeme,
      (∀ l ∈ ls, l.kind = .upperIdent ∨ l.kind = .doubleColon) →
        Stray (ls ++ (x.list ++ x.rest)) := by
    intro ls
    induction ls with
    | nil => exact fun _ => hlist
    | cons l ls ih =>
      intro hkinds
      obtain ⟨hl, hls⟩ := List.forall_mem_cons.1 hkinds
      exact Or.inr ⟨hl, ih hls⟩
  exact hnames x.written fun _ => kind_of_mem_written

theorem written_ne_nil : x.written ≠ [] := by
  intro hnil
  have hwords := x.written_words
  rw [hnil, nameWords] at hwords
  simp at hwords

/-! ## Looking and taking -/

namespace Abreast

variable {ls ls' : List Lexeme} (h : x.Abreast ls ls')
include h

/-- Both texts show the same lexemes up to the name in the header. -/
theorem face_eq_of_lt {n : Nat} (hn : ∀ w, ls = w ++ x.without → n < w.length + 2) :
    ls[n]?.map Lexeme.face = ls'[n]?.map Lexeme.face := by
  rw [← getElem?_faces, ← getElem?_faces]
  cases h with
  | before w h =>
    obtain ⟨l, rest, hwritten⟩ := List.exists_cons_of_ne_nil (written_ne_nil (x := x))
    have hshort : n < (faces (w ++ [x.key, l])).length := by
      rw [faces, List.length_map, List.length_append]
      exact hn w rfl
    have hsplit : ∀ more, w ++ x.key :: (x.written ++ more) = w ++ [x.key, l] ++ (rest ++ more) :=
      fun more => by rw [hwritten, List.append_assoc]; rfl
    rw [h, without, repeating, hsplit, hsplit, faces_append, faces_append _ (rest ++ (_ ++ _)),
      List.getElem?_append_left hshort, List.getElem?_append_left hshort]
  | behind h => rw [h]

/-- Both texts show the same next two lexemes. -/
theorem face_eq {n : Nat} (hn : n < 2) : ls[n]?.map Lexeme.face = ls'[n]?.map Lexeme.face :=
  h.face_eq_of_lt fun _ _ => Nat.lt_of_lt_of_le hn (Nat.le_add_left _ _)

theorem kindOf_eq {n : Nat} (hn : n < 2) : kindOf ls n = kindOf ls' n :=
  kindOf_eq_of_face (h.face_eq hn)

/-- A third lexeme is the same unless the first one is that of the header. -/
theorem kindOf_two_eq
    (hfirst : kindOf ls 0 ≠ .keyword .kwClass ∧ kindOf ls 0 ≠ .keyword .kwModule) :
    kindOf ls 2 = kindOf ls' 2 := by
  refine kindOf_eq_of_face (h.face_eq_of_lt fun w hw => ?_)
  cases w with
  | nil =>
    have hkey : kindOf ls 0 = x.key.kind := by rw [hw]; rfl
    rw [hkey] at hfirst
    exact absurd x.key_kind (not_or.2 hfirst)
  | cons l w =>
    rw [List.length_cons]
    omega

theorem isEmpty_eq : ls.isEmpty = ls'.isEmpty := by
  have hhead := h.face_eq Nat.two_pos
  cases ls <;> cases ls' <;> first | rfl | cases hhead

end Abreast

/-- Behind a lexeme that is taken in both texts they are abreast, unless it was that of the
header. -/
theorem Abreast.tail {l : Lexeme} {ls ls' : List Lexeme} (h : x.Abreast (l :: ls) ls') :
    ∃ l' rest', ls' = l' :: rest' ∧ l'.face = l.face ∧ (x.Abreast ls rest' ∨
      l :: ls = x.without ∧ faces rest' = faces (x.written ++ (x.list ++ x.rest))) := by
  generalize hfront : l :: ls = front at h
  cases h with
  | before w h =>
    cases w with
    | nil =>
      obtain ⟨l', rest', rfl, hl, hrest⟩ := List.map_eq_cons_iff.1 h
      refine ⟨l', rest', rfl, hl.trans ?_, Or.inr ⟨rfl, hrest⟩⟩
      rw [(List.cons.inj hfront).1]
    | cons k w =>
      obtain ⟨l', rest', rfl, hl, hrest⟩ := List.map_eq_cons_iff.1 h
      obtain ⟨rfl, rfl⟩ := List.cons.inj hfront
      exact ⟨l', rest', rfl, hl, Or.inl (.before w hrest)⟩
  | behind h =>
    subst hfront
    obtain ⟨l', rest', rfl, hl, hrest⟩ := List.map_eq_cons_iff.1 h
    exact ⟨l', rest', rfl, hl, Or.inl (.behind hrest)⟩

end Header

end RubySig
