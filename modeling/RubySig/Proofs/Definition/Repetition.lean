import RubySig.Proofs.Definition.Agreement
import RubySig.Proofs.Definition.Overloads
import RubySig.Proofs.Environment.CounterpartMerge
import RubySig.Proofs.Environment.Reopening
import RubySig.Proofs.Parser.Budgets
import RubySig.Proofs.Parser.FileLockstep
import RubySig.Proofs.Validation.Silence

/-!
# Repeated parameter lists

A class or module that is reopened may repeat its parameter list or leave it out.

* `Header.Repeats`: two texts, in the second of which the list is repeated.
* `Header.Repeats.declarations`, `Header.Repeats.placements`: what they declare corresponds.
* `Header.Repeats.means_same`: the reopening means the same, if no name stands twice in the list.
* `spelled_twice`: with a list in which a name stands twice the two are not the same.
-/

namespace RubySig

/-! ## Two texts -/

/-- The second text is the first one with the list behind the name in the header. -/
def Header.Repeats (x : Header) (text text' : String) : Prop :=
  ∃ front, Lexeme.ofText text = front ++ x.without ∧
    faces (Lexeme.ofText text') = faces (front ++ x.repeating)

theorem mem_paramWords {v : String} {params : List String} (h : v ∈ params) :
    ((.upperIdent, v) : Word) ∈ paramWords params [] := by
  induction params with
  | nil => exact absurd h List.not_mem_nil
  | cons p ps ih =>
    cases ps with
    | nil => exact List.mem_singleton.1 h ▸ List.mem_cons_self
    | cons q qs =>
      rcases List.mem_cons.1 h with rfl | h
      · exact List.mem_cons_self
      · exact List.mem_cons_of_mem _ (List.mem_cons_of_mem _ (ih h))

/-- A text without errors is read to its end. -/
theorem exists_runFile_of_parseSource {limits : Limits} {source : SourceId} {text : String}
    {declarations : List Declaration}
    (h : parseSource limits source text = .ok (declarations, [])) :
    ∃ c, runFile limits source text = .ok declarations c := by
  rw [parseSource_eq] at h
  cases hrun : runFile limits source text with
  | ok parsed c =>
    rw [hrun] at h
    obtain ⟨rfl, -⟩ := Prod.mk.inj (Except.ok.inj h)
    exact ⟨c, rfl⟩
  | error stop c =>
    rw [hrun] at h
    cases stop <;> cases h

namespace Header.Repeats

variable {x : Header} {text text' : String} (h : x.Repeats text text')
include h

/-- The type parameters in the list are written as such. -/
theorem spells : ∀ v ∈ x.params, TokenKind.upperIdent.Spells v.toList := by
  intro v hv
  obtain ⟨front, -, hfaces⟩ := h
  have hword := mem_paramWords hv
  obtain ⟨l, hl, hlv⟩ := List.mem_map.1 (x.list_words ▸ List.mem_cons_of_mem _ hword)
  have hmem : l ∈ front ++ x.repeating := List.mem_append_right _ (List.mem_cons_of_mem _
    (List.mem_append_right _ (List.mem_append_left _ hl)))
  have hseen : l.face ∈ faces (front ++ x.repeating) := List.mem_map_of_mem hmem
  rw [← hfaces] at hseen
  obtain ⟨l', hl', hface⟩ := List.mem_map.1 hseen
  obtain ⟨hkind, rfl⟩ := Prod.mk.inj hlv
  have hkind' : l'.kind = .upperIdent := (Lexeme.kind_eq_of_face hface).trans hkind
  rw [← Lexeme.text_eq_of_face hface, ← hkind']
  exact Lexeme.spells_of_mem_ofText hl' (by rw [hkind']; decide)

/-- The declarations of the two texts correspond. -/
theorem declarations {limits : Limits} {source : SourceId} {ds ds' : List Declaration}
    (hparse : parseSource limits source text = .ok (ds, []))
    (hparse' : parseSource limits source text' = .ok (ds', [])) :
    List.Forall₂ (Declaration.Corresponds x.params x.Here) ds ds' := by
  obtain ⟨c, hrun⟩ := exists_runFile_of_parseSource hparse
  obtain ⟨c', hrun'⟩ := exists_runFile_of_parseSource hparse'
  obtain ⟨front, hwithout, hrepeating⟩ := id h
  have hlinked : x.Linked (Lexeme.ofText text) (Lexeme.ofText text') :=
    ⟨fun _ => Lexeme.spells_of_mem_ofText, fun _ => Lexeme.spells_of_mem_ofText,
      hwithout ▸ .before front hrepeating⟩
  rcases Parser.file_inStep h.spells _ _ _ _ _ _ _ _ hlinked trivial hrun hrun' with
    ⟨-, hds⟩ | ⟨-, hlost⟩
  · exact hds
  · exact hlost.elim

end Header.Repeats

/-! ## Two environments -/

/-- The environment of several sources, one of which has the given declarations. -/
def environmentWith (before after : ParsedSources) (source : SourceId) (ds : List Declaration) :
    Environment :=
  (mergeSources (before ++ (source, ds) :: after)).1

/-- Two environments have the same chains and definitions, up to spans. -/
structure Environment.SameAnswers (env env' : Environment) : Prop where
  ancestors : ∀ key, mapAnswer Span.forget (Chain.mapSpans Span.forget) (env.ancestors key) =
    mapAnswer Span.forget (Chain.mapSpans Span.forget) (env'.ancestors key)
  definition : ∀ key, mapAnswer Span.forget (Definition.mapSpans Span.forget) (env.definition key) =
    mapAnswer Span.forget (Definition.mapSpans Span.forget) (env'.definition key)

/-- Less may be said of the places where the list is repeated. -/
theorem Placement.Counterpart.mono {repeated : List String} {here here' : Span → Prop}
    {p p' : Placement} (h : p.Counterpart repeated here p')
    (hhere : ∀ name f, p = .entity name f → here f.decl.nameSpan → here' f.decl.nameSpan) :
    p.Counterpart repeated here' p' := by
  cases h with
  | entity name h => exact .entity name ⟨h.nesting, h.decl.mono (hhere name _ rfl)⟩
  | global f f' => exact .global f f'

/-- What is read from a source is written in it. -/
theorem source_of_mem_placements {limits : Limits} {source : SourceId} {text : String}
    {ds : List Declaration} {errors : List Diagnostic}
    (hparse : parseSource limits source text = .ok (ds, errors)) {name : TypeName}
    {f : Fragment EntityDecl} (hf : .entity name f ∈ placements source ds) :
    f.decl.nameSpan.source = source := by
  have hmem : f ∈ (placements source ds).flatMap (Placement.fragmentsAt name) := by
    refine List.mem_flatMap.2 ⟨_, hf, ?_⟩
    rw [Placement.fragmentsAt, if_pos rfl]
    exact List.mem_singleton_self f
  exact source_of_mem_sites (Multiset.mem_of_le (sites_of_parseSource hparse)
    (Placement.site_mem_sitesOfAll hmem))

section Environments

variable {x : Header} {text text' : String} (h : x.Repeats text text') {limits : Limits}
  {source : SourceId} {ds ds' : List Declaration}
  (hparse : parseSource limits source text = .ok (ds, []))
  (hparse' : parseSource limits source text' = .ok (ds', []))
  (before after : ParsedSources)
include h hparse hparse'

/-- The two versions of the source place declarations that correspond, and the other sources place
the same ones. -/
theorem Header.Repeats.placements :
    List.Forall₂ (Placement.Counterpart x.params fun s => s.site = (source, x.start))
      ((before ++ (source, ds) :: after).flatMap fun s => RubySig.placements s.1 s.2)
      ((before ++ (source, ds') :: after).flatMap fun s => RubySig.placements s.1 s.2) := by
  have hsame : ∀ ps : List Placement, List.Forall₂
      (Placement.Counterpart x.params fun s => s.site = (source, x.start)) ps ps := fun ps =>
    List.forall₂_same.2 fun p _ => .refl p
  have hown := Declaration.Corresponds.placements (h.declarations hparse hparse') source
  rw [List.flatMap_append, List.flatMap_append, List.flatMap_cons, List.flatMap_cons]
  refine List.rel_append (hsame _) (List.rel_append ?_ (hsame _))
  refine List.forall₂_iff_zip.2 ⟨hown.length_eq, fun {p p'} hmem => ?_⟩
  refine (List.forall₂_zip hown hmem).mono fun name f hp hhere => ?_
  rw [hp] at hmem
  exact Prod.ext (source_of_mem_placements hparse (List.of_mem_zip hmem).1) hhere

variable (hread : ParsedSources.Read (before ++ (source, ds) :: after))
  (hids : ((before ++ (source, ds) :: after).map (·.1)).Nodup)
  {name : TypeName} {e : Entry} {i : Nat} {f : Fragment EntityDecl}
  (hget : (environmentWith before after source ds).get? name = some e)
  (hf : e.reopenings[i]? = some f) (hplace : f.decl.nameSpan.site = (source, x.start))
  (hlisted : ∃ g ∈ e.primary :: e.reopenings.take i, g.decl.typeParams ≠ [])
  (hcanonical : e.paramNames = x.params)
include hread hids hget hf hplace hlisted hcanonical

/-- The environments correspond before their fragments see the parameters of their entities. -/
theorem Header.Repeats.merged :
    (Merge.empty.insertAll ((before ++ (source, ds) :: after).flatMap fun s =>
        RubySig.placements s.1 s.2)).Counterpart x.params
      (Merge.empty.insertAll ((before ++ (source, ds') :: after).flatMap fun s =>
        RubySig.placements s.1 s.2)) := by
  refine Merge.Counterpart.empty.insertAll x.params_ne
    (h.placements hparse hparse' before after) fun front n g back hsplit hhere => ?_
  have hnodup := (ParsedSources.nodup_sites hread hids).1
  rw [ParsedSources.sites_eq] at hnodup
  obtain ⟨found, hfound, hparams⟩ :=
    paramNames_before hnodup hget hf hlisted hsplit (hhere.trans hplace.symm)
  exact ⟨found, hfound, hparams.trans hcanonical⟩

/-- A fragment of a class or module without a parameter list means the same as with the list
repeated, if no name stands twice in the list: its superclass and its members are the same up to
spans, and so are all chains and all definitions. -/
theorem Header.Repeats.means_same (hnodup : x.params.Nodup) :
    (∃ e' f', (environmentWith before after source ds').get? name = some e' ∧
      e'.reopenings[i]? = some f' ∧ f.decl.SameOwn Span.forget f'.decl) ∧
    (environmentWith before after source ds).SameAnswers
      (environmentWith before after source ds') := by
  have hmerged := h.merged hparse hparse' before after hread hids hget hf hplace hlisted hcanonical
  have hsame := hmerged.sameReading x.params_ne hnodup
  refine ⟨?_, hsame.sameSites.ancestors, hsame.definition⟩
  change (adoptTypeParams _).get? name = some e at hget
  rw [Environment.get?_adoptTypeParams] at hget
  obtain ⟨o, ho, rfl⟩ := Option.map_eq_some_iff.1 hget
  rcases rel_cases (hmerged name) with ⟨hnone, -⟩ | ⟨o₁, o', ho₁, ho', hentries⟩
  · rw [hnone] at ho
    cases ho
  obtain rfl : o₁ = o := Option.some.inj (ho₁.symm.trans ho)
  have hfragment : (adoptEntry o₁).fragments[i + 1]? = some f := hf
  rw [fragments_adoptEntry_eq_map, List.getElem?_map] at hfragment
  obtain ⟨g, hg, rfl⟩ := Option.map_eq_some_iff.1 hfragment
  obtain ⟨g', hg', hdecl⟩ : ∃ g', o'.fragments[i + 1]? = some g' ∧
      g.Counterpart x.params (fun _ => o₁.paramNames = x.params) g' := by
    obtain ⟨hi, rfl⟩ := List.getElem?_eq_some_iff.1 hg
    have hi' : i + 1 < o'.fragments.length := hentries.fragments.length_eq ▸ hi
    exact ⟨_, List.getElem?_eq_getElem hi', hentries.fragments.get hi hi'⟩
  refine ⟨adoptEntry o', adoptFragment o'.paramNames g', ?_, ?_, ?_⟩
  · show (adoptTypeParams _).get? name = _
    rw [Environment.get?_adoptTypeParams, ho']
    rfl
  · show (adoptEntry o').fragments[i + 1]? = _
    rw [fragments_adoptEntry_eq_map, List.getElem?_map, hg']
    rfl
  · rw [← hentries.params]
    exact hdecl.decl.sameOwn_adopt x.params_ne

end Environments

/-- A generic class. -/
def boxText : String := "class Box[T]\nend\n"

/-- A reopening of the class with the given list. -/
def reopenedText (list : String) : String := "class Box" ++ list ++ "\ndef f: () -> T\nend"

theorem kindOf_reopenedText :
    kindOf ((Lexeme.ofText (reopenedText "")).drop 2) 0 = .keyword .kwDef := by
  decide +kernel

/-- The header of the reopening, and the list for it. -/
def boxHeader : Header where
  key := ⟨.keyword .kwClass, "class", ⟨0, 5⟩, false, false⟩
  written := [⟨.upperIdent, "Box", ⟨6, 9⟩, true, false⟩]
  list :=
    [⟨.bracketOpen, "[", ⟨9, 10⟩, false, false⟩, ⟨.upperIdent, "T", ⟨10, 11⟩, false, false⟩,
      ⟨.bracketClose, "]", ⟨11, 12⟩, false, false⟩]
  rest := (Lexeme.ofText (reopenedText "")).drop 2
  name := .bare "Box"
  params := ["T"]
  key_kind := Or.inl rfl
  written_words := rfl
  list_words := rfl
  params_ne := List.cons_ne_nil _ _
  whole := by rw [kindOf_reopenedText]; decide
  bare := by rw [kindOf_reopenedText]; decide

set_option maxRecDepth 100000 in
/-- The reopening means the same with and without the list. -/
theorem box_repeated : ∃ box ds ds' e f,
    parseSource .unlimited 0 boxText = .ok (box, []) ∧
    parseSource .unlimited 1 (reopenedText "") = .ok (ds, []) ∧
    parseSource .unlimited 1 (reopenedText "[T]") = .ok (ds', []) ∧
    boxHeader.Repeats (reopenedText "") (reopenedText "[T]") ∧
    (environmentWith [(0, box)] [] 1 ds).get? (.topLevel "Box") = some e ∧
    e.reopenings[0]? = some f ∧ f.decl.nameSpan.site = (1, boxHeader.start) ∧
    e.paramNames = ["T"] ∧
    (∃ e' f', (environmentWith [(0, box)] [] 1 ds').get? (.topLevel "Box") = some e' ∧
      e'.reopenings[0]? = some f' ∧ f.decl.SameOwn Span.forget f'.decl) ∧
    (environmentWith [(0, box)] [] 1 ds).SameAnswers (environmentWith [(0, box)] [] 1 ds') := by
  have hrepeats : boxHeader.Repeats (reopenedText "") (reopenedText "[T]") :=
    ⟨[], by decide +kernel, by decide +kernel⟩
  obtain ⟨⟨ds', errors'⟩, hparse', herrors'⟩ := exists_ok_of_any
    (parseSource .unlimited 1 (reopenedText "[T]")) (fun r => r.2.isEmpty) (by decide +kernel)
  obtain ⟨⟨box, errors₀⟩, hbox, hread⟩ := exists_ok_of_any (parseSource .unlimited 0 boxText)
    (fun b => b.2.isEmpty &&
      (parseSource .unlimited 1 (reopenedText "")).toOption.any fun r => r.2.isEmpty &&
        ((environmentWith [(0, b.1)] [] 1 r.1).get? (.topLevel "Box")).any fun e : Entry =>
          decide (e.paramNames = ["T"]) && !e.primary.decl.typeParams.isEmpty &&
            e.reopenings[0]?.any fun f : Fragment EntityDecl =>
              decide (f.decl.nameSpan.site = (1, boxHeader.start)))
    (by decide +kernel)
  rw [Bool.and_eq_true, List.isEmpty_iff] at hread
  obtain ⟨rfl, hread⟩ := hread
  obtain ⟨⟨ds, errors⟩, hparse, hread⟩ := exists_ok_of_any _ _ hread
  simp only [Bool.and_eq_true, List.isEmpty_iff] at hread
  obtain ⟨rfl, hentry⟩ := hread
  obtain rfl : errors' = [] := List.isEmpty_iff.1 herrors'
  obtain ⟨e, hget, hentry⟩ := Option.any_eq_true _ _ |>.1 hentry
  simp only [Bool.and_eq_true, decide_eq_true_eq] at hentry
  obtain ⟨⟨hparams, hlisted⟩, hreopening⟩ := hentry
  obtain ⟨f, hf, hplace⟩ := Option.any_eq_true _ _ |>.1 hreopening
  have hplace := of_decide_eq_true hplace
  have hprimary : e.primary.decl.typeParams ≠ [] := fun hnone => by
    rw [hnone] at hlisted
    cases hlisted
  have hall : ParsedSources.Read [(0, box), (1, ds)] :=
    List.forall_mem_cons.2 ⟨⟨.unlimited, boxText, [], hbox⟩,
      List.forall_mem_singleton.2 ⟨.unlimited, reopenedText "", [], hparse⟩⟩
  exact ⟨box, ds, ds', e, f, hbox, hparse, hparse', hrepeats, hget, hf, hplace, hparams,
    hrepeats.means_same hparse hparse' [(0, box)] [] hall (by simp) hget hf hplace
      ⟨_, List.mem_cons_self, hprimary⟩ hparams (List.nodup_singleton _)⟩

/-! ## Names that stand twice -/

/-- A class with a name that stands twice in its parameter list, which is reopened with the given
list. -/
def trioSetup (list : String) : SessionSetup :=
  .ofFile "a.rbs"
    ("class Trio[T, T, U]\nend\n\nclass Trio" ++ list ++ "\n  def pick: () -> T\nend\n")

set_option maxRecDepth 100000 in
/-- The parameters of an entity are its list without repetitions, but the list of a fragment is
paired with them place by place.  So `T` means `U` where the list is repeated, and `T` where it is
left out. -/
theorem spelled_twice :
    (∃ s d, (trioSetup "").build = .ok s ∧ s.validate = [] ∧
      s.env.definition (instanceSide "Trio") = .ok d ∧
      d.methods.map (fun m => m.overloads.map MethodType.render) = [["() -> T"]]) ∧
    ∃ s d, (trioSetup "[T, T, U]").build = .ok s ∧ s.validate = [] ∧
      s.env.definition (instanceSide "Trio") = .ok d ∧
      d.methods.map (fun m => m.overloads.map MethodType.render) = [["() -> U"]] := by
  have hdefined : ∀ (list : String) (rendered : List (List String)),
      ((trioSetup list).build.toOption.any fun s => s.validate.isEmpty &&
        (s.env.chain [] (instanceSide "Trio")).toOption.any fun c => decide
          ((s.env.definitionOf c).methods.map (fun m => m.overloads.map MethodType.render) =
            rendered)) = true →
      ∃ s d, (trioSetup list).build = .ok s ∧ s.validate = [] ∧
        s.env.definition (instanceSide "Trio") = .ok d ∧
        d.methods.map (fun m => m.overloads.map MethodType.render) = rendered := by
    intro list rendered h
    obtain ⟨s, hbuild, hs⟩ := exists_ok_of_any _ _ h
    rw [Bool.and_eq_true, List.isEmpty_iff] at hs
    obtain ⟨c, hc, hrendered⟩ := exists_ok_of_any _ _ hs.2
    exact ⟨s, _, hbuild, hs.1, Environment.definition_eq_ok_iff.2 ⟨c, hc, rfl⟩,
      of_decide_eq_true hrendered⟩
  exact ⟨hdefined _ _ (by decide +kernel), hdefined _ _ (by decide +kernel)⟩

end RubySig
