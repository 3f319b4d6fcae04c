import RubySig.Proofs.Layout.SameLayout
import RubySig.Proofs.Parser.BodySites

/-!
# Well-nested spans

Every part of a declaration is written inside of the declaration, and what stands side by side is
written one behind the other.

* `TextRange.Written`, `Span.Written`: ranges of a text from the start of a token to the end of one.
* `Span.Within`, `Span.Precedes`, `Siblings`: how spans lie to each other.
* `Reference.WellNested`, `MethodType.WellNested`, `Member.WellNested`, `EntityDecl.WellNested`,
  `Declaration.WellNested`: the spans in references, overloads, members and declarations.
-/

namespace RubySig

/-! ## Ranges and spans -/

/-- An offset at which a token starts. -/
def Token.StartsAt (text : String) (offset : Nat) : Prop := ∃ r ∈ ranges text, r.start = offset

/-- An offset at which a token ends. -/
def Token.StopsAt (text : String) (offset : Nat) : Prop := ∃ r ∈ ranges text, r.stop = offset

/-- A range of a text that is not empty and goes from the start of a token to the end of one. -/
structure TextRange.Written (text : String) (r : TextRange) : Prop where
  starts : Token.StartsAt text r.start
  stops : Token.StopsAt text r.stop
  proper : r.start < r.stop
  inside : r.stop ≤ text.utf8ByteSize

/-- One range lies in another one. -/
structure TextRange.Within (r outer : TextRange) : Prop where
  start : outer.start ≤ r.start
  stop : r.stop ≤ outer.stop

namespace TextRange

variable {text : String} {r s t : TextRange}

theorem Within.refl (r : TextRange) : r.Within r := ⟨le_refl _, le_refl _⟩

theorem Within.trans (h : r.Within s) (h' : s.Within t) : r.Within t :=
  ⟨h'.start.trans h.start, h.stop.trans h'.stop⟩

theorem Within.later {low e e' : Nat} (h : e ≤ e') : Within ⟨low, e⟩ ⟨low, e'⟩ := ⟨le_refl _, h⟩

/-- Where a token ends is in the text. -/
theorem written_of (hstarts : Token.StartsAt text r.start) (hstops : Token.StopsAt text r.stop)
    (hproper : r.start < r.stop) : r.Written text := by
  refine ⟨hstarts, hstops, hproper, ?_⟩
  obtain ⟨s, hs, hstop⟩ := hstops
  exact hstop ▸ (Token.apart_ranges text).inside s hs

end TextRange

namespace Span

/-- A span of a source is written in its text. -/
structure Written (source : SourceId) (text : String) (s : Span) : Prop where
  source : s.source = source
  range : s.range.Written text

/-- One span lies in another one. -/
def Within (s outer : Span) : Prop := s.range.Within outer.range

/-- One span ends before another one starts. -/
def Precedes (s t : Span) : Prop := s.range.stop ≤ t.range.start

end Span

/-- What stands side by side in a span, one behind the other. -/
structure Siblings {α : Type} (span : α → Span) (outer : Span) (xs : List α) : Prop where
  within : ∀ x ∈ xs, (span x).Within outer
  inOrder : xs.Pairwise fun x y => (span x).Precedes (span y)

/-! ## References -/

/-- The references in the arguments of a name lie in its span, and those in one argument are written
in front of those in later ones. -/
structure NamedType.WellNested (t : NamedType) : Prop where
  within : ∀ r ∈ t.argReferences, r.span.Within t.span
  inOrder : t.args.Pairwise fun a b =>
    ∀ r ∈ a.references, ∀ s ∈ b.references, r.span.Precedes s.span

section WellNested

variable (source : SourceId) (text : String)

/-- A reference is written in a text, and so are its arguments inside of it. -/
structure Reference.WellNested (r : Reference) : Prop where
  written : r.span.Written source text
  args : ∀ t, r = .named t → t.WellNested

/-- References are well nested and lie in a range. -/
def ReferencesIn (outer : TextRange) (references : List Reference) : Prop :=
  ∀ r ∈ references, r.WellNested source text ∧ r.span.range.Within outer

/-! ## Overloads and members -/

/-- A type parameter is written in a text, and its bound inside of it. -/
structure TypeParam.WellNested (p : TypeParam) : Prop where
  written : p.span.Written source text
  bound : ∀ t, p.upperBound = some t → ReferencesIn source text p.span.range t.references

/-- An overload is written in a text, and its type parameters and references inside of it. -/
structure MethodType.WellNested (m : MethodType) : Prop where
  written : m.span.Written source text
  params : ∀ p ∈ m.typeParams, p.WellNested source text
  siblings : Siblings TypeParam.span m.span m.typeParams
  references : ReferencesIn source text m.span.range m.references

/-- Where a member is written. -/
def Member.span : Member → Span
  | .method m => m.span
  | .attr a => a.span
  | .methodAlias a => a.span
  | .mixin m => m.span
  | .marker m => m.span
  | .typedVar v => v.span
  | .nested d => d.span

/-- A member is written in a text, and its overloads and references inside of it.  What is inside of
a nested declaration is left out. -/
structure Member.WellNested (m : Member) : Prop where
  written : m.span.Written source text
  references : ReferencesIn source text m.span.range m.references
  overloads : ∀ d, m = .method d → ∀ o ∈ d.overloads, o.WellNested source text
  siblings : ∀ d, m = .method d → Siblings MethodType.span d.span d.overloads

/-! ## Declarations -/

/-- A declaration is written in a text, and its name, type parameters, references and members inside
of it. -/
structure EntityDecl.OwnWellNested (d : EntityDecl) : Prop where
  written : d.span.Written source text
  nameWritten : d.nameSpan.Written source text
  name : d.nameSpan.Within d.span
  params : ∀ p ∈ d.typeParams, p.WellNested source text
  paramSiblings : Siblings TypeParam.span d.span d.typeParams
  references : ReferencesIn source text d.span.range d.headerReferences
  members : ∀ m ∈ d.members, m.WellNested source text
  memberSiblings : Siblings Member.span d.span d.members

/-- The spans in a declaration and in those nested in it are well nested. -/
inductive EntityDecl.WellNested (source : SourceId) (text : String) : EntityDecl → Prop
  | node {d : EntityDecl} (own : d.OwnWellNested source text)
      (nested : ∀ e, .nested e ∈ d.members → e.WellNested source text) : d.WellNested source text

theorem EntityDecl.WellNested.own {d : EntityDecl} (h : d.WellNested source text) :
    d.OwnWellNested source text :=
  h.casesOn fun own _ => own

/-- A global variable is written in a text, and the references of its type inside of it. -/
structure GlobalDecl.WellNested (d : GlobalDecl) : Prop where
  written : d.span.Written source text
  references : ReferencesIn source text d.span.range d.type.references

/-- The spans in a declaration at the top level of a file are well nested. -/
def Declaration.WellNested : Declaration → Prop
  | .entity d => d.WellNested source text
  | .global d => d.WellNested source text

end WellNested

end RubySig
