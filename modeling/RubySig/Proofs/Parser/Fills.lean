import RubySig.Proofs.Layout.WellNested
import RubySig.Proofs.Parser.BodyBlames

/-!
# What a rule fills

What a rule of the grammar returns is written between the lexemes taken before and those still to be
read.  Two offsets tell where: no lexeme left starts in front of the first one, and the last lexeme
taken ends at the second one.

* `Cursor.Stands`: a cursor in a text, with no lexeme left in front of an offset.
* `Parser.Fills`: the end that a rule reaches, and what it returns up to there.
* `Fills.pure`, `Fills.bind`, `Fills.step`, `Fills.take`: the steps from which rules are built.
* `Fills.startOffset`, `Fills.spanned`: spans.
* `InRow`, `Lies`, `Fills.separated`, `Fills.repeatedAfter`, `Fills.memberList`: repetition.
-/

namespace RubySig

/-! ## Cursors in a text -/

/-- A cursor stands in a text behind the lexemes that it has taken, and the lexemes left start at an
offset or behind it. -/
structure Cursor.Stands (source : SourceId) (text : String) (low : Nat) (c : Cursor) : Prop where
  source : c.source = source
  textEnd : c.textEnd = text.utf8ByteSize
  rest : c.rest <:+ Lexeme.ofText text
  above : ∀ l ∈ c.rest, low ≤ l.range.start
  passed : ∀ l ∈ c.rest, c.lastEnd ≤ l.range.start
  stops : 0 < c.lastEnd → Token.StopsAt text c.lastEnd

namespace Cursor.Stands

variable {source : SourceId} {text : String} {low high : Nat} {c : Cursor}

theorem range_mem (h : c.Stands source text low) {l : Lexeme} (hl : l ∈ c.rest) :
    l.range ∈ Token.ranges text := by
  rw [Token.ranges_eq]
  exact List.mem_map_of_mem (h.rest.subset hl)

theorem range_written (h : c.Stands source text low) {l : Lexeme} (hl : l ∈ c.rest) :
    l.range.Written text :=
  TextRange.written_of ⟨_, h.range_mem hl, rfl⟩ ⟨_, h.range_mem hl, rfl⟩
    ((Token.apart_ranges text).proper _ (h.range_mem hl))

/-- The last lexeme taken ends in the text. -/
theorem lastEnd_le (h : c.Stands source text low) : c.lastEnd ≤ text.utf8ByteSize := by
  rcases Nat.eq_zero_or_pos c.lastEnd with hzero | hpos
  · rw [hzero]
    exact Nat.zero_le _
  · obtain ⟨r, hr, hstop⟩ := h.stops hpos
    exact hstop ▸ (Token.apart_ranges text).inside r hr

theorem lower (h : c.Stands source text high) (hle : low ≤ high) : c.Stands source text low :=
  { h with above := fun l hl => hle.trans (h.above l hl) }

/-- The lexemes left start behind the last one taken. -/
theorem raise (h : c.Stands source text low) : c.Stands source text (max low c.lastEnd) :=
  { h with above := fun l hl => max_le (h.above l hl) (h.passed l hl) }

/-- Behind the next lexeme the cursor stands in the text, too. -/
theorem behind (h : c.Stands source text low) {l : Lexeme} {rest : List Lexeme}
    (hrest : c.rest = l :: rest) : (Parser.behind c l rest).Stands source text low where
  source := h.source
  textEnd := h.textEnd
  rest := (hrest ▸ List.suffix_cons l rest : rest <:+ c.rest).trans h.rest
  above := fun m hm => h.above m (hrest ▸ List.mem_cons_of_mem l hm)
  passed := by
    obtain ⟨taken, htaken⟩ := h.rest
    have hbehind := (Token.apart_ranges text).behind
    rw [Token.ranges_eq, ← htaken, hrest, List.map_append, List.map_cons] at hbehind
    have hfirst := (List.pairwise_cons.1 (List.pairwise_append.1 hbehind).2.1).1
    exact fun m hm => hfirst _ (List.mem_map_of_mem hm)
  stops := fun _ => ⟨l.range, h.range_mem (hrest ▸ List.mem_cons_self), rfl⟩

end Cursor.Stands

namespace Parser

/-! ## What rules do to the cursor -/

namespace Cut

variable {source : SourceId} {text : String} {low n : Nat} {α : Type} {s : Pace} {t : α → Pace}
  {p q : Parser α}

/-- Taking lexemes, the cursor stays in the text and moves on in it. -/
theorem invariant_stands (source : SourceId) (text : String) (low e : Nat) :
    Invariant fun _ c => c.Stands source text low ∧ e ≤ c.lastEnd where
  covers _ h := h
  look _ h := ⟨{ h.1 with }, h.2⟩
  take {i k c l rest} hrest h := by
    refine ⟨h.1.behind hrest, h.2.trans ?_⟩
    have hl : l ∈ c.rest := hrest ▸ List.mem_cons_self
    exact (h.1.passed l hl).trans ((h.1.range_written hl).proper.le)
  opening h := ⟨{ h.1 with }, h.2⟩
  closing _ h := ⟨{ h.1 with }, h.2⟩

/-- Once a lexeme is taken, the last one taken ends behind the offset. -/
theorem invariant_past (source : SourceId) (text : String) (low length : Nat) :
    Invariant fun _ c => c.Stands source text low ∧ c.rest.length ≤ length ∧
      (c.rest.length < length → low < c.lastEnd) where
  covers _ h := h
  look _ h := ⟨{ h.1 with }, h.2⟩
  take {i k c l rest} hrest h := by
    obtain ⟨hstands, hlength, -⟩ := h
    have hl : l ∈ c.rest := hrest ▸ List.mem_cons_self
    rw [hrest] at hlength
    exact ⟨hstands.behind hrest, (Nat.le_succ _).trans hlength,
      fun _ => (hstands.above l hl).trans_lt (hstands.range_written hl).proper⟩
  opening h := ⟨{ h.1 with }, h.2⟩
  closing _ h := ⟨{ h.1 with }, h.2⟩

theorem stands (h : Cut n s t p q) {c c' : Cursor} {a : α} (hc : c.Stands source text low)
    (hrun : q c = .ok a c') : c'.Stands source text low ∧ c.lastEnd ≤ c'.lastEnd :=
  ((invariant_stands source text low c.lastEnd).ends h ⟨hc, le_refl _⟩).2 a c' hrun

theorem past (h : Cut n s t p q) {c c' : Cursor} {a : α} (hc : c.Stands source text low)
    (hrun : q c = .ok a c') (hshort : c'.rest.length < c.rest.length) : low < c'.lastEnd :=
  (((invariant_past source text low c.rest.length).ends h
    ⟨hc, le_refl _, fun hlt => absurd hlt (Nat.lt_irrefl _)⟩).2 a c' hrun).2.2 hshort

end Cut

/-! ## Rules and what they fill -/

variable {α β : Type}

/-- A rule that is entered where no lexeme left starts in front of `low` and the last one taken ends
at `e` ends no earlier, and `after` holds of what it returns and of where it ends. -/
def Fills (source : SourceId) (text : String) (low e : Nat) (p : Parser α)
    (after : α → Nat → Prop) : Prop :=
  ∀ c a c', c.Stands source text low → c.lastEnd = e → p c = .ok a c' →
    c'.Stands source text low ∧ e ≤ c'.lastEnd ∧ after a c'.lastEnd

/-- What a rule returns is told by the range that it fills. -/
def FillsWith (source : SourceId) (text : String) (p : Parser α) (post : TextRange → α → Prop) :
    Prop :=
  ∀ low e, Fills source text low e p fun a e' => post ⟨low, e'⟩ a

/-- What lies in a range lies in every greater one. -/
structure Widens (post : TextRange → α → Prop) : Prop where
  widen : ∀ {a : α} {r s : TextRange}, post r a → r.Within s → post s a

theorem Widens.comap {post : TextRange → α → Prop} (h : Widens post) (g : β → α) :
    Widens fun range b => post range (g b) :=
  ⟨h.widen⟩

/-- A rule has taken a lexeme behind the offset where it was entered.  If a token starts there, what
is returned lies between the offset and the end. -/
def Begins (text : String) (start : Nat) (post : TextRange → α → Prop) (a : α) (e : Nat) : Prop :=
  start < e ∧ (Token.StartsAt text start → post ⟨start, e⟩ a)

namespace Fills

variable {source : SourceId} {text : String} {low e : Nat} {p : Parser α}
  {mid after : α → Nat → Prop} {result : β → Nat → Prop}

/-! ## Single steps -/

theorem pure {a : α} (h : after a e) : Fills source text low e (Pure.pure a) after := by
  rintro c b c' hc rfl ⟨⟩
  exact ⟨hc, le_refl _, h⟩

/-- A rule that returns nothing does not matter. -/
theorem stops (h : Yields p fun _ => False) : Fills source text low e p after :=
  fun c a c' _ _ hrun => (h c a c' hrun).elim

theorem throw (stop : Stop) : Fills source text low e (MonadExcept.throw stop : Parser α) after :=
  stops (.throw stop)

theorem unexpected (what : String) :
    Fills source text low e (Parser.unexpected what : Parser α) after :=
  stops (.unexpected what)

theorem bind {f : α → Parser β} (hp : Fills source text low e p mid)
    (hf : ∀ a e₁, e ≤ e₁ → mid a e₁ → Fills source text low e₁ (f a) result) :
    Fills source text low e (p >>= f) result := by
  intro c b c' hc he hrun
  obtain ⟨a, c₁, hfirst, hsecond⟩ := exists_of_bind_eq_ok hrun
  obtain ⟨hc₁, hle₁, hmid⟩ := hp c a c₁ hc he hfirst
  obtain ⟨hc', hle', hresult⟩ := hf a c₁.lastEnd hle₁ hmid c₁ b c' hc₁ rfl hsecond
  exact ⟨hc', hle₁.trans hle', hresult⟩

theorem ite {c : Prop} [Decidable c] {q : Parser α} (hp : c → Fills source text low e p after)
    (hq : ¬ c → Fills source text low e q after) :
    Fills source text low e (if c then p else q) after := by
  split
  · exact hp ‹_›
  · exact hq ‹_›

theorem mono {after' : α → Nat → Prop} (h : Fills source text low e p after)
    (himp : ∀ a e', e ≤ e' → after a e' → after' a e') : Fills source text low e p after' :=
  fun c a c' hc he hrun =>
    let ⟨hc', hle, hafter⟩ := h c a c' hc he hrun
    ⟨hc', hle, himp a c'.lastEnd hle hafter⟩

/-- The lexemes left start behind the last one taken. -/
theorem raise (h : Fills source text (max low e) e p after) : Fills source text low e p after := by
  rintro c a c' hc rfl hrun
  obtain ⟨hc', hle, hafter⟩ := h c a c' hc.raise rfl hrun
  exact ⟨hc'.lower (le_max_left _ _), hle, hafter⟩

theorem step {t : α → Pace} {f : α → Parser β} (h : Cut 0 ⟨0, 0⟩ t p p)
    (hf : ∀ a e₁, e ≤ e₁ → Fills source text low e₁ (f a) result) :
    Fills source text low e (p >>= f) result := by
  have hstands : Fills source text low e p fun _ _ => True := fun _ _ _ hc he hrun =>
    ⟨(h.stands hc hrun).1, he ▸ (h.stands hc hrun).2, trivial⟩
  exact bind hstands fun a e₁ hle _ => hf a e₁ hle

/-- Behind a step that takes a lexeme the last one taken ends behind the offset. -/
theorem take {j : Nat} {f : α → Parser β} (h : Cut 0 ⟨0, 0⟩ (fun _ => ⟨j, 1⟩) p p)
    (hf : ∀ a e₁, e ≤ e₁ → low < e₁ → Fills source text low e₁ (f a) result) :
    Fills source text low e (p >>= f) result := by
  have hpast : Fills source text low e p fun _ e₁ => low < e₁ := fun _ _ _ hc he hrun =>
    ⟨(h.stands hc hrun).1, he ▸ (h.stands hc hrun).2,
      h.past hc hrun (Nat.lt_of_succ_le (h.length_add_credit_le hrun))⟩
  exact bind hpast hf

/-- A level fills what the rule in it fills. -/
theorem nested (h : Fills source text low e p after) :
    Fills source text low e (Parser.nested p) after := by
  intro c a c' hc he hrun
  obtain ⟨c₁, hinner, rfl⟩ := exists_of_nested_eq_ok hrun
  obtain ⟨hc₁, hle, hafter⟩ := h (opened c) a c₁ { hc with } he hinner
  exact ⟨{ hc₁ with }, hle, hafter⟩

/-! ## Spans -/

theorem spanOf {range : TextRange} {f : Span → Parser β}
    (h : Fills source text low e (f ⟨source, range⟩) result) :
    Fills source text low e (Parser.spanOf range >>= f) result := by
  intro c b c' hc he hrun
  obtain ⟨span, c₁, hspan, hrun⟩ := exists_of_bind_eq_ok hrun
  cases hspan
  rw [hc.source] at hrun
  exact h c b c' hc he hrun

/-- A range goes to the end of the last lexeme taken. -/
theorem rangeFrom {start : Nat} {f : TextRange → Parser β} (hlt : start < e)
    (h : Token.StopsAt text e → Fills source text low e (f ⟨start, e⟩) result) :
    Fills source text low e (Parser.rangeFrom start >>= f) result := by
  intro c b c' hc he hrun
  obtain ⟨range, c₁, hrange, hrun⟩ := exists_of_bind_eq_ok hrun
  cases hrange
  have hstops := hc.stops (he ▸ Nat.zero_lt_of_lt hlt)
  rw [he] at hstops hrun
  rw [Nat.max_eq_left hlt.le] at hrun
  exact h hstops c b c' hc he hrun

/-- A result with a range from the offset, where a lexeme was taken. -/
theorem ranged {start : Nat} {post : TextRange → β → Prop} {g : TextRange → β} (hlt : start < e)
    (h : TextRange.Written text ⟨start, e⟩ → post ⟨start, e⟩ (g ⟨start, e⟩)) :
    Fills source text low e (do return g (← Parser.rangeFrom start)) (Begins text start post) :=
  rangeFrom hlt fun hstops => pure
    ⟨hlt, fun hstarts => h (TextRange.written_of hstarts hstops hlt)⟩

/-- A result with a span from the offset, where a lexeme was taken. -/
theorem spanned {start : Nat} {post : TextRange → β → Prop} {g : Span → β} (hlt : start < e)
    (h : Span.Written source text ⟨source, start, e⟩ → post ⟨start, e⟩ (g ⟨source, start, e⟩)) :
    Fills source text low e (do return g (← Parser.spanFrom start)) (Begins text start post) := by
  rw [Parser.spanFrom, bind_assoc]
  exact rangeFrom hlt fun hstops => spanOf <| pure
    ⟨hlt, fun hstarts => h ⟨rfl, TextRange.written_of hstarts hstops hlt⟩⟩

/-- Where a rule that takes a lexeme is entered, a lexeme starts. -/
theorem startOffset {post : TextRange → β → Prop} {f : Nat → Parser β} (hpost : Widens post)
    (h : ∀ start, Fills source text start e (f start) (Begins text start post)) :
    Fills source text low e (Parser.startOffset >>= f) fun b e' => post ⟨low, e'⟩ b := by
  intro c b c' hc he hrun
  obtain ⟨start, c₁, hstart, hrun⟩ := exists_of_bind_eq_ok hrun
  cases hrest : c.rest with
  | nil =>
    -- no lexeme can be taken any more
    obtain ⟨rfl, rfl⟩ : text.utf8ByteSize = start ∧ c = c₁ := by
      cases hstart
      rw [hrest, ← hc.textEnd]
      exact ⟨rfl, rfl⟩
    have hnone : c.Stands source text text.utf8ByteSize :=
      { hc with above := fun l hl => absurd (hrest ▸ hl) List.not_mem_nil }
    obtain ⟨hc', -, hlt, -⟩ := h _ c b c' hnone he hrun
    exact absurd hlt (Nat.not_lt.2 hc'.lastEnd_le)
  | cons l rest =>
    obtain ⟨rfl, rfl⟩ : l.range.start = start ∧ c = c₁ := by
      cases hstart
      rw [hrest]
      exact ⟨rfl, rfl⟩
    have hl : l ∈ c.rest := hrest ▸ List.mem_cons_self
    have habove : ∀ m ∈ c.rest, l.range.start ≤ m.range.start := by
      intro m hm
      rcases List.mem_cons.1 (hrest ▸ hm) with rfl | hm
      · exact le_refl _
      · exact (hc.range_written hl).proper.le.trans ((hc.behind hrest).passed m hm)
    have hnext : c.Stands source text l.range.start := { hc with above := habove }
    obtain ⟨hc', hle, -, hresult⟩ := h _ c b c' hnext he hrun
    exact ⟨hc'.lower (hc.above l hl), hle,
      hpost.widen (hresult ⟨_, hc.range_mem hl, rfl⟩) ⟨hc.above l hl, le_refl _⟩⟩

end Fills

/-! ## The next lexeme -/

/-- `Fills` for a rule in front of which the next lexeme has a range. -/
def FillsAt (source : SourceId) (text : String) (range : TextRange) (low e : Nat) (p : Parser α)
    (after : α → Nat → Prop) : Prop :=
  ∀ c a c', c.Stands source text low → c.lastEnd = e → (∀ l ∈ c.rest.head?, l.range = range) →
    p c = .ok a c' → c'.Stands source text low ∧ e ≤ c'.lastEnd ∧ after a c'.lastEnd

section Next

variable {source : SourceId} {text : String} {range : TextRange} {low e : Nat}
  {result : β → Nat → Prop}

theorem Fills.currentRange {f : TextRange → Parser β}
    (h : ∀ range, FillsAt source text range low e (f range) result) :
    Fills source text low e (Parser.currentRange >>= f) result := by
  intro c b c' hc he hrun
  obtain ⟨range, c₁, hrange, hrun⟩ := exists_of_bind_eq_ok hrun
  cases hrange
  refine h _ c b c' hc he (fun l hl => ?_) hrun
  rw [Option.mem_def.1 hl]
  rfl

/-- A question takes nothing. -/
theorem FillsAt.asks {p : Parser α} {answer : List Face → α} {f : α → Parser β} (hp : Asks p answer)
    (h : ∀ a, FillsAt source text range low e (f a) result) :
    FillsAt source text range low e (p >>= f) result := by
  intro c b c' hc he hnext hrun
  obtain ⟨d, hd, hlevel⟩ := hp c
  rw [bind_of_ok hd] at hrun
  have hd : d.Stands source text low :=
    { source := hlevel.source.trans hc.source, textEnd := hlevel.textEnd.trans hc.textEnd
      rest := hlevel.rest ▸ hc.rest, above := hlevel.rest ▸ hc.above
      passed := by rw [hlevel.rest, hlevel.lastEnd]; exact hc.passed
      stops := by rw [hlevel.lastEnd]; exact hc.stops }
  exact h _ d b c' hd (hlevel.lastEnd.trans he) (by rw [hlevel.rest]; exact hnext) hrun

/-- The lexeme that is taken is the next one. -/
theorem FillsAt.bump {f : String → Parser β}
    (h : ∀ word, range.Written text → low ≤ range.start → e ≤ range.stop →
      Fills source text low range.stop (f word) result) :
    FillsAt source text range low e (Parser.bump >>= f) result := by
  intro c b c' hc he hnext hrun
  obtain ⟨word, c₁, hbump, hrun⟩ := exists_of_bind_eq_ok hrun
  obtain ⟨l, rest, hrest, -, rfl⟩ := exists_behind_of_bump_eq_ok hbump
  obtain rfl := hnext l (by rw [hrest]; rfl)
  have hl : l ∈ c.rest := hrest ▸ List.mem_cons_self
  have hle : e ≤ l.range.stop :=
    (he ▸ hc.passed l hl).trans (hc.range_written hl).proper.le
  obtain ⟨hc', hle', hresult⟩ := h word (hc.range_written hl) (hc.above l hl) hle _ b c'
    (hc.behind hrest) rfl hrun
  exact ⟨hc', hle.trans hle', hresult⟩

end Next

/-! ## Repetition -/

/-- Results that lie in a range, one behind the other. -/
structure InRow (post : TextRange → α → Prop) (range : TextRange) (as : List α) : Prop where
  each : ∀ a ∈ as, post range a
  inOrder : as.Pairwise fun a b => ∃ m, post ⟨range.start, m⟩ a ∧ post ⟨m, range.stop⟩ b

namespace InRow

variable {post : TextRange → α → Prop} {low m e e' : Nat} {a : α} {as : List α}

theorem nil {range : TextRange} : InRow post range [] :=
  ⟨fun _ ha => absurd ha List.not_mem_nil, .nil⟩

theorem cons (hpost : Widens post) (ha : post ⟨low, e⟩ a) (hm : e ≤ m) (he : e ≤ e')
    (hlow : low ≤ m) (has : InRow post ⟨m, e'⟩ as) : InRow post ⟨low, e'⟩ (a :: as) where
  each := List.forall_mem_cons.2 ⟨hpost.widen ha ⟨le_refl low, he⟩, fun b hb =>
    hpost.widen (has.each b hb) ⟨hlow, le_refl e'⟩⟩
  inOrder := List.pairwise_cons.2
    ⟨fun b hb => ⟨m, hpost.widen ha ⟨le_refl low, hm⟩, has.each b hb⟩,
      has.inOrder.imp fun ⟨k, hb, hc⟩ => ⟨k, hpost.widen hb ⟨hlow, le_refl k⟩, hc⟩⟩

theorem widen {range outer : TextRange} (hpost : Widens post) (h : InRow post range as)
    (hrange : range.Within outer) : InRow post outer as where
  each a ha := hpost.widen (h.each a ha) hrange
  inOrder := h.inOrder.imp fun ⟨k, ha, hb⟩ => ⟨k, hpost.widen ha ⟨hrange.start, le_refl k⟩,
    hpost.widen hb ⟨le_refl k, hrange.stop⟩⟩

end InRow

/-- A result with a span that lies in a range. -/
def Lies (nested : α → Prop) (span : α → Span) (range : TextRange) (a : α) : Prop :=
  nested a ∧ (span a).range.Within range

theorem widens_lies {nested : α → Prop} {span : α → Span} : Widens (Lies nested span) :=
  ⟨fun h hrange => ⟨h.1, h.2.trans hrange⟩⟩

/-- Spans in a row are siblings in every span around them. -/
theorem InRow.siblings {nested : α → Prop} {span : α → Span} {outer : Span} {as : List α}
    (h : InRow (Lies nested span) outer.range as) : Siblings span outer as where
  within a ha := (h.each a ha).2
  inOrder := h.inOrder.imp fun ⟨_, ha, hb⟩ => ha.2.stop.trans hb.2.start

namespace Fills

variable {source : SourceId} {text : String} {p : Parser α} {post : TextRange → α → Prop}
  {separator close token : TokenKind} (hpost : Widens post) (h : FillsWith source text p post)

include hpost

/-- A repetition goes on in another round, behind what was returned in this one. -/
theorem cons {q : Parser (List α)} {low e e₁ : Nat} {a : α} (ha : post ⟨low, e⟩ a) (he : e ≤ e₁)
    (hq : FillsWith source text q (InRow post)) :
    Fills source text low e₁ (do return a :: (← q)) fun as e' => InRow post ⟨low, e'⟩ as :=
  raise <| bind (hq _ _) fun _ _ hle has =>
    pure (.cons hpost ha (he.trans (le_max_right _ _)) (he.trans hle) (le_max_left _ _) has)

theorem single {low e e₁ : Nat} {a : α} (ha : post ⟨low, e⟩ a) (he : e ≤ e₁) :
    Fills source text low e₁ (Pure.pure [a] : Parser (List α)) fun as e' =>
      InRow post ⟨low, e'⟩ as :=
  pure (.cons hpost ha (he.trans (le_max_right _ _)) he (le_max_left _ _) .nil)

include h

theorem separated : FillsWith source text (Parser.separated separator p) (InRow post) := by
  have hwithin : ∀ n, FillsWith source text (Parser.separatedWithin separator p n)
      (InRow post) := by
    intro n
    induction n with
    | zero => exact fun _ _ => throw _
    | succ n ih =>
      exact fun low e => bind (h low e) fun _ e₁ _ ha => step (cut_eaten _ (by decide))
        fun _ _ hle => ite (fun _ => cons hpost ha hle ih) fun _ => single hpost ha hle
  exact fun low e => step cut_rounds fun n _ _ => hwithin n _ _

theorem separatedUntil :
    FillsWith source text (Parser.separatedUntil close separator p) (InRow post) := by
  have hwithin : ∀ n, FillsWith source text (Parser.separatedUntilWithin close separator p n)
      (InRow post) := by
    intro n
    induction n with
    | zero => exact fun _ _ => throw _
    | succ n ih =>
      exact fun low e => step (cut_isAt _ (by decide)) fun _ e₀ _ => ite (fun _ => pure .nil)
        fun _ => bind (h low e₀) fun _ e₁ _ ha => step (cut_eaten _ (by decide)) fun _ _ hle =>
          ite (fun _ => cons hpost ha hle ih) fun _ => single hpost ha hle
  exact fun low e => step cut_rounds fun n _ _ => hwithin n _ _

theorem repeatedAfter : FillsWith source text (Parser.repeatedAfter token p) (InRow post) := by
  have hwithin : ∀ n, FillsWith source text (Parser.repeatedAfterWithin token p n)
      (InRow post) := by
    intro n
    induction n with
    | zero => exact fun _ _ => throw _
    | succ n ih =>
      exact fun low e => step (cut_eaten _ (by decide)) fun _ e₁ _ => ite
        (fun _ => bind (h low e₁) fun _ _ _ ha => cons hpost ha (le_refl _) ih)
        fun _ => pure .nil
  exact fun low e => step cut_rounds fun n _ _ => hwithin n _ _

end Fills

theorem Fills.memberList {source : SourceId} {text : String} {p : Parser Member}
    {post : TextRange → Member → Prop} (hpost : Widens post) (h : FillsWith source text p post) :
    FillsWith source text (Parser.memberList p) (InRow post) := by
  have hwithin : ∀ n, FillsWith source text (memberListWithin p n) (InRow post) := by
    intro n
    induction n with
    | zero => exact fun _ _ => throw _
    | succ n ih =>
      exact fun low e => step (cut_eaten _ (by decide)) fun _ e₁ _ => ite (fun _ => pure .nil)
        fun _ => step cut_atEnd fun _ e₂ _ => ite (fun _ => unexpected _) fun _ =>
          bind (h low e₂) fun _ _ _ ha => cons hpost ha (le_refl _) ih
  exact fun low e => step cut_rounds fun n _ _ => hwithin n _ _

end Parser

end RubySig
