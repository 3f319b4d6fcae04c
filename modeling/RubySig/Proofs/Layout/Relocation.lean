import Mathlib.Data.List.Forall2
import Mathlib.Data.List.Pairwise
import RubySig.Parser.File
import RubySig.Proofs.Layout.SameLayout
import RubySig.Proofs.Layout.Spans
import RubySig.Proofs.OrderedMap

/-!
# Relocation

The tokens of two texts correspond one by one.  A place of the first text that the grammar can
name, the start or the end of a token or an end of the text, has a place in the second text.

* `Relocation`: places and the places that they have in another text.
* `Relocation.range`, `Relocation.span`: ranges and spans in the other text.
* `Relocation.between`: the relocation that takes each token of a text to the token at the same
  place in the order of another text.
* `Relocation.between_followsTokens`, `Relocation.between_moves`: it takes tokens to tokens and
  lexemes to lexemes.
-/

namespace RubySig

/-! ## Places -/

/-- The places of a text in another one.  `start` takes a place where something starts, `stop` one
where something stops, and both keep the order of such places. -/
structure Relocation where
  /-- The number of the other text. -/
  source : SourceId
  /-- Where something starts in the other text. -/
  start : Nat → Nat
  /-- Where something stops in the other text. -/
  stop : Nat → Nat
  /-- Whether something can start at a place. -/
  Starts : Nat → Prop
  /-- Whether something can stop at a place. -/
  Stops : Nat → Prop
  order : ∀ {a b}, Starts a → Stops b → (stop b ≤ start a ↔ b ≤ a)

namespace Relocation

variable (x : Relocation)

/-- A range in the other text.  An empty range has its start only. -/
def range (r : TextRange) : TextRange :=
  if r.stop ≤ r.start then .emptyAt (x.start r.start) else ⟨x.start r.start, x.stop r.stop⟩

/-- A span in the other text. -/
def span (s : Span) : Span := ⟨x.source, x.range s.range⟩

/-- A syntax error is at another place, other stops are the same. -/
def halt : Stop → Stop
  | .syntaxError message range => .syntaxError message (x.range range)
  | stop => stop

theorem range_emptyAt (a : Nat) : x.range (.emptyAt a) = .emptyAt (x.start a) :=
  if_pos (Nat.le_refl a)

theorem range_of_lt {r : TextRange} (h : r.start < r.stop) :
    x.range r = ⟨x.start r.start, x.stop r.stop⟩ :=
  if_neg (Nat.not_le.2 h)

/-- The range from a place to the last one where something stopped, unless that is in front. -/
theorem range_max {a b : Nat} (ha : x.Starts a) (hb : x.Stops b) :
    x.range ⟨a, max b a⟩ = ⟨x.start a, max (x.stop b) (x.start a)⟩ := by
  rcases Nat.lt_or_ge a b with hlt | hle
  · have hlt' : x.start a < x.stop b := Nat.lt_of_not_le fun hle =>
      Nat.not_le.2 hlt ((x.order ha hb).1 hle)
    rw [Nat.max_eq_left (Nat.le_of_lt hlt), Nat.max_eq_left (Nat.le_of_lt hlt')]
    exact x.range_of_lt hlt
  · rw [Nat.max_eq_right hle, Nat.max_eq_right ((x.order ha hb).2 hle)]
    exact x.range_emptyAt a

/-! ## Lexemes -/

/-- A lexeme of the other text that is the same but for its place. -/
structure Moves (l l' : Lexeme) : Prop where
  kind : l'.kind = l.kind
  text : l'.text = l.text
  start : l'.range.start = x.start l.range.start
  stop : l'.range.stop = x.stop l.range.stop
  proper : l.range.start < l.range.stop
  starts : x.Starts l.range.start
  stops : x.Stops l.range.stop

variable {x} in
theorem Moves.range {l l' : Lexeme} (h : x.Moves l l') : l'.range = x.range l.range := by
  rw [x.range_of_lt h.proper, ← h.start, ← h.stop]

end Relocation

/-! ## Between two texts -/

/-- The place that is paired with a place, or another one if none is. -/
def partner (pairs : List (Nat × Nat)) (other a : Nat) : Nat :=
  ((OrderedMap.mk pairs).get? a).getD other

theorem partner_of_mem {pairs : List (Nat × Nat)} (h : (pairs.map (·.1)).Nodup) {other a b : Nat}
    (hmem : (a, b) ∈ pairs) : partner pairs other a = b := by
  rw [partner, OrderedMap.get?_of_mem_pairs (m := ⟨pairs⟩) h hmem]
  rfl

theorem partner_of_not_mem {pairs : List (Nat × Nat)} {other a : Nat}
    (h : ∀ p ∈ pairs, p.1 ≠ a) : partner pairs other a = other := by
  have hnone : (OrderedMap.mk pairs).get? a = none := by
    cases hget : (OrderedMap.mk pairs).get? a with
    | none => rfl
    | some b => exact absurd rfl (h _ (OrderedMap.mem_pairs_of_get? hget))
  rw [partner, hnone]
  rfl

/-- Pairs of ranges of two texts, in both of which they stand one behind the other. -/
structure Aligned (pairs : List (TextRange × TextRange)) : Prop where
  proper : ∀ p ∈ pairs, p.1.start < p.1.stop ∧ p.2.start < p.2.stop
  behind : pairs.Pairwise fun p q => p.1.stop ≤ q.1.start ∧ p.2.stop ≤ q.2.start

theorem Apart.zip {textEnd textEnd' : Nat} {rs rs' : List TextRange} (h : Apart textEnd rs)
    (h' : Apart textEnd' rs') : Aligned (rs.zip rs') where
  proper _ hp := ⟨h.proper _ (List.of_mem_zip hp).1, h'.proper _ (List.of_mem_zip hp).2⟩
  behind := by
    refine List.pairwise_iff_getElem.2 fun i j hi hj hlt => ?_
    rw [List.getElem_zip, List.getElem_zip]
    exact ⟨List.pairwise_iff_getElem.1 h.behind i j _ _ hlt,
      List.pairwise_iff_getElem.1 h'.behind i j _ _ hlt⟩

namespace Aligned

variable {pairs : List (TextRange × TextRange)} (h : Aligned pairs) {other : Nat}
include h

theorem partner_start {p : TextRange × TextRange} (hp : p ∈ pairs) :
    partner (pairs.map fun p => (p.1.start, p.2.start)) other p.1.start = p.2.start := by
  refine partner_of_mem ?_ (List.mem_map_of_mem hp)
  rw [List.map_map]
  refine List.pairwise_map.2 (h.behind.imp_of_mem fun hp _ hpq heq => ?_)
  exact absurd (h.proper _ hp).1 (Nat.not_lt.2 (hpq.1.trans (Nat.le_of_eq heq.symm)))

theorem partner_stop {p : TextRange × TextRange} (hp : p ∈ pairs) :
    partner (pairs.map fun p => (p.1.stop, p.2.stop)) other p.1.stop = p.2.stop := by
  refine partner_of_mem ?_ (List.mem_map_of_mem hp)
  rw [List.map_map]
  refine List.pairwise_map.2 (h.behind.imp_of_mem fun _ hq hpq heq => ?_)
  exact absurd (h.proper _ hq).1 (Nat.not_lt.2 ((Nat.le_of_eq heq.symm).trans hpq.1))

/-- One range stops in front of another one in both texts or in neither. -/
theorem stop_le_start_iff {p q : TextRange × TextRange} (hp : p ∈ pairs) (hq : q ∈ pairs) :
    p.2.stop ≤ q.2.start ↔ p.1.stop ≤ q.1.start := by
  refine List.Pairwise.forall_of_forall_of_flip
    (R := fun p q => p.2.stop ≤ q.2.start ↔ p.1.stop ≤ q.1.start) (fun p hp => ?_)
    (h.behind.imp fun hpq => iff_of_true hpq.2 hpq.1)
    (h.behind.imp_of_mem fun hp hq hpq => ?_) hp hq
  · have hproper := h.proper p hp
    exact iff_of_false (Nat.not_le.2 hproper.2) (Nat.not_le.2 hproper.1)
  · -- what stands behind does not stand in front
    have hp := h.proper _ hp
    have hq := h.proper _ hq
    refine iff_of_false ?_ ?_ <;> omega

end Aligned

/-- The ranges of the tokens of two texts, in pairs. -/
def Token.rangePairs (text text' : String) : List (TextRange × TextRange) :=
  (ranges text).zip (ranges text')

theorem Token.aligned_rangePairs (text text' : String) : Aligned (rangePairs text text') :=
  (apart_ranges text).zip (apart_ranges text')

/-- No token starts at the end of the text. -/
theorem Token.partner_textEnd (text text' : String) :
    partner ((rangePairs text text').map fun p => (p.1.start, p.2.start)) text'.utf8ByteSize
      text.utf8ByteSize = text'.utf8ByteSize := by
  refine partner_of_not_mem (List.forall_mem_map.2 fun p hp => ?_)
  have hproper := ((aligned_rangePairs text text').proper p hp).1
  exact Nat.ne_of_lt (Nat.lt_of_lt_of_le hproper
    ((apart_ranges text).inside _ (List.of_mem_zip hp).1))

/-- No token stops at the beginning of the text. -/
theorem Token.partner_zero (text text' : String) :
    partner ((rangePairs text text').map fun p => (p.1.stop, p.2.stop)) 0 0 = 0 := by
  refine partner_of_not_mem (List.forall_mem_map.2 fun p hp => ?_)
  exact Nat.ne_of_gt (Nat.zero_lt_of_lt ((aligned_rangePairs text text').proper p hp).1)

/-- Each token of a text has its place at the token of the other text that comes at the same place
in the order, and the end of the text has its place at the end of the other text. -/
def Relocation.between (source : SourceId) (text text' : String) : Relocation where
  source := source
  start := partner ((Token.rangePairs text text').map fun p => (p.1.start, p.2.start))
    text'.utf8ByteSize
  stop := partner ((Token.rangePairs text text').map fun p => (p.1.stop, p.2.stop)) 0
  Starts a := a = text.utf8ByteSize ∨ ∃ p ∈ Token.rangePairs text text', a = p.1.start
  Stops b := b = 0 ∨ ∃ p ∈ Token.rangePairs text text', b = p.1.stop
  order := by
    have haligned := Token.aligned_rangePairs text text'
    have hinside : ∀ p ∈ Token.rangePairs text text',
        p.1.stop ≤ text.utf8ByteSize ∧ p.2.stop ≤ text'.utf8ByteSize := fun p hp =>
      ⟨(Token.apart_ranges text).inside _ (List.of_mem_zip hp).1,
        (Token.apart_ranges text').inside _ (List.of_mem_zip hp).2⟩
    rintro a b (rfl | ⟨q, hq, rfl⟩) (rfl | ⟨p, hp, rfl⟩)
    · rw [Token.partner_zero, Token.partner_textEnd]
      exact iff_of_true (Nat.zero_le _) (Nat.zero_le _)
    · rw [haligned.partner_stop hp, Token.partner_textEnd]
      exact iff_of_true (hinside p hp).2 (hinside p hp).1
    · rw [Token.partner_zero]
      exact iff_of_true (Nat.zero_le _) (Nat.zero_le _)
    · rw [haligned.partner_stop hp, haligned.partner_start hq]
      exact haligned.stop_le_start_iff hp hq

namespace Relocation

variable (source : SourceId) {text text' : String}

theorem between_textEnd :
    (between source text text').start text.utf8ByteSize = text'.utf8ByteSize :=
  Token.partner_textEnd text text'

theorem between_zero : (between source text text').stop 0 = 0 := Token.partner_zero text text'

/-- What is written from the start of one token to the end of another one is taken to what is
written between the corresponding tokens, and the end of the text to the end of the other one. -/
structure FollowsTokens (x : Relocation) (text text' : String) : Prop where
  tokens : ∀ p ∈ Token.rangePairs text text', ∀ q ∈ Token.rangePairs text text',
    p.1.start < q.1.stop → x.range ⟨p.1.start, q.1.stop⟩ = ⟨p.2.start, q.2.stop⟩
  textEnd : x.range (.emptyAt text.utf8ByteSize) = .emptyAt text'.utf8ByteSize

theorem between_followsTokens : (between source text text').FollowsTokens text text' where
  tokens p hp q hq hlt := by
    have haligned := Token.aligned_rangePairs text text'
    rw [range_of_lt _ hlt]
    show TextRange.mk (partner _ _ _) (partner _ _ _) = _
    rw [haligned.partner_start hp, haligned.partner_stop hq]
  textEnd := by rw [range_emptyAt, between_textEnd]

/-- The lexemes of texts with the same layout are taken to each other. -/
theorem between_moves (h : SameLayout (Token.ofText text) (Token.ofText text')) :
    List.Forall₂ (between source text text').Moves (Lexeme.ofText text) (Lexeme.ofText text') := by
  have hranges : ∀ text : String,
      (Lexeme.ofText text).map (·.range) = Token.ranges text := fun text => by
    have hall := congrArg (List.map fun w => w.2.2)
      (Lexeme.map_collect false false (Token.ofText text))
    rwa [List.map_map, List.map_map] at hall
  have haligned := Token.aligned_rangePairs text text'
  refine List.forall₂_iff_zip.2 ⟨h.length_lexemes, fun {l l'} hmem => ?_⟩
  have hwords : (fun l : Lexeme => (l.kind, l.text)) l = (fun l => (l.kind, l.text)) l' :=
    List.forall₂_zip (map_eq_iff_forall₂.1 h.words_lexemes) hmem
  have hpair : (l.range, l'.range) ∈ Token.rangePairs text text' := by
    rw [Token.rangePairs, ← hranges, ← hranges, List.zip_map]
    exact List.mem_map_of_mem hmem
  obtain ⟨hkind, htext⟩ := Prod.mk.inj hwords
  exact ⟨hkind.symm, htext.symm, (haligned.partner_start hpair).symm,
    (haligned.partner_stop hpair).symm, (haligned.proper _ hpair).1, Or.inr ⟨_, hpair, rfl⟩,
    Or.inr ⟨_, hpair, rfl⟩⟩

end Relocation

end RubySig
