import Mathlib.Data.List.Forall2
import Mathlib.Data.List.Nodup
import RubySig.Json

/-!
# JSON values up to the order of keys

An object is a finite map: it does not matter in which order its fields are written.  What two
objects with the same keys hold has to agree key by key, and a tag in front tells which keys there
are.

* `Json.Same`: two values are equal, up to the order of the keys of their objects.
* `Same.values`: objects with the same keys hold the same values.
* `Same.tag`, `Same.untagged`: objects with a tag in front.
* `Same.list_inj`, `Same.optional_inj`: lists and optional values are told apart if what is in them
  is.
-/

namespace RubySig

namespace Json

/-- Two values are equal, up to the order of the keys of their objects. -/
inductive Same : Json → Json → Prop
  | null : Same null null
  | bool (b : Bool) : Same (bool b) (bool b)
  | int (i : Int) : Same (int i) (int i)
  | string (s : String) : Same (string s) (string s)
  | array {xs ys : List Json} (items : List.Forall₂ Same xs ys) : Same (array xs) (array ys)
  | object {fs gs : List (String × Json)}
      (fields : ∀ key, Option.Rel Same (fs.lookup key) (gs.lookup key)) :
      Same (object fs) (object gs)

theorem sizeOf_lt_of_lookup {fs : List (String × Json)} {key : String} {v : Json}
    (h : fs.lookup key = some v) : sizeOf v < sizeOf fs := by
  induction fs with
  | nil => cases h
  | cons f fs ih =>
    obtain ⟨k, w⟩ := f
    rw [List.lookup_cons] at h
    split at h
    · obtain rfl := Option.some.inj h
      simp only [List.cons.sizeOf_spec, Prod.mk.sizeOf_spec]
      omega
    · have := ih h
      simp only [List.cons.sizeOf_spec]
      omega

namespace Same

theorem refl : ∀ j : Json, Same j j
  | .null => .null
  | .bool b => .bool b
  | .int i => .int i
  | .string s => .string s
  | .array xs => .array (List.forall₂_same.2 fun x hx =>
      have := List.sizeOf_lt_of_mem hx
      refl x)
  | .object fs => .object fun key => by
      cases h : fs.lookup key with
      | none => exact .none
      | some v =>
        have := sizeOf_lt_of_lookup h
        exact .some (refl v)
  termination_by j => sizeOf j

/-! ## Parts of equal values -/

variable {xs ys : List Json} {fs gs : List (String × Json)} {key : String} {v w : Json}

theorem bool_inj {b b' : Bool} (h : Same (.bool b) (.bool b')) : b = b' := by
  cases h
  rfl

theorem int_inj {i i' : Int} (h : Same (.int i) (.int i')) : i = i' := by
  cases h
  rfl

theorem nat_inj {n n' : Nat} (h : Same (nat n) (nat n')) : n = n' := Int.ofNat.inj h.int_inj

theorem string_inj {s s' : String} (h : Same (.string s) (.string s')) : s = s' := by
  cases h
  rfl

theorem items (h : Same (.array xs) (.array ys)) : List.Forall₂ Same xs ys := by
  cases h
  assumption

theorem field (h : Same (.object fs) (.object gs)) (key : String) :
    Option.Rel Same (fs.lookup key) (gs.lookup key) := by
  cases h with
  | object fields => exact fields key

theorem head (h : Same (.object ((key, v) :: fs)) (.object ((key, w) :: gs))) : Same v w := by
  have hfield := h.field key
  rw [List.lookup_cons_self, List.lookup_cons_self] at hfield
  cases hfield
  assumption

/-- The words of a tag agree. -/
theorem tag {a b : String}
    (h : Same (.object ((key, .string a) :: fs)) (.object ((key, .string b) :: gs))) : a = b :=
  h.head.string_inj

/-- A field in front may be left out if its key does not come again. -/
theorem untagged (h : Same (.object ((key, v) :: fs)) (.object ((key, w) :: gs)))
    (hfs : fs.lookup key = none) (hgs : gs.lookup key = none) : Same (.object fs) (.object gs) := by
  refine .object fun other => ?_
  by_cases hother : other = key
  · rw [hother, hfs, hgs]
    exact .none
  · have hfield := h.field other
    rw [List.lookup_cons, List.lookup_cons, beq_eq_false_iff_ne.2 hother] at hfield
    exact hfield

/-- Objects with one field each have the same key. -/
theorem only_key {key' : String} (h : Same (.object [(key, v)]) (.object [(key', w)])) :
    key = key' := by
  by_contra hne
  have hfield := h.field key
  rw [List.lookup_cons_self, List.lookup_cons, beq_eq_false_iff_ne.2 hne] at hfield
  cases hfield

theorem lookup_eq_none_of_notMem (h : key ∉ fs.map (·.1)) : fs.lookup key = none := by
  refine List.lookup_eq_none_iff.2 fun f hf => bne_iff_ne.2 ?_
  rintro rfl
  exact h (List.mem_map_of_mem hf)

/-- Objects with the same keys in the same order hold the same values. -/
theorem values (keys : List String) (h : Same (.object fs) (.object gs))
    (hfs : fs.map (·.1) = keys) (hgs : gs.map (·.1) = keys) (hnodup : keys.Nodup) :
    List.Forall₂ Same (fs.map (·.2)) (gs.map (·.2)) := by
  induction keys generalizing fs gs with
  | nil =>
    obtain rfl := List.map_eq_nil_iff.1 hfs
    obtain rfl := List.map_eq_nil_iff.1 hgs
    exact .nil
  | cons key keys ih =>
    obtain ⟨⟨k, v⟩, front, rfl, hk, hfront⟩ := List.map_eq_cons_iff.1 hfs
    obtain ⟨⟨k', w⟩, front', rfl, hk', hfront'⟩ := List.map_eq_cons_iff.1 hgs
    obtain rfl : k = key := hk
    obtain rfl : k' = k := hk'
    obtain ⟨hfresh, hnodup⟩ := List.nodup_cons.1 hnodup
    have hrest := h.untagged (lookup_eq_none_of_notMem (hfront ▸ hfresh))
      (lookup_eq_none_of_notMem (hfront' ▸ hfresh))
    exact .cons h.head (ih hrest hfront hfront' hnodup)

/-! ## Lists and optional values -/

variable {α : Type} {encode : α → Json} {as bs : List α}

theorem eq_of_forall₂ {R : α → α → Prop} (h : List.Forall₂ R as bs)
    (heq : ∀ a ∈ as, ∀ b ∈ bs, R a b → a = b) : as = bs := by
  induction h with
  | nil => rfl
  | @cons a b as bs hab _ ih =>
    rw [heq a List.mem_cons_self b List.mem_cons_self hab,
      ih fun a ha b hb => heq a (List.mem_cons_of_mem _ ha) b (List.mem_cons_of_mem _ hb)]

theorem array_map (h : Same (.array (as.map encode)) (.array (bs.map encode))) :
    List.Forall₂ (fun a b => Same (encode a) (encode b)) as bs := by
  have hitems := h.items
  rwa [List.forall₂_map_left_iff, List.forall₂_map_right_iff] at hitems

theorem list_inj (h : Same (list encode as) (list encode bs))
    (hinj : ∀ a ∈ as, ∀ b ∈ bs, Same (encode a) (encode b) → a = b) : as = bs :=
  eq_of_forall₂ h.array_map hinj

/-- `null` stands for a missing value alone. -/
theorem optional_inj (encode : α → Json) {a b : Option α} (hnull : ∀ x, encode x ≠ .null)
    (h : Same (optional encode a) (optional encode b))
    (hinj : ∀ x ∈ a, ∀ y ∈ b, Same (encode x) (encode y) → x = y) : a = b := by
  have hleft : ∀ j, Same .null j → j = .null := by
    rintro _ ⟨⟩
    rfl
  have hright : ∀ j, Same j .null → j = .null := by
    rintro _ ⟨⟩
    rfl
  cases a with
  | none =>
    cases b with
    | none => rfl
    | some y => exact absurd (hleft _ h) (hnull y)
  | some x =>
    cases b with
    | none => exact absurd (hright _ h) (hnull x)
    | some y => rw [hinj x rfl y rfl h]

end Same

end Json

end RubySig
