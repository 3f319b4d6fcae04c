/-!
# Maps that remember the order of insertion

A finite map kept as a list of pairs, in the order in which the keys were first
inserted. Writing to a key that is already present replaces its value and leaves
the key where it is, so iteration shows each key once, at its first place.

* `OrderedMap.get?`, `OrderedMap.insert`, `OrderedMap.ofList`: the operations.
* `get?_insert_self`, `get?_insert_of_ne`: a write is seen at its key and nowhere else.
* `mem_keys_of_get?`: a key with a value is listed.
* `keys_insert`: a write keeps the keys, adding a new one at the end.
-/

namespace RubySig

/-- A finite map in insertion order. -/
structure OrderedMap (κ ν : Type) where
  /-- The entries, oldest key first. -/
  pairs : List (κ × ν)
  deriving Repr, Inhabited

namespace OrderedMap

variable {κ ν μ : Type}

/-- The map without entries. -/
def empty : OrderedMap κ ν := ⟨[]⟩

/-- The keys in insertion order. -/
def keys (m : OrderedMap κ ν) : List κ := m.pairs.map (·.1)

/-- The values, in the order of their keys. -/
def values (m : OrderedMap κ ν) : List ν := m.pairs.map (·.2)

/-- The number of keys. -/
def size (m : OrderedMap κ ν) : Nat := m.pairs.length

/-- Whether there is no entry. -/
def isEmpty (m : OrderedMap κ ν) : Bool := m.pairs.isEmpty

/-- Replaces every value and keeps the keys. -/
def mapValues (f : ν → μ) (m : OrderedMap κ ν) : OrderedMap κ μ :=
  ⟨m.pairs.map fun p => (p.1, f p.2)⟩

/-- Keeps the entries whose key satisfies `keep`. -/
def filterKeys (keep : κ → Bool) (m : OrderedMap κ ν) : OrderedMap κ ν :=
  ⟨m.pairs.filter fun p => keep p.1⟩

variable [DecidableEq κ]

/-- The value of the first pair with the given key. -/
def lookupIn (k : κ) : List (κ × ν) → Option ν
  | [] => none
  | p :: rest => if p.1 = k then some p.2 else lookupIn k rest

/-- Replaces the value at `k`, or adds the pair at the end. -/
def insertIn (k : κ) (v : ν) : List (κ × ν) → List (κ × ν)
  | [] => [(k, v)]
  | p :: rest => if p.1 = k then (k, v) :: rest else p :: insertIn k v rest

/-- The value at a key. -/
def get? (m : OrderedMap κ ν) (k : κ) : Option ν := lookupIn k m.pairs

/-- Whether a key is present. -/
def contains (m : OrderedMap κ ν) (k : κ) : Bool := (m.get? k).isSome

/-- Writes a value, at the key's old place if it has one and at the end otherwise. -/
def insert (m : OrderedMap κ ν) (k : κ) (v : ν) : OrderedMap κ ν := ⟨insertIn k v m.pairs⟩

/-- Writes pairs one after the other, so the last value of a repeated key stays, at the
key's first place. -/
def ofList (ps : List (κ × ν)) : OrderedMap κ ν :=
  ps.foldl (fun m p => m.insert p.1 p.2) empty

/-! ## What a write changes -/

@[simp]
theorem get?_empty (k : κ) : (empty : OrderedMap κ ν).get? k = none := rfl

@[simp]
theorem get?_insert_self (m : OrderedMap κ ν) (k : κ) (v : ν) : (m.insert k v).get? k = some v := by
  obtain ⟨ps⟩ := m
  show lookupIn k (insertIn k v ps) = some v
  induction ps with
  | nil => simp [insertIn, lookupIn]
  | cons p ps ih =>
    by_cases h : p.1 = k
    · simp [insertIn, lookupIn, h]
    · simp [insertIn, lookupIn, h, ih]

theorem get?_insert_of_ne (m : OrderedMap κ ν) {k j : κ} (v : ν) (h : j ≠ k) :
    (m.insert k v).get? j = m.get? j := by
  obtain ⟨ps⟩ := m
  show lookupIn j (insertIn k v ps) = lookupIn j ps
  induction ps with
  | nil => simp [insertIn, lookupIn, Ne.symm h]
  | cons p ps ih =>
    by_cases hk : p.1 = k
    · simp [insertIn, lookupIn, hk, Ne.symm h]
    · by_cases hj : p.1 = j
      · simp [insertIn, lookupIn, hj, h]
      · simp [insertIn, lookupIn, hk, hj, ih]

/-- A key with a value is listed. -/
theorem mem_keys_of_get? {m : OrderedMap κ ν} {k : κ} {v : ν} (h : m.get? k = some v) :
    k ∈ m.keys := by
  obtain ⟨ps⟩ := m
  change lookupIn k ps = some v at h
  change k ∈ ps.map (·.1)
  induction ps with
  | nil => simp [lookupIn] at h
  | cons p ps ih =>
    by_cases hp : p.1 = k
    · simp [hp]
    · simp only [lookupIn, hp, if_false] at h
      exact List.mem_cons_of_mem _ (ih h)

/-- A write keeps every key in its place; a key that is new comes last. -/
theorem keys_insert (m : OrderedMap κ ν) (k : κ) (v : ν) :
    (m.insert k v).keys = if k ∈ m.keys then m.keys else m.keys ++ [k] := by
  obtain ⟨ps⟩ := m
  show (insertIn k v ps).map (·.1) = if k ∈ ps.map (·.1) then ps.map (·.1) else ps.map (·.1) ++ [k]
  induction ps with
  | nil => simp [insertIn]
  | cons p ps ih =>
    by_cases h : p.1 = k
    · simp [insertIn, h]
    · have h' : k ≠ p.1 := fun e => h e.symm
      simp only [insertIn, h, if_false, List.map_cons, List.mem_cons, ih, h', false_or]
      split <;> simp

end OrderedMap

end RubySig
