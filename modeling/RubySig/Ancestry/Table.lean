import RubySig.Ancestry

/-!
# Remembered chains

A session asks for many chains that share their parts. An `AncestryTable` remembers every
chain that was built. Before a chain is built, those that it is made of are built from an
explicit stack, deepest first, so that building it finds each of them in the table.

* `AncestryTable.cachedChain`: the recursion of `Environment.chain` over a table.
* `Prepass`: the stack and its steps.
* `AncestryTable.ask`: answers one question, `AncestryTable.askAll` several in turn.
* `Environment.ancestors`: answers one question on a fresh table.
-/

namespace RubySig

/-- The chains built so far. -/
structure AncestryTable where
  /-- The chains by their keys. -/
  chains : OrderedMap ChainKey Chain
  deriving Repr, Inhabited

namespace AncestryTable

/-- Nothing is remembered. -/
def empty : AncestryTable := ⟨.empty⟩

/-- The remembered chain of a key. -/
def get? (t : AncestryTable) (key : ChainKey) : Option Chain := t.chains.get? key

/-- Whether the chain of a key is remembered. -/
def knows (t : AncestryTable) (key : ChainKey) : Bool := (t.get? key).isSome

/-- Remembers a chain, unless its key has one. -/
def remember (t : AncestryTable) (key : ChainKey) (chain : Chain) : AncestryTable :=
  if t.knows key then t else ⟨t.chains.insert key chain⟩

end AncestryTable

/-- A computation that may fail and in any case leaves a table behind. -/
abbrev TableM (α : Type) := ExceptT Failure (StateM AncestryTable) α

namespace AncestryTable

variable (env : Environment)

/-- The chain of a key. Chains that the table knows are taken from it, and all others are
remembered. -/
def cachedChain (path : List ChainKey) (key : ChainKey) : TableM Chain :=
  if key ∈ path then throw (env.cycle path key)
  else do
    match (← get).get? key with
    | some chain => return chain
    | none =>
      match _ : env.get? key.name with
      | none => throw (.unknownType key.name)
      | some e =>
        match env.entryBlueprint e key.context with
        | .error failure => throw failure
        | .ok b =>
          let entries ← b.assemble fun dependency => cachedChain (path ++ [key]) dependency
          let chain : Chain := ⟨key.name, key.context, entries⟩
          modify (·.remember key chain)
          return chain
  termination_by (env.keysOff path).length
  decreasing_by
    exact env.keysOff_append_lt (by assumption) (by assumption)

end AncestryTable

/-! ## The explicit stack -/

/-- A chain that waits for those it is made of. -/
structure Frame where
  /-- The chain. -/
  key : ChainKey
  /-- The chains that it still waits for. -/
  pending : List ChainKey
  deriving Repr, Inhabited, DecidableEq

/-- The stack, innermost frame first, and the table. -/
structure Prepass where
  /-- The frames. -/
  frames : List Frame
  /-- The chains built so far. -/
  table : AncestryTable
  deriving Repr, Inhabited

namespace Prepass

variable (env : Environment)

/-- A frame for a chain that waits for everything it is made of. -/
def frameFor (key : ChainKey) : Frame := ⟨key, env.dependencies key⟩

/-- One step on a stack that is not empty. A frame that waits for nothing is built and
removed. Otherwise its next dependency is looked at: on the stack it closes a cycle, in the
table it is done, and else it gets a frame of its own. -/
def step (frame : Frame) (below : List Frame) (table : AncestryTable) :
    Except Failure Unit × Prepass :=
  match frame.pending with
  | [] =>
    match (AncestryTable.cachedChain env [] frame.key).run.run table with
    | (.ok _, table) => (.ok (), ⟨below, table⟩)
    | (.error failure, table) => (.error failure, ⟨below, table⟩)
  | dependency :: pending =>
    let stack := ((frame :: below).map (·.key)).reverse
    let waiting : Frame := ⟨frame.key, pending⟩
    if dependency ∈ stack then
      (.error (env.cycle stack dependency), ⟨waiting :: below, table⟩)
    else if table.knows dependency then (.ok (), ⟨waiting :: below, table⟩)
    else (.ok (), ⟨frameFor env dependency :: waiting :: below, table⟩)

/-- Steps until the stack is empty or a step fails, but at most a given number of them. -/
def run (state : Prepass) : Nat → Except Failure Unit × AncestryTable
  | 0 => (.ok (), state.table)
  | n + 1 =>
    match state.frames with
    | [] => (.ok (), state.table)
    | frame :: below =>
      match step env frame below state.table with
      | (.ok _, next) => run next n
      | (.error failure, next) => (.error failure, next.table)

/-- A bound on the number of steps. Each chain is on the stack at most once, has one step for
each dependency and one for being built. An entity has two chains, and each directive in its
bodies is a dependency of at most one of them, as is the superclass or the class behind it. -/
def stepBound : Nat :=
  (env.entities.map fun e => 2 * (2 * e.memberCount + 2)).foldr (· + ·) 1

end Prepass

/-! ## Questions -/

namespace AncestryTable

variable (env : Environment)

/-- Builds the chains that the chain of a key is made of. -/
def prepare (key : ChainKey) (table : AncestryTable) : Except Failure Unit × AncestryTable :=
  if table.knows key then (.ok (), table)
  else Prepass.run env ⟨[Prepass.frameFor env key], table⟩ (Prepass.stepBound env)

/-- Answers a question for a chain. -/
def ask (table : AncestryTable) (key : ChainKey) : Except Failure Chain × AncestryTable :=
  match prepare env key table with
  | (.error failure, table) => (.error failure, table)
  | (.ok _, table) => (cachedChain env [] key).run.run table

/-- Answers questions one after the other. -/
def askAll (table : AncestryTable) : List ChainKey → List (Except Failure Chain)
  | [] => []
  | key :: rest =>
    let answered := ask env table key
    answered.1 :: askAll answered.2 rest

end AncestryTable

/-- The chain of a side of an entity. -/
def Environment.ancestors (env : Environment) (key : ChainKey) : Except Failure Chain :=
  (AncestryTable.ask env .empty key).1

end RubySig
