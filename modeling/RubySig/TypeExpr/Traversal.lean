import RubySig.TypeExpr

/-!
# Traversals of type expressions

* `TypeExpr.mapM`: rebuilds a type bottom-up and hands every rebuilt node to a function.
* `TypeExpr.map`: the same with a function without effects.
* `TypeExpr.nodes`: every node, parents before their children.
* `TypeExpr.references`: the named and singleton types in the order in which they are
  written.
-/

namespace RubySig

/-! ## Rebuilding -/

mutual

/-- Rebuilds a type from its rebuilt children and hands the result to `f`. A replacement
that `f` returns is not visited again. -/
def TypeExpr.mapM {m : Type → Type} [Monad m] (f : TypeExpr → m TypeExpr) : TypeExpr → m TypeExpr
  | .named target => do f (.named (← target.mapArgsM f))
  | .singleton target => f (.singleton target)
  | .var name => f (.var name)
  | .union types => do f (.union (← mapTypesM f types))
  | .intersection types => do f (.intersection (← mapTypesM f types))
  | .optional inner => do f (.optional (← inner.mapM f))
  | .tuple types => do f (.tuple (← mapTypesM f types))
  | .record fields => do f (.record (← mapFieldsM f fields))
  | .proc function block => do
    let function ← function.mapM f
    f (.proc function (← mapBlockM f block))
  | .literal value => f (.literal value)
  | .special type => f (.special type)

/-- Rebuilds the type arguments and keeps the name. -/
def NamedType.mapArgsM {m : Type → Type} [Monad m] (f : TypeExpr → m TypeExpr) :
    NamedType → m NamedType
  | ⟨name, args, span⟩ => do pure ⟨name, ← mapTypesM f args, span⟩

/-- Rebuilds parameters and return type, in this order. -/
def FunctionType.mapM {m : Type → Type} [Monad m] (f : TypeExpr → m TypeExpr) :
    FunctionType → m FunctionType
  | ⟨params, returnType⟩ => do
    let params ← mapParamsM f params
    pure ⟨params, ← returnType.mapM f⟩

/-- Rebuilds the types of a list from left to right. -/
def mapTypesM {m : Type → Type} [Monad m] (f : TypeExpr → m TypeExpr) :
    List TypeExpr → m (List TypeExpr)
  | [] => pure []
  | type :: rest => do
    let type ← type.mapM f
    pure (type :: (← mapTypesM f rest))

/-- Rebuilds the types of record fields. -/
def mapFieldsM {m : Type → Type} [Monad m] (f : TypeExpr → m TypeExpr) :
    List RecordField → m (List RecordField)
  | [] => pure []
  | ⟨key, type⟩ :: rest => do
    let type ← type.mapM f
    pure (⟨key, type⟩ :: (← mapFieldsM f rest))

/-- Rebuilds the types of parameters. -/
def mapParamsM {m : Type → Type} [Monad m] (f : TypeExpr → m TypeExpr) :
    List Param → m (List Param)
  | [] => pure []
  | ⟨slot, type, name⟩ :: rest => do
    let type ← type.mapM f
    pure (⟨slot, type, name⟩ :: (← mapParamsM f rest))

/-- Rebuilds the types of a block. -/
def mapBlockM {m : Type → Type} [Monad m] (f : TypeExpr → m TypeExpr) :
    Option Block → m (Option Block)
  | none => pure none
  | some ⟨required, function⟩ => do pure (some ⟨required, ← function.mapM f⟩)

end

/-- Rebuilds the bounds of type parameters. -/
def mapTypeParamsM {m : Type → Type} [Monad m] (f : TypeExpr → m TypeExpr) :
    List TypeParam → m (List TypeParam)
  | [] => pure []
  | p :: rest => do
    let bound ← match p.upperBound with
      | none => pure none
      | some bound => do pure (some (← bound.mapM f))
    pure ({ p with upperBound := bound } :: (← mapTypeParamsM f rest))

/-- Rebuilds every type of an overload: bounds, parameters, return type, block. -/
def MethodType.mapM {m : Type → Type} [Monad m] (f : TypeExpr → m TypeExpr) (method : MethodType) :
    m MethodType := do
  let typeParams ← mapTypeParamsM f method.typeParams
  let function ← method.function.mapM f
  let block ← mapBlockM f method.block
  pure ⟨typeParams, function, block, method.span⟩

/-- `TypeExpr.mapM` with a function without effects. -/
def TypeExpr.map (f : TypeExpr → TypeExpr) (type : TypeExpr) : TypeExpr :=
  Id.run (type.mapM f)

/-- `NamedType.mapArgsM` with a function without effects. -/
def NamedType.mapArgs (f : TypeExpr → TypeExpr) (type : NamedType) : NamedType :=
  Id.run (type.mapArgsM f)

/-- `MethodType.mapM` with a function without effects. -/
def MethodType.map (f : TypeExpr → TypeExpr) (method : MethodType) : MethodType :=
  Id.run (method.mapM f)

/-- The nodes in the order in which `mapM` hands them to `f`, when `f` replaces nodes. -/
def TypeExpr.handed (f : TypeExpr → TypeExpr) (type : TypeExpr) : List TypeExpr :=
  ((type.mapM (m := StateM (List TypeExpr)) fun t => do
    modify (· ++ [t])
    pure (f t)).run []).2

/-- The nodes of an overload in the order in which `mapM` hands them to `f`. -/
def MethodType.handed (f : TypeExpr → TypeExpr) (method : MethodType) : List TypeExpr :=
  ((method.mapM (m := StateM (List TypeExpr)) fun t => do
    modify (· ++ [t])
    pure (f t)).run []).2

/-! ## Listing nodes -/

mutual

/-- Every node of a type, parents before their children. -/
def TypeExpr.nodes : TypeExpr → List TypeExpr
  | .named target => .named target :: target.argNodes
  | .singleton target => [.singleton target]
  | .var name => [.var name]
  | .union types => .union types :: nodesOfTypes types
  | .intersection types => .intersection types :: nodesOfTypes types
  | .optional inner => .optional inner :: inner.nodes
  | .tuple types => .tuple types :: nodesOfTypes types
  | .record fields => .record fields :: nodesOfFields fields
  | .proc function block => .proc function block :: (function.nodes ++ nodesOfBlock block)
  | .literal value => [.literal value]
  | .special type => [.special type]

/-- The nodes of the type arguments. -/
def NamedType.argNodes : NamedType → List TypeExpr
  | ⟨_, args, _⟩ => nodesOfTypes args

/-- The nodes of parameters and return type. -/
def FunctionType.nodes : FunctionType → List TypeExpr
  | ⟨params, returnType⟩ => nodesOfParams params ++ returnType.nodes

/-- The nodes of several types. -/
def nodesOfTypes : List TypeExpr → List TypeExpr
  | [] => []
  | type :: rest => type.nodes ++ nodesOfTypes rest

/-- The nodes of record fields. -/
def nodesOfFields : List RecordField → List TypeExpr
  | [] => []
  | ⟨_, type⟩ :: rest => type.nodes ++ nodesOfFields rest

/-- The nodes of parameters. -/
def nodesOfParams : List Param → List TypeExpr
  | [] => []
  | ⟨_, type, _⟩ :: rest => type.nodes ++ nodesOfParams rest

/-- The nodes of a block. -/
def nodesOfBlock : Option Block → List TypeExpr
  | none => []
  | some ⟨_, function⟩ => function.nodes

end

/-- The nodes of the bounds of type parameters. -/
def nodesOfTypeParams (params : List TypeParam) : List TypeExpr :=
  params.flatMap fun p => match p.upperBound with
    | none => []
    | some bound => bound.nodes

/-- The nodes of an overload: bounds, parameters, return type, block. -/
def MethodType.nodes (method : MethodType) : List TypeExpr :=
  nodesOfTypeParams method.typeParams ++ method.function.nodes ++ nodesOfBlock method.block

/-! ## Listing references -/

/-- A place where a type mentions a declared entity. -/
inductive Reference
  /-- A name with its arguments. -/
  | named (target : NamedType)
  /-- The operand of `singleton`. -/
  | singleton (target : SingletonType)
  deriving Repr, Inhabited

mutual

/-- The references of a type, a name before those in its arguments. -/
def TypeExpr.references : TypeExpr → List Reference
  | .named target => .named target :: target.argReferences
  | .singleton target => [.singleton target]
  | .union types => referencesOfTypes types
  | .intersection types => referencesOfTypes types
  | .optional inner => inner.references
  | .tuple types => referencesOfTypes types
  | .record fields => referencesOfFields fields
  | .proc function block => function.references ++ referencesOfBlock block
  | .var _ => []
  | .literal _ => []
  | .special _ => []

/-- The references in the type arguments. -/
def NamedType.argReferences : NamedType → List Reference
  | ⟨_, args, _⟩ => referencesOfTypes args

/-- The references of parameters and return type. -/
def FunctionType.references : FunctionType → List Reference
  | ⟨params, returnType⟩ => referencesOfParams params ++ returnType.references

/-- The references of several types. -/
def referencesOfTypes : List TypeExpr → List Reference
  | [] => []
  | type :: rest => type.references ++ referencesOfTypes rest

/-- The references of record fields. -/
def referencesOfFields : List RecordField → List Reference
  | [] => []
  | ⟨_, type⟩ :: rest => type.references ++ referencesOfFields rest

/-- The references of parameters. -/
def referencesOfParams : List Param → List Reference
  | [] => []
  | ⟨_, type, _⟩ :: rest => type.references ++ referencesOfParams rest

/-- The references of a block. -/
def referencesOfBlock : Option Block → List Reference
  | none => []
  | some ⟨_, function⟩ => function.references

end

/-- The references of a name with arguments, the name itself first. -/
def NamedType.references (type : NamedType) : List Reference := .named type :: type.argReferences

/-- The references in the bounds of type parameters. -/
def referencesOfTypeParams (params : List TypeParam) : List Reference :=
  params.flatMap fun p => match p.upperBound with
    | none => []
    | some bound => bound.references

/-- The references of an overload: bounds, parameters, return type, block. -/
def MethodType.references (method : MethodType) : List Reference :=
  referencesOfTypeParams method.typeParams ++ method.function.references ++
    referencesOfBlock method.block

end RubySig
