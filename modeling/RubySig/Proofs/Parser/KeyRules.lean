import RubySig.Proofs.Parser.Ensures

/-!
# Grammars with other record keys

The grammar of types reads the keys of records by one rule.  With another rule in its place it is
the grammar of a language that differs in the keys only.

* `Parser.recordWith`, `Parser.simpleWith`: records, and types without operators.
* `Parser.typeWith`, `Parser.returnWith`: types and return types.
* `Parser.typeWith_recordKey`: with the rule for keys in its place it is the grammar of types.
-/

namespace RubySig

namespace Parser

/-- A field whose key is read by a rule. -/
def fieldWith (keyRule : Parser RecordKey) (type : Parser TypeExpr) : Parser RecordField := do
  let key ← keyRule
  return ⟨key, ← type⟩

/-- A record whose keys are read by a rule. -/
def recordWith (keyRule : Parser RecordKey) (type : Parser TypeExpr) : Parser TypeExpr := do
  assertAt .braceOpen
  let _ ← bump
  let fields ← separatedUntil .braceClose .comma (fieldWith keyRule type)
  let _ ← expect .braceClose "`,` or `\x7d`"
  return .record fields

/-- A type without operators, with a rule for the keys of a record. -/
def simpleWith (keyRule : Parser RecordKey) (vars : List String)
    (type returnType : Parser TypeExpr) : Parser TypeExpr := fun c =>
  if kindOf c.rest 0 = .braceOpen then (do let _ ← look; recordWith keyRule type) c
  else simpleType vars type returnType c

mutual

/-- A type, with a rule for the keys of records. -/
def typeWith (keyRule : Parser RecordKey) (vars : List String) (levels : Nat) (c : Cursor) :
    EStateM.Result Stop Cursor TypeExpr :=
  match levels with
  | 0 => tooDeep c
  | n + 1 =>
    nested (unionType (simpleWith keyRule vars (typeWith keyRule vars n)
      (returnWith keyRule vars n))) c

/-- A return type, with a rule for the keys of records. -/
def returnWith (keyRule : Parser RecordKey) (vars : List String) (levels : Nat) (c : Cursor) :
    EStateM.Result Stop Cursor TypeExpr :=
  match levels with
  | 0 => tooDeep c
  | n + 1 =>
    nested (optionalType (simpleWith keyRule vars (typeWith keyRule vars n)
      (returnWith keyRule vars n))) c

end

theorem simpleWith_recordKey (vars : List String) (type returnType : Parser TypeExpr) :
    simpleWith recordKey vars type returnType = simpleType vars type returnType := by
  funext c
  by_cases hbrace : kindOf c.rest 0 = .braceOpen
  · have hlook : look c = .ok .braceOpen (looked c) := hbrace ▸ peek_eq 0 c
    rw [simpleWith, if_pos hbrace, simpleType, bind_of_ok hlook, bind_of_ok hlook]
    rfl
  · rw [simpleWith, if_neg hbrace]

/-- The grammar of types is one of these grammars. -/
theorem typeWith_recordKey (vars : List String) (levels : Nat) :
    typeWith recordKey vars levels = typeExpr vars levels ∧
      returnWith recordKey vars levels = returnType vars levels := by
  induction levels with
  | zero => exact ⟨rfl, rfl⟩
  | succ n ih =>
    have hsimple : simpleWith recordKey vars (typeWith recordKey vars n)
        (returnWith recordKey vars n) = simpleType vars (typeExpr vars n) (returnType vars n) :=
      (congrArg₂ (simpleWith recordKey vars) ih.1 ih.2).trans (simpleWith_recordKey _ _ _)
    exact ⟨congrArg (fun p => nested (unionType p)) hsimple,
      congrArg (fun p => nested (optionalType p)) hsimple⟩

end Parser

end RubySig
