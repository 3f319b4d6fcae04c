import RubySig.TypeExpr.Printer

/-!
# Printed types by their parts

The printer goes through the lists in a type with companions of its own.  Here the text of a type is
told by the texts of its parts.

* `TypeExpr.operandText`: the text of an operand.
* `renderTypes_eq`, `renderFields_eq`, `renderParamList_eq`, `renderOperands_eq`: lists.
* `NamedType.render_args`, `TypeExpr.render_tuple`, `TypeExpr.render_record`,
  `TypeExpr.render_proc`: types.
-/

namespace RubySig

/-- The text of a type as an operand. -/
def TypeExpr.operandText (operator : OperandOf) (t : TypeExpr) : String :=
  parenthesized (t.needsParens operator) t.render

/-- The text of a parameter. -/
def Param.text (p : Param) : String := p.slot.render ++ p.render

/-! ## Lists -/

theorem renderTypes_eq (types : List TypeExpr) : renderTypes types = types.map TypeExpr.render := by
  induction types with
  | nil => rw [renderTypes, List.map_nil]
  | cons t rest ih => rw [renderTypes, ih, List.map_cons]

theorem renderFields_eq (fields : List RecordField) :
    renderFields fields = fields.map RecordField.render := by
  induction fields with
  | nil => rw [renderFields, List.map_nil]
  | cons f rest ih => rw [renderFields, ih, List.map_cons]

theorem renderOperands_eq (operator : OperandOf) (types : List TypeExpr) :
    renderOperands operator types = types.map (TypeExpr.operandText operator) := by
  induction types with
  | nil => rw [renderOperands, List.map_nil]
  | cons t rest ih => rw [renderOperands, ih, List.map_cons, TypeExpr.operandText]

theorem renderParamList_eq (ps : List Param) : renderParamList ps = ps.map Param.text := by
  induction ps with
  | nil => rw [renderParamList, List.map_nil]
  | cons p rest ih =>
    obtain ⟨slot, type, name⟩ := p
    cases name <;>
      rw [renderParamList, ih, List.map_cons, Param.text, Param.render, String.append_assoc]

/-! ## Types -/

theorem NamedType.render_args {target : NamedType} (h : target.args ≠ []) :
    target.render = target.name.render ++
      ("[" ++ (", ".intercalate (target.args.map TypeExpr.render) ++ "]")) := by
  obtain ⟨name, args, span⟩ := target
  obtain ⟨t, rest, rfl⟩ := List.exists_cons_of_ne_nil h
  rw [NamedType.render, renderTypes_eq, ← List.map_cons, commaSeparated, String.append_assoc,
    String.append_assoc]

theorem NamedType.render_bare {target : NamedType} (h : target.args = []) :
    target.render = target.name.render := by
  obtain ⟨name, args, span⟩ := target
  obtain rfl : args = [] := h
  rw [NamedType.render]

theorem TypeExpr.render_tuple {types : List TypeExpr} (h : types ≠ []) :
    (TypeExpr.tuple types).render =
      "[" ++ (", ".intercalate (types.map TypeExpr.render) ++ "]") := by
  obtain ⟨t, rest, rfl⟩ := List.exists_cons_of_ne_nil h
  rw [TypeExpr.render, renderTypes_eq, ← List.map_cons, commaSeparated, String.append_assoc]

theorem TypeExpr.render_record {fields : List RecordField} (h : fields ≠ []) :
    (TypeExpr.record fields).render =
      "\x7b " ++ (", ".intercalate (fields.map RecordField.render) ++ " \x7d") := by
  obtain ⟨f, rest, rfl⟩ := List.exists_cons_of_ne_nil h
  rw [TypeExpr.render, renderFields_eq, ← List.map_cons, commaSeparated, String.append_assoc]

theorem FunctionType.renderParams_eq (f : FunctionType) :
    f.renderParams = "(" ++ (", ".intercalate (f.params.map Param.text) ++ ")") := by
  obtain ⟨params, returnType⟩ := f
  rw [FunctionType.renderParams, renderParamList_eq, commaSeparated, String.append_assoc]

theorem FunctionType.renderArrow_eq (f : FunctionType) :
    f.renderArrow = "-> " ++ f.returnType.operandText .optional := by
  obtain ⟨params, returnType⟩ := f
  rw [FunctionType.renderArrow, TypeExpr.operandText]

theorem renderBlock_some (b : Block) :
    renderBlock (some b) = (if b.required then "" else "?") ++ ("\x7b " ++
      (b.function.renderParams ++ (" -> " ++ (b.function.returnType.render ++ " \x7d ")))) := by
  obtain ⟨required, ⟨params, returnType⟩⟩ := b
  rw [renderBlock, FunctionType.renderParams, show "\x7b (" = "\x7b " ++ "(" from rfl,
    show ") -> " = ")" ++ " -> " from rfl]
  simp only [String.append_assoc]

theorem TypeExpr.render_proc (f : FunctionType) (block : Option Block) :
    (TypeExpr.proc f block).render =
      "^" ++ (f.renderParams ++ (" " ++ (renderBlock block ++ f.renderArrow))) := by
  rw [TypeExpr.render, String.append_assoc, String.append_assoc, String.append_assoc]

end RubySig
