/-!
# JSON values

* `Json`: a value; the fields of an object keep their order.
* `Json.pretty`: the indented text of a value.
-/

namespace RubySig

/-- A JSON value. All numbers are integers. -/
inductive Json
  | null
  | bool (value : Bool)
  | int (value : Int)
  | string (value : String)
  | array (items : List Json)
  | object (fields : List (String × Json))
  deriving Repr, Inhabited

namespace Json

/-- A number that cannot be negative. -/
def nat (n : Nat) : Json := int n

/-- A value or `null`. -/
def optional {α : Type} (encode : α → Json) : Option α → Json
  | none => null
  | some a => encode a

/-- A list of values. -/
def list {α : Type} (encode : α → Json) (items : List α) : Json := array (items.map encode)

/-! ## Text -/

/-- A hexadecimal digit, in small letters. -/
def hexDigit (n : Nat) : Char := Char.ofNat (if n < 10 then '0'.toNat + n else 'a'.toNat + (n - 10))

/-- The characters that stand for one character in a quoted string: quotes, backslashes
and control characters are escaped. -/
def escapeChar (c : Char) : List Char :=
  match c with
  | '"' => ['\\', '"']
  | '\\' => ['\\', '\\']
  | '\n' => ['\\', 'n']
  | '\r' => ['\\', 'r']
  | '\t' => ['\\', 't']
  | '\x08' => ['\\', 'b']
  | '\x0c' => ['\\', 'f']
  | c => if c.toNat < 32 then
      ['\\', 'u', '0', '0', hexDigit (c.toNat / 16), hexDigit (c.toNat % 16)]
    else [c]

/-- A quoted string. -/
def quote (s : String) : String :=
  "\"" ++ String.ofList (s.toList.flatMap escapeChar) ++ "\""

/-- The blanks at the beginning of a line. -/
def indentation (depth : Nat) : String := String.ofList (List.replicate (2 * depth) ' ')

mutual

/-- The text of a value whose first line is already indented to `depth`. Every item of a
non-empty array or object has a line of its own, two blanks further in. -/
def pretty (depth : Nat) : Json → String
  | null => "null"
  | bool true => "true"
  | bool false => "false"
  | int value => toString value
  | string value => quote value
  | array [] => "[]"
  | array (item :: rest) =>
    "[\n" ++ ",\n".intercalate
        ((indentation (depth + 1) ++ item.pretty (depth + 1)) :: prettyItems (depth + 1) rest) ++
      "\n" ++ indentation depth ++ "]"
  | object [] => "\x7b\x7d"
  | object ((key, value) :: rest) =>
    "\x7b\n" ++ ",\n".intercalate
        ((indentation (depth + 1) ++ quote key ++ ": " ++ value.pretty (depth + 1)) ::
          prettyFields (depth + 1) rest) ++
      "\n" ++ indentation depth ++ "\x7d"

/-- The lines of array items. -/
def prettyItems (depth : Nat) : List Json → List String
  | [] => []
  | item :: rest => (indentation depth ++ item.pretty depth) :: prettyItems depth rest

/-- The lines of object fields. -/
def prettyFields (depth : Nat) : List (String × Json) → List String
  | [] => []
  | (key, value) :: rest =>
    (indentation depth ++ quote key ++ ": " ++ value.pretty depth) :: prettyFields depth rest

end

end Json

end RubySig
