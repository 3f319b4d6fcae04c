/-!
# Bundled files

* `BundledFile`: a signature text that comes with the program.
-/

namespace RubySig

/-- A signature text that comes with the program. -/
structure BundledFile where
  /-- The path shown in messages. -/
  path : String
  /-- The text. -/
  content : String
  deriving Repr, Inhabited, DecidableEq

/-- A file with the given lines, each of which ends in a line break. -/
def BundledFile.ofLines (path : String) (lines : List String) : BundledFile :=
  ⟨path, String.join (lines.map (· ++ "\n"))⟩

end RubySig
