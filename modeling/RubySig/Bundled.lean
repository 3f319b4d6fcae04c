import RubySig.Bundled.Collections
import RubySig.Bundled.Objects
import RubySig.Bundled.Values
import RubySig.Source

/-!
# Bundled signatures

* `Bundled.core`: the built-in classes, which a session starts from unless told not to.
* `Bundled.library?`: the libraries that a session can ask for.
-/

namespace RubySig

namespace Bundled

/-- The signatures of the built-in classes, in load order. -/
def core : List BundledFile :=
  [basicObject, object, module, comparable, enumerable, numeric, string, boolean, array, hash,
    range, proc, exception, builtins]

/-- The libraries by name. -/
def libraries : List (String × List BundledFile) := [("set", [set])]

/-- The names of the libraries. -/
def libraryNames : List String := libraries.map (·.1)

/-- The files of a library. -/
def library? (name : String) : Option (List BundledFile) :=
  (libraries.find? fun p => p.1 == name).map (·.2)

/-- Where the files of a library come from. -/
def libraryProvenance (name : String) : Provenance := .library name none

end Bundled

/-- A bundled file as a source. -/
def BundledFile.toSource (file : BundledFile) (provenance : Provenance) : Source :=
  ⟨file.path, provenance, file.content⟩

end RubySig
