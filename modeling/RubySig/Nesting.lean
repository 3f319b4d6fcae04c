import RubySig.Name

/-!
# Lexical nesting

* `Nesting`: the scopes around a place in a file. The top level is always the outermost.
* `Nesting.enter`: steps into a namespace.
* `Nesting.candidates`: the absolute names that a written name can stand for.
-/

namespace RubySig

/-- The scopes around a place, without the top level. -/
structure Nesting where
  /-- The scopes below the top level, innermost first. -/
  inner : List Namespace
  deriving Repr, Inhabited, DecidableEq

namespace Nesting

/-- Outside of every declaration. -/
def topLevel : Nesting := ⟨[]⟩

/-- Makes a namespace the innermost scope. -/
def enter (nesting : Nesting) (ns : Namespace) : Nesting := ⟨ns :: nesting.inner⟩

/-- All scopes, innermost first; the last one is the top level. -/
def scopes (nesting : Nesting) : List Namespace := nesting.inner ++ [.root]

/-- The innermost scope. -/
def innermost (nesting : Nesting) : Namespace := nesting.inner.headD .root

/-- What a written name can stand for, in the order in which it is tried: an absolute name
for itself, a relative one for its place in each scope. -/
def candidates (nesting : Nesting) (name : TypeName) : List TypeName :=
  if name.isAbsolute then [name] else nesting.scopes.map name.placedIn

end Nesting

end RubySig
