import Scriptlet.Value

/-!
# Executables

What the compiler makes and the machine runs.
-/

namespace Scriptlet

/-- Code with the constants that it refers to by index. -/
structure Executable where
  code : Code
  constants : Array Value
  /-- The names of the global slots, for the fault of reading one that is not set. -/
  globals : Array String
  /-- No constant has this identity or one above it. -/
  fresh : Nat

end Scriptlet
