import Scriptlet.Value
import Std.Data.TreeMap

/-!
# Scopes

Bindings live in a heap of scopes. An environment is the list of the scopes around a piece of code,
innermost first, so any number of environments may share a scope and see each other's writes to it.
A name means the binding in the first scope of the environment that holds it. Assigning a name that
no scope holds binds it in the last scope, the root.
-/

namespace Scriptlet

/-- One level of bindings. -/
structure Scope where
  bindings : Std.TreeMap String Value
  /-- Whether the scope belongs to a loop. -/
  inLoop : Bool

/-- The heap of scopes. -/
abbrev Scopes := Array Scope

/-- The scopes around a piece of code, innermost first. -/
abbrev Env := List ScopeId

/-- The environment that consists of the first scope alone. -/
def Env.root : Env := [0]

namespace Scopes

/-- The value that one scope holds for a name. -/
def bound? (scopes : Scopes) (id : ScopeId) (name : String) : Option Value :=
  scopes[id]?.bind fun scope => scope.bindings[name]?

/-- Binds a name in one scope. -/
def bind (scopes : Scopes) (id : ScopeId) (name : String) (value : Value) : Scopes :=
  scopes.modify id fun scope => { scope with bindings := scope.bindings.insert name value }

/-- The value that a name means in an environment. -/
def lookup? (scopes : Scopes) (name : String) : Env → Option Value
  | [] => none
  | id :: outer =>
    match scopes.bound? id name with
    | some value => some value
    | none => lookup? scopes name outer

/-- Binds a name in the innermost scope of an environment. -/
def define (scopes : Scopes) (env : Env) (name : String) (value : Value) : Scopes :=
  match env with
  | [] => scopes
  | id :: _ => scopes.bind id name value

/-- Stores a value where an environment finds a name, or in its root if it does not. -/
def assign (scopes : Scopes) (name : String) (value : Value) : Env → Scopes
  | [] => scopes
  | [root] => scopes.bind root name value
  | id :: outer =>
    if (scopes.bound? id name).isSome then scopes.bind id name value
    else assign scopes name value outer

/-- Whether a scope of the environment belongs to a loop. -/
def inLoop (scopes : Scopes) (env : Env) : Bool :=
  env.any fun id => (scopes[id]?.map Scope.inLoop).getD false

/-- The number of the next scope to be added. -/
def next (scopes : Scopes) : ScopeId :=
  scopes.size

/-- Adds a scope without bindings. -/
def add (scopes : Scopes) (inLoop : Bool) : Scopes :=
  scopes.push ⟨∅, inLoop⟩

end Scopes

end Scriptlet
