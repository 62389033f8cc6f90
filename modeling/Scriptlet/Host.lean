import Scriptlet.Fault

/-!
# The surroundings of a running program

What evaluation and the machine share with the world outside: the clock, the text printed so far,
and the supply of identities. `Halt` is how a program ends early through them.
-/

namespace Scriptlet

/-- The surroundings of a running program. -/
structure Host where
  /-- The time that the clock shows, in seconds. -/
  clock : Int64
  /-- All identities from this one on are unused. -/
  fresh : Nat
  /-- Everything printed so far. -/
  output : String
deriving Repr

/-- Why a program ends before its last statement: a fault, or a call to `exit` with a status. -/
inductive Halt where
  | fault (fault : Fault)
  | exit (status : UInt8)
deriving DecidableEq, Repr

end Scriptlet
