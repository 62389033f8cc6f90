import Scriptlet.Builtin
import Scriptlet.Host
import Scriptlet.Operator
import Scriptlet.Value.Printer

/-!
# Calls of built-in functions

`Builtin.call` is what each built-in function does with its arguments. `puts` prints, `exit` ends
the program, and a function that makes an array draws an identity for it; all others only compute.
-/

namespace Scriptlet

/-- An effect on the surroundings that may end the program. -/
abbrev HostM := EStateM Halt Host

namespace HostM

/-- Ends the program with a fault. -/
def fault {α : Type} (fault : Fault) : HostM α :=
  throw (.fault fault)

/-- An unused identity. -/
def identity : HostM Identity :=
  modifyGet fun host => (host.fresh, { host with fresh := host.fresh + 1 })

/-- Prints a line. -/
def print (line : String) : HostM Unit :=
  modify fun host => { host with output := host.output ++ line ++ "\n" }

/-- A new array. -/
def array (elements : List Value) : HostM Value := do
  return .array (← identity) elements

/-- A new hash. -/
def hash (entries : List (Entry Value)) : HostM Value := do
  return .hash (← identity) entries

end HostM

namespace Builtin

open HostM

/-- The fault of a wrong number of arguments. -/
def arity {α : Type} (b : Builtin) (got wanted : Nat) : HostM α :=
  fault (.builtinArity b.name got wanted)

/-- The fault of an argument of the wrong kind. -/
def unsupported {α : Type} (b : Builtin) (arg : Value) : HostM α :=
  fault (.builtinArgument b.name arg.kind)

/-- Calls a built-in function of one argument. -/
def callOne (b : Builtin) (arg : Value) : HostM Value :=
  match b, arg with
  -- in bytes, while a string is otherwise a row of characters
  | len, .str s => return .int (Int64.ofNat s.utf8ByteSize)
  | len, .array _ elements => return .int (Int64.ofNat elements.length)
  | len, .hash _ entries => return .int (Int64.ofNat entries.length)
  | first, .array _ elements => return elements.headD .null
  | first, .str s =>
    match s.toList with
    | [] => return .null
    | c :: _ => return .str c.toString
  | last, .array _ elements => return elements.getLastD .null
  | last, .str s =>
    match s.toList.getLast? with
    | none => return .null
    | some c => return .str c.toString
  -- what is left of nothing is no array
  | rest, .array _ [] => return .null
  | rest, .array _ (_ :: elements) => array elements
  | rest, .str s =>
    match s.toList with
    | [] => return .null
    | _ :: cs => return .str (String.ofList cs)
  | str, v => return .str v.text
  | int, .int i => return .int i
  | int, .float x => return .int x.toInt64
  | float, .int i => return .float i.toFloat
  | float, .float x => return .float x
  | b, v => b.unsupported v

/-- Calls a built-in function. -/
def call (b : Builtin) (args : List Value) : HostM Value :=
  match b, args with
  | puts, args => do
    args.forM fun v => print v.text
    return .null
  -- the array itself is not changed
  | push, [.array _ elements, v] => array (elements ++ [v])
  | push, [.str s, v] => return .str (s ++ v.text)
  | push, [v, _] => push.unsupported v
  | push, args => push.arity args.length 2
  | timestamp, [] => return .int (← get).clock
  | timestamp, args => timestamp.arity args.length 0
  | exit, [] => throw (.exit 0)
  | exit, [.int code] => throw (.exit (UInt8.ofNat (code.toUInt64.toNat % 256)))
  | exit, [v] => exit.unsupported v
  | exit, args => exit.arity args.length 1
  | b, [v] => b.callOne v
  | b, args => b.arity args.length 1

end Builtin

end Scriptlet
