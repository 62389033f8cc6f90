/-!
# Built-in functions and their tables

A program sees the built-in functions of a table. Evaluation looks them up by name, the machine by
their index in the table, so the compiler and the machine have to agree on the table.

The functions are those of the standard library, and a table may have any of them, in any order, any
number of times. Functions that a host program would add of its own are not among them: what such a
function does with its arguments, with the output or with the whole process is up to the host, and
nothing could be said of a program that calls one. Since the functions are known, so are their
names, and none of them is called `quote`.
-/

namespace Scriptlet

/-- A built-in function. -/
inductive Builtin where
  | len
  | puts
  | first
  | last
  | rest
  | push
  | str
  | int
  | float
  | timestamp
  | exit
deriving DecidableEq, Repr

namespace Builtin

/-- The name that a program calls a built-in function by. -/
def name : Builtin → String
  | len => "len"
  | puts => "puts"
  | first => "first"
  | last => "last"
  | rest => "rest"
  | push => "push"
  | str => "str"
  | int => "int"
  | float => "float"
  | timestamp => "timestamp"
  | exit => "exit"

end Builtin

/-- **The built-in functions that a program sees**, in the order of their indices. A function that
stands in the table twice has two indices, and is found by name at the first of them. -/
abbrev BuiltinTable := List Builtin

namespace BuiltinTable

/-- All built-in functions. -/
def standard : BuiltinTable :=
  [.len, .puts, .first, .last, .rest, .push, .str, .int, .float, .timestamp, .exit]

/-- The first built-in function of a table with the given name. -/
def find? (table : BuiltinTable) (name : String) : Option Builtin :=
  List.find? (fun b => b.name == name) table

/-- The table of the named functions of `table`, in the order of the names; unknown names are
skipped. -/
def select (table : BuiltinTable) (names : List String) : BuiltinTable :=
  names.filterMap table.find?

end BuiltinTable

end Scriptlet
