import Scriptlet.Token

/-!
# Runtime faults

What ends a program that was read and compiled without complaint. Faults are causes; their wording
is in `Fault.message`.
-/

namespace Scriptlet

/-- The kinds of values, as operators tell them apart. -/
inductive Kind where
  | int
  | float
  | bool
  | str
  | null
  | error
  | array
  | hash
  | function
  | compiled
  | closure
  | builtin
  | quote
deriving DecidableEq, Repr

/-- The name of a kind in messages. -/
def Kind.name : Kind → String
  | int => "INTEGER"
  | float => "FLOAT"
  | bool => "BOOLEAN"
  | str => "STRING"
  | null => "NULL"
  | error => "ERROR"
  | array => "ARRAY"
  | hash => "HASH"
  | function => "FUNCTION"
  | compiled => "COMPILED_FUNCTION"
  | closure => "CLOSURE"
  | builtin => "BUILTIN"
  | quote => "QUOTE"

/-- A runtime fault. -/
inductive Fault where
  /-- The operands of an operator are of two kinds. -/
  | typeMismatch (left : Kind) (op : Token) (right : Kind)
  /-- The operator is not defined on operands of this kind. -/
  | unknownInfix (left : Kind) (op : Token) (right : Kind)
  | unknownPrefix (op : Token) (operand : Kind)
  | unbound (name : String)
  | notFunction (callee : Kind)
  | argumentCount (wanted : Nat) (got : Nat)
  | builtinArity (name : String) (got : Nat) (wanted : Nat)
  | builtinArgument (name : String) (got : Kind)
  | unusableKey (kind : Kind)
  | notIndexable (kind : Kind)
  | divisionByZero
  | breakOutsideLoop
  | continueOutsideLoop
  | stackOverflow
  | unknownOp (byte : UInt8)
  | unknownBuiltin (index : Nat)
  | notFunctionConstant (index : Nat)
deriving DecidableEq, Repr

/-- The wording of a fault. -/
def Fault.message : Fault → String
  | typeMismatch left op right =>
    "type mismatch: " ++ left.name ++ " " ++ op.text ++ " " ++ right.name
  | unknownInfix left op right =>
    "unknown operator: " ++ left.name ++ " " ++ op.text ++ " " ++ right.name
  | unknownPrefix op operand => "unknown operator: " ++ op.text ++ operand.name
  | unbound name => "identifier not found: " ++ name
  | notFunction callee => "not a function: " ++ callee.name
  | argumentCount wanted got =>
    "wrong number of arguments: want=" ++ toString wanted ++ ", got=" ++ toString got
  | builtinArity name got wanted =>
    "wrong number of arguments to \x60" ++ name ++ "\x60. got=" ++ toString got ++ ", want="
      ++ toString wanted
  | builtinArgument name got =>
    "argument to \x60" ++ name ++ "\x60 not supported, got " ++ got.name
  | unusableKey kind => "unusable as hash key: " ++ kind.name
  | notIndexable kind => "index operator not supported: " ++ kind.name
  | divisionByZero => "division by zero"
  | breakOutsideLoop => "break outside loop"
  | continueOutsideLoop => "continue outside loop"
  | stackOverflow => "stack overflow"
  | unknownOp byte => "unknown opcode: " ++ toString byte.toNat
  | unknownBuiltin index => "unknown builtin index: " ++ toString index
  | notFunctionConstant index => "constant " ++ toString index ++ " is not a function"

end Scriptlet
