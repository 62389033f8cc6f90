import Scriptlet.Executable
import Scriptlet.Proofs.Depth.Typed
import Scriptlet.Proofs.Layout.Decoding

/-!
# Well-formed executables

What a loader could check of code before it is run: it decodes into instructions, every jump goes to
one of them, every operand denotes something that is there, and each function constant is made into
a closure at exactly one place.

The definitions refer to the bytes and the constants of an executable only. Nothing in them knows of
a compiler or of the syntax, so they can be read as the specification of a valid input to the
machine. That the compiler meets it is `Compilation.program_wellFormed`.
-/

namespace Scriptlet

/-! ## Single instructions -/

namespace Instruction

/-- The position that a jump goes to. -/
def target? (i : Instruction) : Option Nat :=
  match i.op, i.operands with
  | .jump, [target] | .jumpNotTruthy, [target] => some target
  | _, _ => none

/-- **The operands of an instruction denote what is there**: constants, names of globals, and what
the code may refer to otherwise. A closure is made of a function, with as many captured variables as
it has, and each of them exists in the code around. -/
def Within (surroundings : Surroundings) (globals : Nat) (constants : Array Value)
    (i : Instruction) : Prop :=
  match i.op, i.operands with
  | .constant, [index] => index < constants.size
  | .getGlobal, [index] | .setGlobal, [index] => index < globals
  | .getLocal, [index] | .setLocal, [index] => index < surroundings.locals
  | .getFree, [index] | .setFree, [index] => index < surroundings.free
  | .getBuiltin, [index] => index < surroundings.builtins
  | .closure, [index, count] =>
    ∃ id fn, constants[index]? = some (.compiled id fn) ∧ fn.captures.length = count
      ∧ ∀ capture ∈ fn.captures, capture.Within surroundings
  | op, operands => operands.length = op.widths.length

end Instruction

/-! ## Codes -/

/-- The constant that an item of code makes a closure of. -/
def Item.made? : Item → Option Nat
  | .instruction .closure (index :: _) => some index
  | _ => none

/-- The constants that code makes closures of. -/
def Code.closures (code : Code) : List Nat :=
  (code.items?.getD []).filterMap fun (_, item) => item.made?

/-- The constants that the code of a function makes closures of. -/
def Value.closures : Value → List Nat
  | .compiled _ fn => fn.code.closures
  | _ => []

/-- The constants that closures are made of, for each place where one is made. -/
def Executable.closures (exe : Executable) : List Nat :=
  exe.code.closures ++ exe.constants.toList.flatMap Value.closures

/-- **Code is one sequence of instructions** from its first byte to its last, jumps go to them, and
their operands denote what is there. -/
structure Code.WellFormed (surroundings : Surroundings) (globals : Nat) (constants : Array Value)
    (code : Code) (instrs : List Instruction) : Prop where
  decodes : code.items? = some (instrs.map Instruction.item)
  jumps : ∀ i ∈ instrs, ∀ target, i.target? = some target → target ∈ starts instrs
  within : ∀ i ∈ instrs, i.Within surroundings globals constants

/-- **The code of a function is well formed and ends with a return**, so that the machine never runs
past its end. -/
def FunctionCode.WellFormed (builtins globals : Nat) (constants : Array Value)
    (fn : FunctionCode) : Prop :=
  ∃ instrs,
    Code.WellFormed ⟨builtins, fn.locals, fn.captures.length⟩ globals constants fn.code instrs
      ∧ ∃ i, instrs.getLast? = some i ∧ (i.op = .returnValue ∨ i.op = .returnNull)

/-- **The main code of an executable and all functions in it are well formed**, and every function
becomes a closure at one place. -/
structure Executable.WellFormed (builtins : Nat) (exe : Executable) : Prop where
  /-- The main code has no locals and no captured variables, and its closures capture nothing. -/
  main : ∃ instrs,
    Code.WellFormed ⟨builtins, 0, 0⟩ exe.globals.size exe.constants exe.code instrs
      ∧ (∀ i ∈ instrs, i.op ∉ [.getLocal, .setLocal, .getFree, .setFree])
      ∧ ∀ i ∈ instrs, ∀ index count, i.op = .closure → i.operands = [index, count] → count = 0
  functions : ∀ (j : Nat) id fn, exe.constants[j]? = some (.compiled id fn) →
    fn.WellFormed builtins exe.globals.size exe.constants
  made_once : ∀ (j : Nat) id fn, exe.constants[j]? = some (.compiled id fn) →
    exe.closures.count j = 1

end Scriptlet
