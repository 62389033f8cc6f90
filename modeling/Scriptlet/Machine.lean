import Scriptlet.Builtin.Call
import Scriptlet.Executable
import Scriptlet.Machine.Frame
import Scriptlet.Machine.Memory

/-!
# The machine

A stack machine for executables. `step` executes one instruction and `run` repeats it. A program
ends when the running function is at the end of its code, when the top level returns, or early by a
fault or a call of `exit`. Code that asks for something that is not there (an operand, a constant, a
cell, the rest of an instruction) gets the machine stuck, which is an outcome apart from all others.

Slots above the top of the stack keep what was stored in them; a new local holds such a value until
it is set.
-/

namespace Scriptlet

namespace Machine

/-- The number of stack slots. -/
def stackSize : Nat := 2048

/-- How many frames there may be, that of the top level included. -/
def maxFrames : Nat := 1024

end Machine

/-- The state of the machine. -/
structure Machine where
  constants : Array Value
  names : Array String
  builtins : BuiltinTable
  stack : Machine.Memory Value
  /-- The number of slots in use: the top of the stack is the one below it. -/
  top : Nat
  globals : Machine.Memory (Option Value)
  /-- The memory of captured variables. -/
  cells : Array Value
  frame : Machine.Frame
  /-- The frames that wait for the running one to return, innermost first. -/
  callers : List Machine.Frame
  host : Host

namespace Machine

/-- Why the machine stops. -/
inductive Stop where
  | finished
  | halted (halt : Halt)
  | stuck
deriving DecidableEq, Repr

/-- A part of a step, which keeps its effects when it stops the machine. -/
abbrev Step := EStateM Stop Machine

/-- Stops with a fault. -/
def fault {α : Type} (fault : Fault) : Step α :=
  throw (.halted (.fault fault))

/-- A thing that has to be there. -/
def present {α : Type} : Option α → Step α
  | some a => pure a
  | none => throw .stuck

/-- The result of an operator. -/
def ofExcept {α : Type} : Except Fault α → Step α
  | .ok value => pure value
  | .error error => fault error

/-- An effect on the surroundings. -/
def onHost {α : Type} (action : HostM α) : Step α
  | ⟨constants, names, builtins, stack, top, globals, cells, frame, callers, host⟩ =>
    match action host with
    | .ok value host =>
      .ok value ⟨constants, names, builtins, stack, top, globals, cells, frame, callers, host⟩
    | .error halt host =>
      .error (.halted halt)
        ⟨constants, names, builtins, stack, top, globals, cells, frame, callers, host⟩

/-! ### The stack -/

/-- Sets the number of slots in use. -/
def setTop (top : Nat) : Step Unit :=
  modify fun m => { m with top }

/-- Writes a slot, which has to exist. -/
def setSlot (index : Nat) (value : Value) : Step Unit :=
  if index < stackSize then modify fun m => { m with stack := m.stack.write index value }
  else throw .stuck

/-- Reads a slot, which has to exist. -/
def slot (index : Nat) : Step Value := do
  if index < stackSize then return (← get).stack.read index else throw .stuck

/-- Puts a value on the stack. -/
def push (value : Value) : Step Unit := do
  let top := (← get).top
  if stackSize ≤ top then fault .stackOverflow
  else
    modify fun m => { m with stack := m.stack.write top value, top := top + 1 }

/-- Takes a value off the stack. -/
def pop : Step Value := do
  match (← get).top with
  | 0 => throw .stuck
  | top + 1 => do
    setTop top
    return (← get).stack.read top

/-- The slot `count` below the top of the stack. -/
def below (count : Nat) : Step Nat := do
  let top := (← get).top
  if count ≤ top then return top - count else throw .stuck

/-- The values of the slots from `start` on, up to the top of the stack. -/
def valuesFrom (start : Nat) : Step (List Value) := do
  let m ← get
  return (List.range (m.top - start)).map fun i => m.stack.read (start + i)

/-! ### The running code -/

/-- The next byte of the running code. -/
def nextByte : Step UInt8 := do
  let frame := (← get).frame
  let byte ← present frame.code.code[frame.position]?
  modify fun m => { m with frame := { m.frame with position := m.frame.position + 1 } }
  return byte

/-- The next byte of the running code as a number. -/
def readByte : Step Nat := do
  return (← nextByte).toNat

/-- The next two bytes of the running code as a number. -/
def readWord : Step Nat := do
  let frame := (← get).frame
  let high ← present frame.code.code[frame.position]?
  let low ← present frame.code.code[frame.position + 1]?
  modify fun m => { m with frame := { m.frame with position := m.frame.position + 2 } }
  return 256 * high.toNat + low.toNat

/-- Goes on at a position of the running code. -/
def jump (target : Nat) : Step Unit :=
  modify fun m => { m with frame := { m.frame with position := target } }

/-! ### Variables -/

/-- The value of a cell. -/
def cell (id : CellId) : Step Value := do
  present (← get).cells[id]?

/-- Writes a cell. -/
def setCell (id : CellId) (value : Value) : Step Unit :=
  modify fun m => { m with cells := m.cells.setIfInBounds id value }

/-- The value of a local, in its cell if it is captured and on the stack otherwise. -/
def getLocal (index : Nat) : Step Value := do
  let frame := (← get).frame
  match frame.cell? index with
  | some id => cell id
  -- the slot may not have been set yet, and then holds whatever was there before the call
  | none => slot (frame.base + index)

/-- Stores the value of a local. -/
def setLocal (index : Nat) (value : Value) : Step Unit := do
  let frame := (← get).frame
  match frame.cell? index with
  | some id => setCell id value
  | none => setSlot (frame.base + index) value

/-- The cell of a variable that the running closure has captured. -/
def freeCell (index : Nat) : Step CellId := do
  present (← get).frame.free[index]?

/-- The value of a global slot, which has to be set. -/
def getGlobal (index : Nat) : Step Value := do
  let m ← get
  match m.globals.read index with
  | some value => return value
  | none => fault (.unbound (m.names[index]?.getD ""))

/-- Stores the value of a global slot. -/
def setGlobal (index : Nat) (value : Value) : Step Unit :=
  modify fun m => { m with globals := m.globals.write index (some value) }

/-- The cell of a variable for a new closure. A local that is captured for the first time moves into
a new cell. -/
def captureCell : Capture → Step CellId
  | .free index => freeCell index
  | .slot index => do
    let value ← slot ((← get).frame.base + index)
    -- a variable that has a cell already keeps it, and then the slot is not looked at again
    modifyGet fun m =>
      let (cell, new, frame) := m.frame.capture index m.cells.size
      (cell, { m with frame, cells := if new then m.cells.push value else m.cells })

/-- The cells of variables for a new closure. -/
def captureCells : List Capture → Step (List CellId)
  | [] => return []
  | capture :: rest => do
    let cell ← captureCell capture
    return cell :: (← captureCells rest)

/-! ### Operations -/

/-- The token of an operation on two operands, as faults show it. -/
def operatorToken : Op → Token
  | .add => .plus
  | .sub => .minus
  | .mul => .asterisk
  | .div => .slash
  | .equal => .eq
  | .notEqual => .notEq
  | _ => .gt

/-- An operation on two operands. -/
def binary (op : Op) : Step Unit := do
  let right ← pop
  let left ← pop
  push (← ofExcept (left.infixOp (operatorToken op) right))

/-- An operation on one operand. -/
def unary (op : Token) : Step Unit := do
  let operand ← pop
  push (← ofExcept (operand.prefixOp op))

/-- The keys and values of a hash, in turn, from the slots from `start` on. The value of a last key
that stands alone is read from the slot above the top of the stack, if there is one. -/
def pairValues (start : Nat) : Step (List Value) := do
  let m ← get
  let values ← valuesFrom start
  -- the compiler never asks for an odd number of slots
  if values.length % 2 = 1 ∧ m.top < stackSize then return values ++ [m.stack.read m.top]
  else return values

/-- Puts keys and values, in turn, into the entries of a hash. -/
def insertPairs (entries : List (Entry Value)) : List Value → Step (List (Entry Value))
  | [] => return entries
  | [_] => throw .stuck
  | shown :: value :: rest => do
    let entries ← ofExcept (Value.insertPair entries shown value)
    insertPairs entries rest

/-- Starts a closure on the arguments on top of the stack. -/
def enterClosure (code : FunctionCode) (cells : Array CellId) (count : Nat) : Step Unit := do
  if count ≠ code.params then fault (.argumentCount code.params count)
  else
    let base ← below count
    let top := base + code.locals
    -- the frames are those of the callers and the running one, and the first is that of the top
    -- level
    if maxFrames ≤ (← get).callers.length + 1 || stackSize ≤ top then fault .stackOverflow
    else
      modify fun m =>
        { m with frame := .enter code cells base, callers := m.frame :: m.callers, top }

/-- Calls the value below the arguments on top of the stack. -/
def call (count : Nat) : Step Unit := do
  let callee ← below (count + 1)
  match ← slot callee with
  | .closure _ code cells => enterClosure code cells count
  | .builtin builtin => do
    let args ← valuesFrom (callee + 1)
    let result ← onHost (builtin.call args)
    -- the result takes the place of the callee
    setTop callee
    push result
  | value => fault (.notFunction value.kind)

/-- Leaves the running function with a result, which takes the place of the callee; at the top level
the program ends. -/
def leave (result : Value) : Step Unit := do
  let m ← get
  match m.callers with
  | [] => throw .finished
  | caller :: callers =>
    match m.frame.base with
    -- the callee lies below the slots of the function, so a called function never starts at zero
    | 0 => throw .stuck
    | callee + 1 => do
      modify fun m => { m with frame := caller, callers, top := callee }
      push result

/-- Makes a closure from a constant and the variables it captures. -/
def makeClosure (index count : Nat) : Step Unit := do
  match ← present (← get).constants[index]? with
  | .compiled _ code => do
    let cells ← captureCells (code.captures.take count)
    let id ← onHost HostM.identity
    push (.closure id code cells.toArray)
  | _ => fault (.notFunctionConstant index)

/-- Executes an operation, whose byte has been read. -/
def execute : Op → Step Unit
  | .constant => do
    let index ← readWord
    push (← present (← get).constants[index]?)
  | .pop => do
    let _ ← pop
  | .pushTrue => push (.bool true)
  | .pushFalse => push (.bool false)
  | .pushNull => push .null
  | .bang => unary .bang
  | .minus => unary .minus
  | .jump => do jump (← readWord)
  | .jumpNotTruthy => do
    let target ← readWord
    let test ← pop
    if !test.truthy then jump target
  | .getGlobal => do push (← getGlobal (← readWord))
  | .setGlobal => do
    let index ← readWord
    setGlobal index (← pop)
  | .getLocal => do push (← getLocal (← readByte))
  | .setLocal => do
    let index ← readByte
    setLocal index (← pop)
  | .getFree => do push (← cell (← freeCell (← readByte)))
  | .setFree => do
    let index ← readByte
    let value ← pop
    setCell (← freeCell index) value
  | .getBuiltin => do
    let index ← readByte
    match (← get).builtins[index]? with
    | some builtin => push (.builtin builtin)
    | none => fault (.unknownBuiltin index)
  | .array => do
    let start ← below (← readWord)
    let elements ← valuesFrom start
    let value ← onHost (HostM.array elements)
    setTop start
    push value
  | .hash => do
    let start ← below (← readWord)
    -- keys are looked at here, when all keys and values have been evaluated
    let entries ← insertPairs [] (← pairValues start)
    let value ← onHost (HostM.hash entries)
    setTop start
    push value
  | .index => do
    let subscript ← pop
    let container ← pop
    push (← ofExcept (container.subscript subscript))
  | .call => do call (← readByte)
  | .returnValue => do leave (← pop)
  | .returnNull => leave .null
  | .closure => do
    let index ← readWord
    let count ← readByte
    makeClosure index count
  -- all others take two operands
  | op => binary op

/-- Executes one instruction. -/
def step : Step Unit := do
  let frame := (← get).frame
  if frame.code.code.size ≤ frame.position then throw .finished
  else
    let byte ← nextByte
    match Op.ofByte? byte with
    | some op => execute op
    | none => fault (.unknownOp byte)

/-- How a run ends: the machine stops, or it is still going after the given number of steps. -/
inductive Outcome where
  | stopped (stop : Stop)
  | running
deriving DecidableEq, Repr

/-- Executes instructions until the machine stops, at most `fuel` of them. -/
def run : (fuel : Nat) → Machine → Outcome × Machine
  | 0, m => (.running, m)
  | fuel + 1, m =>
    match step m with
    | .ok () m => run fuel m
    | .error stop m => (.stopped stop, m)

/-- The machine before it runs an executable. -/
def load (executable : Executable) (builtins : BuiltinTable) (host : Host) : Machine :=
  { constants := executable.constants
    names := executable.globals
    builtins
    stack := ⟨.null, #[]⟩
    top := 0
    globals := ⟨none, #[]⟩
    cells := #[]
    frame := .enter ⟨executable.code, 0, 0, []⟩ #[] 0
    callers := []
    host }

/-- The value on top of the stack, `null` on an empty one. -/
def stackTop (m : Machine) : Value :=
  match m.top with
  | 0 => .null
  | top + 1 => m.stack.read top

/-- The value taken off the stack last: after a run, that of the last statement of a program. -/
def lastPopped (m : Machine) : Value :=
  if m.top < stackSize then m.stack.read m.top else .null

end Machine

end Scriptlet
