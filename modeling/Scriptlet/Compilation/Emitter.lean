import Scriptlet.Executable
import Scriptlet.Symbols

/-!
# Emitting code

The state of a compilation and its elementary steps. A `Segment` is the code of one function in the
making; the segments of the functions around it wait until it is done. Jumps are emitted with a
target that is not yet known and patched when it is. Every segment keeps count of the operands that
its code leaves on the stack, so that a jump out of a loop can drop those of the expressions it
leaves.

A step that fails keeps what was emitted before it.
-/

namespace Scriptlet.Compilation

/-- Why a program cannot be compiled. -/
inductive CompileError where
  | unknownOperator (op : Token)
  | breakOutsideLoop
  | continueOutsideLoop
  | quoteArity (got : Nat)
  | tooManyConstants
  | tooManyGlobals
  | tooManyLocals
  | tooManyCaptures
  | tooManyArguments (count : Nat)
  | tooManyElements (count : Nat)
  | jumpRange (target : Nat)
deriving DecidableEq, Repr

/-- The wording of an error. -/
def CompileError.message : CompileError → String
  | unknownOperator op => "unknown operator: " ++ op.text
  | breakOutsideLoop => "break outside loop"
  | continueOutsideLoop => "continue outside loop"
  | quoteArity got => "wrong number of arguments: want=1, got=" ++ toString got
  | tooManyConstants => "too many constants"
  | tooManyGlobals => "too many global bindings"
  | tooManyLocals => "too many local bindings"
  | tooManyCaptures => "too many free variables"
  | tooManyArguments count => "too many arguments: " ++ toString count
  | tooManyElements count => "too many elements in literal: " ++ toString count
  | jumpRange target => "jump target out of range: " ++ toString target

/-- How many constants a program may have. -/
def maxConstants : Nat := 65536

/-- How many global slots a program may use. -/
def maxGlobals : Nat := 65536

/-- How many local slots a function may have, and one more than the arguments and captured variables
that it may have. -/
def maxLocals : Nat := 256

/-- The largest operand of two bytes. -/
def maxWord : Nat := 65535

/-- The target of a jump that is not patched yet. -/
def placeholder : Nat := 9999

/-- An instruction in the code of a segment. -/
structure Emitted where
  op : Op
  position : Nat
deriving DecidableEq, Repr

/-- A loop whose body is being compiled: the number of operands on the stack at the start of its
body, and the positions of the jumps that leave the body. -/
structure LoopContext where
  depth : Nat
  breaks : List Nat
  continues : List Nat
deriving DecidableEq, Repr

/-- The code of a function in the making. -/
structure Segment where
  code : Code
  /-- The instruction emitted last. -/
  last : Option Emitted
  /-- The instruction emitted before the last one. -/
  previous : Option Emitted
  /-- The loops around the current position, innermost first. -/
  loops : List LoopContext
  /-- The number of operands on the stack at the current position. -/
  depth : Nat
deriving DecidableEq, Repr

/-- How an instruction changes the number of operands on the stack. -/
def stackEffect (op : Op) (operands : List Nat) : Int :=
  let count : Int := Int.ofNat (operands.headD 0)
  match op with
  | .constant | .pushTrue | .pushFalse | .pushNull | .getGlobal | .getLocal | .getBuiltin
  | .getFree | .closure => 1
  | .add | .sub | .mul | .div | .equal | .notEqual | .greaterThan | .pop | .jumpNotTruthy
  | .setGlobal | .setLocal | .setFree | .index | .returnValue => -1
  | .minus | .bang | .jump | .returnNull => 0
  | .array | .hash => 1 - count
  | .call => -count

namespace Segment

/-- A segment without code. -/
def empty : Segment :=
  ⟨#[], none, none, [], 0⟩

/-- Appends an instruction. -/
def emit (op : Op) (operands : List Nat) : Segment → Segment
  | ⟨code, last, _, loops, depth⟩ =>
    let position := code.size
    ⟨code ++ op.encode operands, some ⟨op, position⟩, last, loops,
      (Int.ofNat depth + stackEffect op operands).toNat⟩

/-- Whether the last instruction is `op` and stands at `since` or behind. -/
def lastIs (segment : Segment) (op : Op) (since : Nat) : Bool :=
  match segment.last with
  | some last => last.op = op && since ≤ last.position
  | none => false

/-- Removes the last instruction, which has dropped an operand. -/
def removeLastPop : Segment → Segment
  | ⟨code, some last, previous, loops, depth⟩ =>
    -- only two instructions are remembered, so the one before these is no longer known
    ⟨code.truncate last.position, previous, previous, loops, depth + 1⟩
  | segment => segment

/-- Replaces the last instruction, which has dropped an operand, by one that returns it. -/
def returnLastPop : Segment → Segment
  | ⟨code, some last, previous, loops, depth⟩ =>
    -- both are one byte long and take one operand
    ⟨code.overwrite last.position (Op.returnValue.encode []), some ⟨.returnValue, last.position⟩,
      previous, loops, depth⟩
  | segment => segment

/-- Writes the target of the jump at a position. -/
def patch (position target : Nat) : Segment → Segment
  | ⟨code, last, previous, loops, depth⟩ =>
    match code[position]?.bind Op.ofByte? with
    -- the operation stays as it is, and its operand has the same width
    | some op => ⟨code.overwrite position (op.encode [target]), last, previous, loops, depth⟩
    | none => ⟨code, last, previous, loops, depth⟩

/-- Sets the number of operands on the stack. -/
def setDepth (depth : Nat) : Segment → Segment
  | ⟨code, last, previous, loops, _⟩ => ⟨code, last, previous, loops, depth⟩

/-- Opens a loop whose body starts at the current position. -/
def openLoop : Segment → Segment
  | ⟨code, last, previous, loops, depth⟩ =>
    ⟨code, last, previous, ⟨depth, [], []⟩ :: loops, depth⟩

/-- Closes the innermost loop. -/
def closeLoop : Segment → Segment
  | ⟨code, last, previous, loops, depth⟩ => ⟨code, last, previous, loops.tail, depth⟩

/-- Changes what is known of the innermost loop. -/
def onLoop (change : LoopContext → LoopContext) : Segment → Segment
  | ⟨code, last, previous, loop :: loops, depth⟩ =>
    ⟨code, last, previous, change loop :: loops, depth⟩
  | segment => segment

end Segment

/-- The state of a compilation. -/
structure State where
  constants : Array Value
  symbols : Symbols
  /-- The segment of the innermost function. -/
  segment : Segment
  /-- The segments of the functions around it, innermost first. -/
  enclosing : List Segment
  /-- The first identity that no constant has. -/
  fresh : Nat

/-- A step of a compilation. -/
abbrev Compile := EStateM CompileError State

/-- Changes the current segment. -/
def onSegment (change : Segment → Segment) : Compile Unit
  | ⟨constants, symbols, segment, enclosing, fresh⟩ =>
    .ok () ⟨constants, symbols, change segment, enclosing, fresh⟩

/-- Looks into or changes the symbols. -/
def onSymbols {α : Type} (change : Symbols → α × Symbols) : Compile α
  | ⟨constants, symbols, segment, enclosing, fresh⟩ =>
    let (result, symbols) := change symbols
    .ok result ⟨constants, symbols, segment, enclosing, fresh⟩

/-- A step that is followed by a change of the state, whether it fails or not. -/
def followedBy {α : Type} (step : Compile α) (change : State → State) : Compile α := fun state =>
  match step state with
  | .ok result state => .ok result (change state)
  | .error error state => .error error (change state)

/-- The current position in the code. -/
def position : Compile Nat := do
  return (← get).segment.code.size

/-- The number of operands on the stack at the current position. -/
def depth : Compile Nat := do
  return (← get).segment.depth

/-- Appends an instruction. -/
def emit (op : Op) (operands : List Nat) : Compile Unit :=
  onSegment (Segment.emit op operands)

/-- Appends a jump with a target to be patched, and returns its position. -/
def emitJump (op : Op) : Compile Nat := do
  let jump ← position
  emit op [placeholder]
  return jump

/-- A target that a jump can have. -/
def checkTarget (target : Nat) : Compile Unit :=
  if maxWord < target then throw (.jumpRange target) else pure ()

/-- Sets the target of the jump at a position. -/
def patch (jump target : Nat) : Compile Unit := do
  checkTarget target
  onSegment (Segment.patch jump target)

/-- Sets the targets of the jumps at some positions. -/
def patchAll (jumps : List Nat) (target : Nat) : Compile Unit :=
  jumps.forM fun jump => patch jump target

/-- A number of elements that a literal can have. -/
def checkCount (count : Nat) : Compile Unit :=
  if maxWord < count then throw (.tooManyElements count) else pure ()

/-- An identity that no constant has yet. -/
def identity : Compile Identity
  | ⟨constants, symbols, segment, enclosing, fresh⟩ =>
    .ok fresh ⟨constants, symbols, segment, enclosing, fresh + 1⟩

/-- Adds a constant and returns its index. -/
def addConstant (value : Value) : Compile Nat
  | ⟨constants, symbols, segment, enclosing, fresh⟩ =>
    -- constants are never merged, even if they are equal
    let index := constants.size
    if maxConstants ≤ index then
      .error .tooManyConstants ⟨constants, symbols, segment, enclosing, fresh⟩
    else .ok index ⟨constants.push value, symbols, segment, enclosing, fresh⟩

/-- Appends an instruction that puts a constant on the stack. -/
def emitConstant (value : Value) : Compile Unit := do
  let index ← addConstant value
  emit .constant [index]

/-- The symbol of a name. A name that is nowhere defined becomes a global, for a later `let`. -/
def resolve (name : String) : Compile Symbol := do
  match ← onSymbols (Symbols.resolve name) with
  | some symbol => return symbol
  | none => onSymbols (Symbols.defineGlobal name)

/-- Appends an instruction that puts the value of a symbol on the stack. -/
def load (symbol : Symbol) : Compile Unit :=
  match symbol.kind with
  | .global =>
    if maxGlobals ≤ symbol.index then throw .tooManyGlobals else emit .getGlobal [symbol.index]
  | .slot => emit .getLocal [symbol.index]
  -- the index is not checked against the width of the operand
  | .builtin => emit .getBuiltin [symbol.index]
  | .free => emit .getFree [symbol.index]

/-- Appends an instruction that stores an operand into a global slot. -/
def storeGlobal (index : Nat) : Compile Unit :=
  if maxGlobals ≤ index then throw .tooManyGlobals else emit .setGlobal [index]

/-- Appends an instruction that stores an operand as the value of a symbol. Built-in functions are
never changed: storing to one defines a global that hides it from then on. -/
def store (symbol : Symbol) : Compile Unit :=
  match symbol.kind with
  | .global => storeGlobal symbol.index
  | .slot =>
    if maxLocals ≤ symbol.index then throw .tooManyLocals else emit .setLocal [symbol.index]
  | .free => emit .setFree [symbol.index]
  | .builtin => do
    let symbol ← onSymbols (Symbols.defineGlobal symbol.name)
    storeGlobal symbol.index

/-- A step inside a block of its own. -/
def inBlock (step : Compile Unit) : Compile Unit := do
  onSymbols fun symbols => ((), symbols.enterBlock)
  followedBy step fun
    | ⟨constants, symbols, segment, enclosing, fresh⟩ =>
      ⟨constants, symbols.leaveBlock, segment, enclosing, fresh⟩

/-- Starts the code of a function. -/
def enterFunction : Compile Unit
  | ⟨constants, symbols, segment, enclosing, fresh⟩ =>
    .ok () ⟨constants, symbols.enterFunction, .empty, segment :: enclosing, fresh⟩

/-- Goes back to the code of the function around. -/
def leaveFunction : State → State
  | ⟨constants, symbols, _, enclosing, fresh⟩ =>
    ⟨constants, symbols.leaveFunction?.getD symbols, enclosing.headD .empty, enclosing.tail, fresh⟩

/-- Where a new closure finds a variable that it captures. -/
def captureOf (symbol : Symbol) : Capture :=
  match symbol.kind with
  | .free => .free symbol.index
  | _ => .slot symbol.index

end Scriptlet.Compilation
