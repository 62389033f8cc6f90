import Scriptlet.Compilation.Emitter

/-!
# Compilation

From programs to code for the machine. Statements leave the stack as it was, expressions leave one
operand more. A name that is not defined where it is used becomes a global; reading it before it is
set is left to the machine to refuse.
-/

namespace Scriptlet.Compilation

/-- The operation of an infix operator whose operands are on the stack in source order. -/
def infixOp? : Token → Option Op
  | .plus => some .add
  | .minus => some .sub
  | .asterisk => some .mul
  | .slash => some .div
  | .gt => some .greaterThan
  | .eq => some .equal
  | .notEq => some .notEqual
  | _ => none

/-- The operation of a prefix operator. -/
def prefixOp? : Token → Option Op
  | .bang => some .bang
  | .minus => some .minus
  | _ => none

/-- Appends the operation of an operator. -/
def emitOperator (op : Token) : (operation : Option Op) → Compile Unit
  | some operation => emit operation []
  | none => throw (.unknownOperator op)

/-- Drops some operands. -/
def emitPops : (count : Nat) → Compile Unit
  | 0 => pure ()
  | count + 1 => do
    emit .pop []
    emitPops count

/-- Drops the operands that were put on the stack inside the body of the innermost loop and jumps;
returns the position of the jump, or nothing outside of loops. -/
def loopExit : Compile (Option Nat) := do
  match (← get).segment.loops with
  | [] => return none
  | loop :: _ => do
    emitPops ((← depth) - loop.depth)
    return some (← emitJump .jump)

/-- A branch of a condition. It leaves one operand: its last expression, or else `null`. -/
def branch (body : Compile Unit) : Compile Unit := do
  let start ← position
  body
  if (← get).segment.lastIs .pop start then onSegment Segment.removeLastPop
  else emit .pushNull []

/-- The body of a loop; returns the jumps that leave it. -/
def loopBody (body : Compile Unit) : Compile LoopContext := do
  onSegment Segment.openLoop
  followedBy
    (do
      body
      return (← get).segment.loops.headD ⟨0, [], []⟩)
    fun
      | ⟨constants, symbols, segment, enclosing, fresh⟩ =>
        ⟨constants, symbols, segment.closeLoop, enclosing, fresh⟩

/-- A loop, from its parts. The last two instructions are the value of the loop as a statement. -/
-- what is behind the body is compiled for the loop around, to which its jumps belong
def loop (init test post body : Compile Unit) : Compile Unit := do
  init
  let start ← position
  test
  -- the test is false: on behind the loop
  let leave ← emitJump .jumpNotTruthy
  let jumps ← loopBody body
  let next ← position
  post
  checkTarget start
  emit .jump [start]
  let after ← position
  -- all targets are known only now
  patch leave after
  patchAll jumps.breaks.reverse after
  patchAll jumps.continues.reverse next
  emit .pushNull []
  emit .pop []

/-- The code of a function's body, with the number of its slots and the symbols it captures. A last
expression is returned; a body without one returns `null`. -/
def functionCode (params : List String) (body : Compile Unit) :
    Compile (Code × Nat × List Symbol) := do
  enterFunction
  followedBy
    (do
      params.forM fun param => do
        let _ ← onSymbols (Symbols.define param)
      body
      -- the value of a last expression is returned instead of being dropped
      if (← get).segment.lastIs .pop 0 then onSegment Segment.returnLastPop
      if !(← get).segment.lastIs .returnValue 0 then emit .returnNull []
      let state ← get
      return (state.segment.code, state.symbols.slots, state.symbols.captured))
    leaveFunction

/-- A function: its code becomes a constant, from which the machine makes a closure. -/
def function (params : List String) (body : Compile Unit) : Compile Unit := do
  let (code, locals, captured) ← functionCode params body
  if maxLocals < locals then throw .tooManyLocals
  if maxLocals ≤ captured.length then throw .tooManyCaptures
  -- the constant of a function comes behind all those that its code refers to
  let id ← identity
  let index ← addConstant
    (.compiled id ⟨code, locals, params.length, captured.map captureOf⟩)
  emit .closure [index, captured.length]

/-- An expression as a value of its own, unevaluated. -/
def quote : (args : List Expr) → Compile Unit
  | [e] => do
    let id ← identity
    emitConstant (.quote id e)
  | args => throw (.quoteArity args.length)

/-- Whether an expression is a call of `quote`, unless a definition hides that name. -/
def isQuote : (callee : Expr) → Compile Bool
  | .ident "quote" => do return (← onSymbols (Symbols.resolve "quote")).isNone
  | _ => pure false

mutual

/-- Compiles a statement. The name of a function is defined before its body, which may refer to it;
any other name is defined behind its value. -/
def stmt : Stmt → Compile Unit
  | .expr value => do
    expr value
    emit .pop []
  | .bind name (.fn params body) => do
    -- before the body, so that it may call itself
    let symbol ← onSymbols (Symbols.define name)
    function params (stmts body)
    store symbol
  | .bind name value => do
    expr value
    let symbol ← onSymbols (Symbols.define name)
    store symbol
  | .assign name value => do
    expr value
    let symbol ← resolve name
    store symbol
  | .ret value => do
    expr value
    emit .returnValue []
  | .block body => inBlock (stmts body)
  | .loop init test post body => inBlock (loop (stmt init) (expr test) (stmt post) (stmts body))
  | .breakLoop => do
    match ← loopExit with
    | some jump => onSegment (Segment.onLoop fun l => { l with breaks := jump :: l.breaks })
    | none => throw .breakOutsideLoop
  | .continueLoop => do
    match ← loopExit with
    | some jump => onSegment (Segment.onLoop fun l => { l with continues := jump :: l.continues })
    | none => throw .continueOutsideLoop

/-- Compiles statements in turn. -/
def stmts : List Stmt → Compile Unit
  | [] => pure ()
  | s :: rest => do
    stmt s
    stmts rest

/-- Compiles an expression. The operands of `<` are put on the stack in reverse, for the machine
only knows `>`. -/
def expr : Expr → Compile Unit
  | .int i => emitConstant (.int i)
  | .float x => emitConstant (.float x)
  | .str s => emitConstant (.str s)
  | .bool b => emit (if b then .pushTrue else .pushFalse) []
  | .ident name => do
    let symbol ← resolve name
    load symbol
  | .infixOp left op right => do
    if op = .lt then
      expr right
      expr left
      emit .greaterThan []
    else
      expr left
      expr right
      emitOperator op (infixOp? op)
  | .prefixOp op operand => do
    expr operand
    emitOperator op (prefixOp? op)
  | .cond test yes no => do
    expr test
    let toNo ← emitJump .jumpNotTruthy
    let depth ← depth
    branch (stmts yes)
    let toEnd ← emitJump .jump
    patch toNo (← position)
    -- the second branch starts with the operands that the first one started with
    onSegment (Segment.setDepth depth)
    match no with
    | some no => branch (stmts no)
    | none => emit .pushNull []
    patch toEnd (← position)
    -- either branch has left its value
    onSegment (Segment.setDepth (depth + 1))
  | .array elements => do
    exprs elements
    checkCount elements.length
    emit .array [elements.length]
  | .hash pairs => do
    pairsOf pairs
    checkCount (2 * pairs.length)
    emit .hash [2 * pairs.length]
  | .index left subscript => do
    expr left
    expr subscript
    emit .index []
  | .fn params body => function params (stmts body)
  | .call callee args => do
    if ← isQuote callee then quote args
    else
      expr callee
      exprs args
      -- their number is an operand of one byte
      if maxLocals ≤ args.length then throw (.tooManyArguments args.length)
      emit .call [args.length]

/-- Compiles expressions in turn. -/
def exprs : List Expr → Compile Unit
  | [] => pure ()
  | e :: rest => do
    expr e
    exprs rest

/-- Compiles pairs in turn, each key before its value. -/
def pairsOf : List (Expr × Expr) → Compile Unit
  | [] => pure ()
  | (key, value) :: rest => do
    expr key
    expr value
    pairsOf rest

end

/-- The state before anything is compiled, for programs that see a table of built-in functions. -/
def State.initial (table : BuiltinTable) : State :=
  { constants := #[]
    symbols := .ofBuiltins (table.map Builtin.name)
    segment := .empty
    enclosing := []
    fresh := 0 }

/-- What has been compiled so far. -/
def State.executable (state : State) : Executable :=
  { code := state.segment.code
    constants := state.constants
    globals := state.symbols.ownGlobals.toArray
    fresh := state.fresh }

/-- Compiles a program behind what has been compiled so far, of which everything is kept, whether it
fails or not. -/
def extend (program : Program) (state : State) : Except CompileError Unit × State :=
  match stmts program state with
  | .ok () state => (.ok (), state)
  | .error error state => (.error error, state)

/-- Compiles a program. -/
def program (table : BuiltinTable) (program : Program) : Except CompileError Executable :=
  match extend program (.initial table) with
  | (.ok (), state) => .ok state.executable
  | (.error error, _) => .error error

end Scriptlet.Compilation
