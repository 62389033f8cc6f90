import Scriptlet.Builtin.Call
import Scriptlet.Scope

/-!
# Evaluation

The meaning of programs, statement by statement and expression by expression. What leaves a
statement other than by its end is a `Signal`: it unwinds to the loop or the call that it belongs
to, or ends the program. Whatever the outcome, the surroundings, the scopes and the call depth are
those at the moment of leaving.

The functions recurse on a fuel that bounds the depth of the recursion, not the work. Running out of
it is an outcome of its own, and no other outcome depends on how much of it is left.
-/

namespace Scriptlet.Evaluation

/-- How many calls of functions may be nested. -/
def maxCallDepth : Nat := 1024

/-- What a program changes as it runs. -/
structure World where
  host : Host
  scopes : Scopes
  /-- The number of calls that are being evaluated. -/
  depth : Nat

/-- What comes out of a statement or an expression instead of a value. -/
inductive Signal where
  | returned (value : Value)
  | breakLoop
  | continueLoop
  | halted (halt : Halt)
  | outOfFuel

/-- A computation that may change the world and leave by a signal, keeping its changes. -/
abbrev Eval := EStateM Signal World

/-- Ends the program with a fault. -/
def fault {α : Type} (fault : Fault) : Eval α :=
  throw (.halted (.fault fault))

/-- The result of an operator. -/
def ofExcept {α : Type} : Except Fault α → Eval α
  | .ok value => pure value
  | .error error => fault error

/-- An effect on the surroundings. -/
def onHost {α : Type} (action : HostM α) : Eval α
  | ⟨host, scopes, depth⟩ =>
    match action host with
    | .ok value host => .ok value ⟨host, scopes, depth⟩
    | .error halt host => .error (.halted halt) ⟨host, scopes, depth⟩

/-- A computation with its signal as a result. -/
def caught {α : Type} (action : Eval α) : Eval (Except Signal α) := fun world =>
  match action world with
  | .ok value world => .ok (.ok value) world
  | .error signal world => .ok (.error signal) world

/-- Changes the scopes. -/
def onScopes (change : Scopes → Scopes) : Eval Unit
  | ⟨host, scopes, depth⟩ => .ok () ⟨host, change scopes, depth⟩

/-- Sets the number of calls that are being evaluated. -/
def setDepth (depth : Nat) : Eval Unit
  | ⟨host, scopes, _⟩ => .ok () ⟨host, scopes, depth⟩

/-- The environment with a new scope inside. -/
def enter (env : Env) (inLoop : Bool) : Eval Env
  | ⟨host, scopes, depth⟩ => .ok (scopes.next :: env) ⟨host, scopes.add inLoop, depth⟩

/-- The value that a name means in an environment. -/
def lookup? (env : Env) (name : String) : Eval (Option Value) := do
  return (← get).scopes.lookup? name env

/-- The value of a name: its binding, or else the built-in function of that name. -/
def identifier (table : BuiltinTable) (env : Env) (name : String) : Eval Value := do
  match ← lookup? env name with
  | some value => return value
  | none =>
    match table.find? name with
    | some builtin => return .builtin builtin
    | none => fault (.unbound name)

/-- Binds parameters to arguments, one after the other, so that the last of equal names wins. -/
def bindParams (env : Env) : (params : List String) → (args : List Value) → Eval Unit
  | param :: params, arg :: args => do
    onScopes fun scopes => scopes.define env param arg
    -- an equal name later on overwrites the binding
    bindParams env params args
  | _, _ => pure ()

/-- An expression as a value of its own, unevaluated. -/
def quote : (args : List Expr) → Eval Value
  | [e] => do return .quote (← onHost HostM.identity) e
  | args => fault (.argumentCount 1 args.length)

/-- What a call makes of the end of the function's body. -/
def callResult : Except Signal Value → Eval Value
  | .ok value => pure value
  | .error (.returned value) => pure value
  -- a jump does not leave the function that it stands in
  | .error .breakLoop => fault .breakOutsideLoop
  | .error .continueLoop => fault .continueOutsideLoop
  | .error signal => throw signal

/-- Whether an expression is a call of `quote`, unless a binding hides that name. -/
def isQuote (env : Env) : (callee : Expr) → Eval Bool
  | .ident "quote" => do return (← lookup? env "quote").isNone
  | _ => pure false

mutual

/-- Evaluates a statement. The value of an expression is its own, that of a block the value of its
last statement, and all others have the value `null`. -/
def stmt (table : BuiltinTable) : (fuel : Nat) → Env → Stmt → Eval Value
  | 0, _, _ => throw .outOfFuel
  | fuel + 1, env, s => do
    match s with
    | .expr value => expr table fuel env value
    | .bind name value => do
      let value ← expr table fuel env value
      onScopes fun scopes => scopes.define env name value
      return .null
    | .assign name value => do
      let value ← expr table fuel env value
      onScopes fun scopes => scopes.assign name value env
      return .null
    | .ret value => do
      let value ← expr table fuel env value
      throw (.returned value)
    | .block body => do
      let env ← enter env false
      stmts table fuel env .null body
    | .loop init test post body => do
      let env ← enter env true
      let _ ← stmt table fuel env init
      iterate table fuel env test post body
    | .breakLoop => do
      if (← get).scopes.inLoop env then throw .breakLoop else fault .breakOutsideLoop
    | .continueLoop => do
      if (← get).scopes.inLoop env then throw .continueLoop else fault .continueOutsideLoop

/-- Evaluates statements in turn; the value is that of the last one, or `last` if there is none. -/
def stmts (table : BuiltinTable) : (fuel : Nat) → Env → (last : Value) → List Stmt → Eval Value
  | 0, _, _, _ => throw .outOfFuel
  | _ + 1, _, last, [] => return last
  | fuel + 1, env, _, s :: rest => do
    let value ← stmt table fuel env s
    stmts table fuel env value rest

/-- Goes through a loop as long as its condition holds. -/
def iterate (table : BuiltinTable) :
    (fuel : Nat) → Env → (test : Expr) → (post : Stmt) → (body : List Stmt) → Eval Value
  | 0, _, _, _, _ => throw .outOfFuel
  | fuel + 1, env, test, post, body => do
    let holds ← expr table fuel env test
    if holds.truthy then
      -- all rounds share the scope of the loop; only its jumps are caught here
      match ← caught (stmts table fuel env .null body) with
      | .ok _ | .error .continueLoop => do
        let _ ← stmt table fuel env post
        iterate table fuel env test post body
      | .error .breakLoop => return .null
      | .error signal => throw signal
    else
      return .null

/-- Evaluates an expression. -/
def expr (table : BuiltinTable) : (fuel : Nat) → Env → Expr → Eval Value
  | 0, _, _ => throw .outOfFuel
  | fuel + 1, env, e => do
    match e with
    | .int i => return .int i
    | .float x => return .float x
    | .str s => return .str s
    | .bool b => return .bool b
    | .ident name => identifier table env name
    | .array elements => do
      let values ← exprs table fuel env [] elements
      onHost (HostM.array values)
    | .hash pairs => do
      let entries ← pairsFrom table fuel env [] pairs
      onHost (HostM.hash entries)
    | .prefixOp op operand => do
      let operand ← expr table fuel env operand
      ofExcept (operand.prefixOp op)
    | .infixOp left op right => do
      let left ← expr table fuel env left
      let right ← expr table fuel env right
      ofExcept (left.infixOp op right)
    | .cond test yes no => do
      let holds ← expr table fuel env test
      if holds.truthy then stmts table fuel env .null yes
      else
        match no with
        | some no => stmts table fuel env .null no
        | none => return .null
    | .fn params body => do
      return .function (← onHost HostM.identity) params body env
    | .call callee args => do
      if ← isQuote env callee then quote args
      else
        let callee ← expr table fuel env callee
        let args ← exprs table fuel env [] args
        apply table fuel callee args
    | .index left subscript => do
      let left ← expr table fuel env left
      let subscript ← expr table fuel env subscript
      ofExcept (left.subscript subscript)

/-- Evaluates expressions in turn, behind the values in `read`, which are listed in reverse. -/
def exprs (table : BuiltinTable) :
    (fuel : Nat) → Env → (read : List Value) → List Expr → Eval (List Value)
  | 0, _, _, _ => throw .outOfFuel
  | _ + 1, _, read, [] => return read.reverse
  | fuel + 1, env, read, e :: rest => do
    let value ← expr table fuel env e
    exprs table fuel env (value :: read) rest

/-- Evaluates the pairs of a hash in turn. A key has to be usable before its value is evaluated. -/
def pairsFrom (table : BuiltinTable) :
    (fuel : Nat) → Env → (entries : List (Entry Value)) → List (Expr × Expr) →
      Eval (List (Entry Value))
  | 0, _, _, _ => throw .outOfFuel
  | _ + 1, _, entries, [] => return entries
  | fuel + 1, env, entries, (shown, value) :: rest => do
    let shown ← expr table fuel env shown
    match shown.key? with
    | none => fault (.unusableKey shown.kind)
    | some key => do
      let value ← expr table fuel env value
      pairsFrom table fuel env (Entry.insert ⟨key, shown, value⟩ entries) rest

/-- Calls a function with arguments. -/
def apply (table : BuiltinTable) :
    (fuel : Nat) → (callee : Value) → (args : List Value) → Eval Value
  | 0, _, _ => throw .outOfFuel
  | fuel + 1, callee, args => do
    match callee with
    | .function _ params body env => do
      if params.length ≠ args.length then
        fault (.argumentCount params.length args.length)
      else
        let depth := (← get).depth
        if maxCallDepth ≤ depth then fault .stackOverflow
        else
          let env ← enter env false
          bindParams env params args
          setDepth (depth + 1)
          -- however the body ends, the call is over before its result is looked at
          let result ← caught (stmts table fuel env .null body)
          setDepth depth
          callResult result
    | .builtin builtin => onHost (builtin.call args)
    | callee => fault (.notFunction callee.kind)

end

/-- How a program ends: with a value, which is an error value after a fault; through `exit`; or
nowhere within the given fuel. -/
inductive Outcome where
  | value (value : Value)
  | exit (status : UInt8)
  | outOfFuel

/-- How a program ends that leaves by a signal. -/
def Outcome.ofSignal : Signal → Outcome
  | .returned v => .value v
  | .breakLoop => .value (.error Fault.breakOutsideLoop.message)
  | .continueLoop => .value (.error Fault.continueOutsideLoop.message)
  | .halted (.fault fault) => .value (.error fault.message)
  | .halted (.exit status) => .exit status
  | .outOfFuel => .outOfFuel

/-- Evaluates a program in an environment. The value is that of the first `return` outside of
functions, or else of the last statement. -/
def program (table : BuiltinTable) (fuel : Nat) (env : Env) (program : Program) (world : World) :
    Outcome × World :=
  match stmts table fuel env .null program world with
  | .ok value world => (.value value, world)
  | .error signal world => (.ofSignal signal, world)

/-- The world before a program runs: one scope, the root. -/
def World.initial (host : Host) : World :=
  { host, scopes := #[⟨∅, false⟩], depth := 0 }

end Scriptlet.Evaluation
