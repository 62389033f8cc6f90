import Scriptlet.Proofs.Evaluation.Effects
import Scriptlet.Proofs.Scopes
import Scriptlet.Proofs.Values.Identity

/-!
# The events of an evaluation

What happens in an evaluation, in the order in which it happens: which values expressions come to,
which values are made, what is stored for a name in a scope and read from there, and which functions
are called inside of how many other calls. The events follow the recursion of the evaluation, whose
own results say where a part starts and whether it is reached at all.

A list of events is a history of the scopes that needs no scopes: `lastStored` finds in it the value
that was stored last for a name.

The evaluator itself keeps no record of what it has done. The functions below compute one beside it,
from the same arguments, and nothing in the evaluator depends on them. That they tell the truth is
the subject of `Proofs/Evaluation/Recorded.lean`, where it is proved of every event what it says
about the worlds before and behind.
-/

namespace Scriptlet.Evaluation

/-- **Something that happens in an evaluation.** -/
inductive Event where
  /-- A literal or `quote` has made a value. -/
  | made (e : Expr) (value : Value)
  /-- A built-in function has made a value. -/
  | built (builtin : Builtin) (value : Value)
  /-- Any other expression has come to a value. -/
  | came (e : Expr) (value : Value)
  /-- A value is stored for a name in a scope: by `let`, by an assignment or as an argument. -/
  | stored (scope : ScopeId) (name : String) (value : Value)
  /-- A name is read that is found in a scope. -/
  | read (scope : ScopeId) (name : String) (value : Value)
  /-- A function is called as the `nesting`th of calls inside each other, in a world. -/
  | called (nesting : Nat) (callee : Value) (args : List Value) (world : World)

namespace Event

/-- The value that is made. -/
def new? : Event → Option Value
  | made _ value | built _ value => some value
  | came _ _ | stored _ _ _ | read _ _ _ | called _ _ _ _ => none

/-- The value that an event is about. -/
def value? : Event → Option Value
  | made _ value | built _ value | came _ value | stored _ _ value | read _ _ value => some value
  | called _ _ _ _ => none

/-- What a scope holds for a name behind an event, if it has held `held` before. -/
def holding (scope : ScopeId) (name : String) (held : Option Value) : Event → Option Value
  | stored other name' value => if other = scope ∧ name' = name then some value else held
  | _ => held

end Event

/-! ## Histories

What a list of events says when it is read from front to back. -/

/-- The values that are made, in turn. -/
def newValues (events : List Event) : List Value :=
  events.filterMap Event.new?

/-- What a scope holds for a name behind some events, if it has held `held` before: a fold in which
a later event hides an earlier one. -/
def heldBehind (events : List Event) (scope : ScopeId) (name : String) (held : Option Value) :
    Option Value :=
  events.foldl (Event.holding scope name) held

/-- The events of a computation, depending on where it starts. A part of it that is not reached has
none, which only the world can tell. -/
abbrev Log := World → List Event

namespace Log

/-- Nothing happens. -/
def nothing : Log := fun _ => []

/-- The events of a computation, and then those of what goes on with its value. -/
def andThen {α : Type} (log : Log) (x : Eval α) (rest : α → Log) : Log := fun world =>
  log world ++ match x world with
    | .ok a world => rest a world
    | .error _ _ => []

/-- A literal makes the value of `x`. -/
def makes (e : Expr) (x : Eval Value) : Log := fun world =>
  match x world with
  | .ok value _ => [.made e value]
  | .error _ _ => []

/-- A built-in function that makes arrays makes the value of `x`, if it draws an identity for it.
Without one, it has given back an array that there was. -/
def builds (builtin : Builtin) (x : Eval Value) : Log := fun world =>
  match x world with
  | .ok value world' =>
    if builtin.makes ∧ world.host.fresh < world'.host.fresh then [.built builtin value] else []
  | .error _ _ => []

/-- Behind other events, an expression comes to the value of `x`. -/
def comes (e : Expr) (x : Eval Value) (log : Log) : Log := fun world =>
  log world ++ match x world with
    | .ok value _ => [.came e value]
    | .error _ _ => []

/-- A value is stored for a name in a scope, if there is one. -/
def stores (scope? : World → Option ScopeId) (name : String) (value : Value) : Log := fun world =>
  match scope? world with
  | some scope => if scope < world.scopes.size then [.stored scope name value] else []
  | none => []

/-- The arguments of a call are stored for its parameters, in a new scope. -/
def passes (params : List String) (args : List Value) : Log := fun world =>
  (params.zip args).map fun (param, arg) => .stored world.scopes.next param arg

/-- The value of `x` is read from the scope where a name is found, if it is found in one. -/
def reads (env : Env) (name : String) (x : Eval Value) : Log := fun world =>
  match world.scopes.holder? name env, x world with
  | some scope, .ok value _ => [.read scope name value]
  | _, _ => []

end Log

/-- Starts a call: the inner environment, where the parameters are bound. The evaluator does these
steps in the middle of `apply`; by themselves they are what happens before the body. -/
def startCall (params : List String) (args : List Value) (env : Env) : Eval Env := do
  let depth := (← get).depth
  let env ← enter env false
  bindParams env params args
  setDepth (depth + 1)
  return env

/-! ## Events along the syntax

One function for each function of the evaluator, with the same fuel and the same equations. Whatever
goes on behind a part goes on with the value of that part, which the evaluator is asked for. -/

mutual

/-- The events of a statement, inside of so many calls. -/
def stmtLog (table : BuiltinTable) (nesting : Nat) : (fuel : Nat) → Env → Stmt → Log
  | 0, _, _ => .nothing
  | fuel + 1, env, s =>
    match s with
    | .expr value | .ret value => exprLog table nesting fuel env value
    | .bind name value =>
      (exprLog table nesting fuel env value).andThen (expr table fuel env value) fun value =>
        .stores (fun _ => env.head?) name value
    | .assign name value =>
      (exprLog table nesting fuel env value).andThen (expr table fuel env value) fun value =>
        .stores (fun world => (world.scopes.holder? name env).or env.getLast?) name value
    | .block body => Log.nothing.andThen (enter env false) fun env =>
      stmtsLog table nesting fuel env .null body
    | .loop init test post body => Log.nothing.andThen (enter env true) fun env =>
      (stmtLog table nesting fuel env init).andThen (stmt table fuel env init) fun _ =>
        iterateLog table nesting fuel env test post body
    | .breakLoop | .continueLoop => .nothing

/-- The events of statements in turn. -/
def stmtsLog (table : BuiltinTable) (nesting : Nat) :
    (fuel : Nat) → Env → (last : Value) → List Stmt → Log
  | 0, _, _, _ => .nothing
  | _ + 1, _, _, [] => .nothing
  | fuel + 1, env, _, s :: rest =>
    (stmtLog table nesting fuel env s).andThen (stmt table fuel env s) fun value =>
      stmtsLog table nesting fuel env value rest

/-- The events of a loop. -/
def iterateLog (table : BuiltinTable) (nesting : Nat) :
    (fuel : Nat) → Env → (test : Expr) → (post : Stmt) → (body : List Stmt) → Log
  | 0, _, _, _, _ => .nothing
  | fuel + 1, env, test, post, body =>
    (exprLog table nesting fuel env test).andThen (expr table fuel env test) fun holds =>
      if holds.truthy then
        (stmtsLog table nesting fuel env .null body).andThen
          (caught (stmts table fuel env .null body)) fun
          | .ok _ | .error .continueLoop =>
            (stmtLog table nesting fuel env post).andThen (stmt table fuel env post) fun _ =>
              iterateLog table nesting fuel env test post body
          | _ => .nothing
      else .nothing

/-- The events of an expression. -/
def exprLog (table : BuiltinTable) (nesting : Nat) : (fuel : Nat) → Env → Expr → Log
  | 0, _, _ => .nothing
  | fuel + 1, env, e =>
    match e with
    | .array elements =>
      (exprsLog table nesting fuel env [] elements).andThen (exprs table fuel env [] elements)
        fun values => .makes e (onHost (HostM.array values))
    | .hash pairs =>
      (pairsLog table nesting fuel env [] pairs).andThen (pairsFrom table fuel env [] pairs)
        fun entries => .makes e (onHost (HostM.hash entries))
    | .fn _ _ => .makes e (expr table (fuel + 1) env e)
    | .call callee args => Log.nothing.andThen (isQuote env callee) fun
      | true => .makes e (quote args)
      | false =>
        ((exprLog table nesting fuel env callee).andThen (expr table fuel env callee)
          fun callee => (exprsLog table nesting fuel env [] args).andThen
            (exprs table fuel env [] args) fun args =>
              applyLog table nesting fuel callee args).comes e
          (do
            let callee ← expr table fuel env callee
            let args ← exprs table fuel env [] args
            apply table fuel callee args)
    | .prefixOp _ operand =>
      (exprLog table nesting fuel env operand).comes e (expr table (fuel + 1) env e)
    | .infixOp left _ right | .index left right =>
      ((exprLog table nesting fuel env left).andThen (expr table fuel env left) fun _ =>
        exprLog table nesting fuel env right).comes e (expr table (fuel + 1) env e)
    | .cond test yes no =>
      ((exprLog table nesting fuel env test).andThen (expr table fuel env test) fun holds =>
        if holds.truthy then stmtsLog table nesting fuel env .null yes
        else
          match no with
          | some no => stmtsLog table nesting fuel env .null no
          | none => .nothing).comes e (expr table (fuel + 1) env e)
    | .ident name =>
      (Log.reads env name (identifier table env name)).comes e (expr table (fuel + 1) env e)
    | .int _ | .float _ | .str _ | .bool _ => Log.nothing.comes e (expr table (fuel + 1) env e)

/-- The events of expressions in turn. -/
def exprsLog (table : BuiltinTable) (nesting : Nat) :
    (fuel : Nat) → Env → (read : List Value) → List Expr → Log
  | 0, _, _, _ => .nothing
  | _ + 1, _, _, [] => .nothing
  | fuel + 1, env, read, e :: rest =>
    (exprLog table nesting fuel env e).andThen (expr table fuel env e) fun value =>
      exprsLog table nesting fuel env (value :: read) rest

/-- The events of the pairs of a hash in turn. -/
def pairsLog (table : BuiltinTable) (nesting : Nat) :
    (fuel : Nat) → Env → (entries : List (Entry Value)) → List (Expr × Expr) → Log
  | 0, _, _, _ => .nothing
  | _ + 1, _, _, [] => .nothing
  | fuel + 1, env, entries, (shown, value) :: rest =>
    (exprLog table nesting fuel env shown).andThen (expr table fuel env shown) fun shown =>
      match shown.key? with
      | none => .nothing
      | some key =>
        (exprLog table nesting fuel env value).andThen (expr table fuel env value) fun value =>
          pairsLog table nesting fuel env (Entry.insert ⟨key, shown, value⟩ entries) rest

/-- The events of a call; those of the body of a function follow if the function is entered. -/
def applyLog (table : BuiltinTable) (nesting : Nat) :
    (fuel : Nat) → (callee : Value) → (args : List Value) → Log
  | 0, _, _ => .nothing
  | fuel + 1, callee, args =>
    match callee with
    | .function _ params body env => fun world =>
      .called (nesting + 1) callee args world ::
        if params.length ≠ args.length ∨ maxCallDepth ≤ world.depth then []
        else
          (Log.passes params args).andThen (startCall params args env)
            (fun env => stmtsLog table (nesting + 1) fuel env .null body) world
    | .builtin builtin => .builds builtin (onHost (builtin.call args))
    | _ => .nothing

end

/-- The events of a program. -/
def programLog (table : BuiltinTable) (fuel : Nat) (host : Host) (prog : Program) : List Event :=
  stmtsLog table 0 fuel .root .null prog (.initial host)

/-! ## The value of an expression

How an expression has come to its value is told by the last event: it was made there, or it came
from somewhere else. -/

section

variable {α : Type} {x : Eval α} {rest : α → Log} {log : Log} {event : Event} {e : Expr}
  {value : Value} {world world' : World}

end

end Scriptlet.Evaluation
