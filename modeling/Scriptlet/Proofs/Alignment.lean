import Scriptlet.Proofs.Layout

/-!
# Where the count of operands is right

A jump out of a loop has to drop the operands that were put on the stack since the loop was entered,
and the compiler emits as many `pop` instructions as it has counted. Behind such a jump it counts
what the loop has, which is right as long as the code there is not reached. There is one way to
reach it nevertheless: a `for` whose last part is a `break` or `continue` itself is left through its
condition, and then execution goes on behind the loop with all operands still on the stack.

A program is `aligned` if no jump out of a loop is compiled with such a wrong count. The condition
follows the compiler through the syntax with two flags: `pending` says that operands have been put
on the stack since the innermost loop was entered, and `slack` that fewer operands are counted than
there are.
-/

namespace Scriptlet

mutual

/-- Whether what stands behind a statement is never reached, since the statement jumps out of a loop
or returns outside of all expressions. -/
def Stmt.diverts : Stmt → Bool
  | .breakLoop | .continueLoop | .ret _ => true
  | .block body => Stmt.divertsAny body
  | .loop init _ _ _ => init.diverts
  | _ => false

/-- Whether one of the statements diverts. -/
def Stmt.divertsAny : List Stmt → Bool
  | [] => false
  | s :: rest => s.diverts || Stmt.divertsAny rest

end

/-- Whether fewer operands are counted behind a statement than there are. -/
def Stmt.slackAfter (pending slack : Bool) (s : Stmt) : Bool :=
  slack || (pending && s.exits)

mutual

/-- Whether no jump in an expression drops too few operands. -/
def Expr.aligned (pending slack : Bool) : Expr → Bool
  | .infixOp left op right =>
    if op = .lt then right.aligned pending slack && left.aligned true slack
    else left.aligned pending slack && right.aligned true slack
  | .prefixOp _ operand => operand.aligned pending slack
  | .cond test yes no =>
    test.aligned pending slack && Stmt.alignedAll pending slack yes
      && match no with
        | some no => Stmt.alignedAll pending slack no
        | none => true
  | .array elements => Expr.alignedAll pending slack elements
  | .hash pairs => Expr.alignedPairs pending slack pairs
  | .index left subscript => left.aligned pending slack && subscript.aligned true slack
  | .fn _ body => Stmt.alignedAll false false body
  | .call callee args => callee.aligned pending slack && Expr.alignedAll true slack args
  | .ident _ | .int _ | .float _ | .str _ | .bool _ => true

/-- Whether no jump in some expressions drops too few operands. -/
def Expr.alignedAll (pending slack : Bool) : List Expr → Bool
  | [] => true
  | e :: rest => e.aligned pending slack && Expr.alignedAll true slack rest

/-- Whether no jump in the pairs of a hash drops too few operands. -/
def Expr.alignedPairs (pending slack : Bool) : List (Expr × Expr) → Bool
  | [] => true
  | (key, value) :: rest =>
    key.aligned pending slack && value.aligned true slack && Expr.alignedPairs true slack rest

/-- Whether no jump in a statement drops too few operands. A loop starts to count anew. -/
def Stmt.aligned (pending slack : Bool) : Stmt → Bool
  | .expr value | .bind _ value | .assign _ value | .ret value => value.aligned pending slack
  | .block body => Stmt.alignedAll pending slack body
  | .loop init test post body =>
    init.aligned pending slack
      && (init.diverts
        || (test.aligned pending (init.slackAfter pending slack)
          && Stmt.alignedAll false false body
          && post.aligned pending (init.slackAfter pending slack)))
  | .breakLoop | .continueLoop => !slack

/-- Whether no jump in some statements drops too few operands. -/
def Stmt.alignedAll (pending slack : Bool) : List Stmt → Bool
  | [] => true
  | s :: rest =>
    s.aligned pending slack
      && (s.diverts || Stmt.alignedAll pending (s.slackAfter pending slack) rest)

end

/-- **Whether no jump out of a loop drops too few operands.** -/
def Program.aligned (program : Program) : Bool :=
  Stmt.alignedAll false false program

end Scriptlet
